import EnhancedXv6.Effects

namespace EnhancedXv6.Threads

open ProcTable Table Scheduler Transition Machine

structure Past where
  called : Slot → Bool := fun _ => false
  failed : Slot → Bool := fun _ => false

namespace Kernel

variable {n : ℕ}

def Takes (k k' : Kernel n) (p : Slot) : Prop := k.table.st p = .unused ∧ k'.table.st p = .embryo

instance (k k' : Kernel n) (p : Slot) : Decidable (k.Takes k' p) := inferInstanceAs (Decidable (_ ∧ _))

def callsKill (k : Kernel n) (p : Slot) : Label n → Bool
  | .kill _ pid => (k.table.proc p).pid = pid
  | _ => false

def recordPast (g : Past) (k : Kernel n) (l : Label n) (k' : Kernel n) : Past where
  called p := if k.Takes k' p then false else g.called p || k.callsKill p l
  failed p :=
    if k.Takes k' p then false
    else g.failed p || (k.table.st p = .embryo ∧ k'.table.st p = .unused)

end Kernel

def pastMachine (b : Build) (n : ℕ) : Machine (Kernel n × Past) (Label n) :=
  (machine b n).history {} Kernel.recordPast

variable {n : ℕ}

theorem pastMachine_initial (b : Build) : (pastMachine b n).initial (Kernel.start n, {}) := ⟨rfl, rfl⟩

def Spares (s : Kernel n × Past) : Label n → Prop
  | .kill _ pid => pid ≠ 0 ∧ ∀ p, s.2.failed p → (s.1.table.proc p).pid ≠ pid
  | .forkKalloc c false | .forkCopyuvm c false =>
    ∀ p np, (s.1.cpu c).proc = some p → (s.1.making (some p)).slot = some np →
      (s.1.table.proc np).killed = false
  | _ => True

instance (s : Kernel n × Past) (l : Label n) : Decidable (Spares s l) := by
  unfold Spares
  split <;> infer_instance

def KillsOwn (b : Build) (s : Kernel n × Past) (l : Label n) (s' : Kernel n × Past) : Prop :=
  (∀ c pid, l = .kill c pid → (s.1.table.kill b pid).2 = 0 →
    ∃ p, s.1.table.st p ≠ .unused ∧ (s.1.table.proc p).pid = pid) ∧
  (∀ p, s.1.table.st p = .embryo → s'.1.table.st p = .runnable → (s'.1.table.proc p).killed →
    s'.2.called p)

structure Births (t : Table) (g : Past) : Prop where
  unused : ∀ p, t.st p = .unused → (t.proc p).killed = false ∧ ((t.proc p).pid = 0 ∨ g.failed p)
  embryo : ∀ p, t.st p = .embryo → (t.proc p).killed → g.called p

namespace Births

variable {k k' : Kernel n} {g : Past} {l : Label n}

theorem record (h : Births k.table g)
    (hu : ∀ p, k'.table.st p = .unused → (k'.table.proc p).killed = false ∧
      ((k'.table.proc p).pid = 0 ∨ k.table.st p = .embryo ∨
        (k.table.st p = .unused ∧ (k'.table.proc p).pid = (k.table.proc p).pid)))
    (he : ∀ p, k'.table.st p = .embryo → (k'.table.proc p).killed →
      k.table.st p = .embryo ∧ ((k.table.proc p).killed ∨ k.callsKill p l)) :
    Births k'.table (Kernel.recordPast g k l k') where
  unused p hp := by
    obtain ⟨h1, h2⟩ := hu p hp
    refine ⟨h1, ?_⟩
    rcases h2 with h0 | hm | ⟨hs, hpid⟩
    · exact .inl h0
    · right; simp [Kernel.recordPast, Kernel.Takes, hm, hp]
    · rw [hpid]
      refine (h.unused p hs).2.imp id (fun hf => ?_)
      simp [Kernel.recordPast, Kernel.Takes, hp, hf]
  embryo p hp hx := by
    obtain ⟨hs, hk⟩ := he p hp hx
    have hor : g.called p ∨ k.callsKill p l := hk.imp (h.embryo p hs) id
    simpa [Kernel.recordPast, Kernel.Takes, hs] using hor

theorem keeps (h : Births k.table g) (hk : Keeps k.table k'.table) :
    Births k'.table (Kernel.recordPast g k l k') := by
  refine h.record (fun p hp => ?_) (fun p hp hx => ?_)
  · have hs := (hk.unused p).mp hp
    exact ⟨(hk.killed p).trans (h.unused p hs).1, .inr (.inr ⟨hs, hk.pid p⟩)⟩
  · exact ⟨hk.embryo p hp, .inl (hk.killed p ▸ hx)⟩

theorem alloc (h : Births k.table g) {np : Slot} (ha : k.table.allocproc = some (k'.table, np)) :
    Births k'.table (Kernel.recordPast g k l k') := by
  obtain ⟨hnp, hu⟩ := Kernel.allocproc_eq ha
  refine h.record (fun p hp => ?_) (fun p hp hx => ?_) <;> by_cases e : p = np
  · subst e; simp [st, hu] at hp
  · have hs : k.table.st p = .unused := by simpa [st, hu, e] using hp
    simp [hu, e, hs, (h.unused p hs).1]
  · subst e
    have hk := (h.unused p hnp).1
    simp [hu, hk] at hx
  · exact ⟨by simpa [st, hu, e] using hp, by simp [hu, e] at hx; exact .inl hx⟩

theorem free (h : Births k.table g) {np : Slot} (hu : k'.table = k.table.freeEmbryo np)
    (hs : k.table.st np = .embryo) (hk : (k.table.proc np).killed = false) :
    Births k'.table (Kernel.recordPast g k l k') := by
  refine h.record (fun p hp => ?_) (fun p hp hx => ?_) <;> by_cases e : p = np
  · subst e
    simp [hu, freeEmbryo, hs, hk]
  · have hs : k.table.st p = .unused := by simpa [st, hu, freeEmbryo, e] using hp
    simp [hu, freeEmbryo, e, hs, (h.unused p hs).1]
  · subst e; simp [st, hu, freeEmbryo] at hp
  · exact ⟨by simpa [st, hu, freeEmbryo, e] using hp, by simp [hu, freeEmbryo, e] at hx; exact .inl hx⟩

theorem reap (h : Births k.table g) {q : Slot} {u : Table} (hk : Keeps k.table u) (hu : k'.table = u.reap q) :
    Births k'.table (Kernel.recordPast g k l k') := by
  refine h.record (fun p hp => ?_) (fun p hp hx => ?_) <;> by_cases e : p = q
  · subst e; simp [hu, Table.reap]
  · have hs : k.table.st p = .unused := (hk.unused p).mp (by simpa [st, hu, Table.reap, e] using hp)
    simp [hu, Table.reap, e, hs, hk.pid, hk.killed, (h.unused p hs).1]
  · subst e; simp [st, hu, Table.reap] at hp
  · refine ⟨hk.embryo p (by simpa [st, hu, Table.reap, e] using hp), .inl ?_⟩
    simpa [hu, Table.reap, e, hk.killed] using hx

theorem mark (h : Births k.table g) {q : Slot}
    (hk : Keeps (k.table.setProc q (fun r => { r with killed := true })) k'.table)
    (hq : k.table.st q ≠ .unused) (hc : k.table.st q = .embryo → k.callsKill q l) :
    Births k'.table (Kernel.recordPast g k l k') := by
  have hst : (k.table.setProc q (fun r => { r with killed := true })).st = k.table.st := by
    rw [st_setProc]
    exact Function.update_eq_self q k.table.st
  refine h.record (fun p hp => ?_) (fun p hp hx => ?_) <;> by_cases e : p = q
  · subst e
    exact absurd (hst ▸ (hk.unused p).mp hp) hq
  · have hs : k.table.st p = .unused := hst ▸ (hk.unused p).mp hp
    simp [hk.killed, hk.pid, e, hs, (h.unused p hs).1]
  · subst e
    have hs : k.table.st p = .embryo := hst ▸ hk.embryo p hp
    exact ⟨hs, .inr (hc hs)⟩
  · exact ⟨hst ▸ hk.embryo p hp, .inl (by simpa [hk.killed, e] using hx)⟩

theorem start : Births {} {} := ⟨fun _ _ => ⟨rfl, .inl rfl⟩, fun _ hp => by cases hp⟩

theorem step {b : Build} {s s' : Kernel n × Past} (h : Births s.1.table s.2) (hi : s.1.Inv) (hc : Spares s l)
    (hs : (pastMachine b n).next s l = some s') : Births s'.1.table s'.2 := by
  obtain ⟨hn, hg⟩ := history_next hs
  rw [hg]
  have he := hi.effect hn
  generalize hu : s'.1.table = u at he
  have hrec : ∀ t, t = u → Births t (Kernel.recordPast s.2 s.1 l s'.1) →
      Births u (Kernel.recordPast s.2 s.1 l s'.1) := fun _ e => e ▸ id
  refine hrec s'.1.table hu ?_
  cases he with
  | keeps hk => exact h.keeps (hu ▸ hk)
  | alloc hl ha => exact h.alloc (hu ▸ ha)
  | @free _ np p c hl hp hm =>
    refine h.free hu (hi.live.embryo _ _ hm) ?_
    rcases hl with rfl | rfl <;> exact hc p np hp.2 hm
  | reap hk hq => exact h.reap hk hu
  | @kill c pid _ p hp hk =>
    refine h.mark (hu ▸ hk) (fun hn => ?_) (fun _ => by simpa [Kernel.callsKill] using hp)
    rcases (h.unused p hn).2 with h0 | hf
    · exact hc.1 (hp.symm.trans h0)
    · exact hc.2 p hf hp
  | @fault c p hp =>
    have hr := hi.live.running_of hp.2 (by simp [hp.1])
    refine h.mark (q := p) ?_ (by simp [hr]) (by simp [hr])
    rw [hu]
    exact .refl _

end Births

theorem reachable_births {b : Build} {s : Kernel n × Past} (h : (pastMachine b n).ReachableWhere Spares s) :
    s.1.Inv ∧ Births s.1.table s.2 := by
  refine h.invariant (P := fun s => s.1.Inv ∧ Births s.1.table s.2) (fun s hs => ?_) (fun s l t _ hp hc hn => ?_)
  · obtain ⟨h1, h2⟩ := hs
    rw [h1, h2]
    exact ⟨.start, .start⟩
  · exact ⟨hp.1.step (history_next hn).1, hp.2.step hp.1 hc hn⟩

theorem kill_found {b : Build} {t : Table} {pid : ℤ} (h : (t.kill b pid).2 = 0) : ∃ p, (t.proc p).pid = pid := by
  rcases kill_eq b t pid with ⟨he, -⟩ | ⟨p, hp, -⟩
  · rw [he] at h; cases h
  · exact ⟨p, hp⟩

theorem Kernel.Effect.killed {k : Kernel n} {l : Label n} {u : Table} (he : k.Effect l u) (hi : k.Inv) {p : Slot}
    (hp : k.table.st p = .embryo) (hk : (u.proc p).killed) : (k.table.proc p).killed ∨ k.callsKill p l := by
  cases he with
  | keeps h => exact .inl (h.killed p ▸ hk)
  | alloc hl ha =>
    rw [(allocproc_eq ha).2, setProc_proc] at hk
    split_ifs at hk with e
    · exact .inl (e ▸ hk)
    · exact .inl hk
  | free hl hq hm =>
    rw [freeEmbryo, setProc_proc] at hk
    split_ifs at hk with e
    · exact .inl (e ▸ hk)
    · exact .inl hk
  | reap h hq =>
    rw [Table.reap, setProc_proc] at hk
    split_ifs at hk
    exact .inl (h.killed p ▸ hk)
  | kill hq h =>
    rw [h.killed, setProc_proc] at hk
    split_ifs at hk with e
    · exact .inr (by simpa [callsKill, e] using hq)
    · exact .inl hk
  | fault hq =>
    rw [setProc_proc] at hk
    split_ifs at hk with e
    · subst e
      have hr := hi.live.running_of hq.2 (by simp [hq.1])
      rw [hp] at hr
      cases hr
    · exact .inl hk

theorem killsOwn_of_spares (b : Build) (s s' : Kernel n × Past) (l : Label n)
    (h : (pastMachine b n).ReachableWhere Spares s) (hc : Spares s l)
    (hs : (pastMachine b n).next s l = some s') : KillsOwn b s l s' := by
  obtain ⟨hi, hb⟩ := reachable_births h
  constructor
  · rintro c pid rfl hk
    obtain ⟨p, hp⟩ := kill_found hk
    refine ⟨p, fun hn => ?_, hp⟩
    rcases (hb.unused p hn).2 with h0 | hf
    · exact hc.1 (hp.symm.trans h0)
    · exact hc.2 p hf hp
  · intro p he hr hk
    obtain ⟨hn, hg⟩ := history_next hs
    have hor := (hi.effect hn).killed hi he hk |>.imp (hb.embryo p he) id
    rw [hg]
    simpa [Kernel.recordPast, Kernel.Takes, he] using hor

theorem killsOwn_of_spares_embryo :
    ∃ s s', KillsOwn (n := 1) .rr s (.forkDone 0) s' ∧ s'.2.called 2 ∧ (s'.1.table.proc 2).killed := by
  have hrun : ((pastMachine .rr 1).runWhere Spares (Kernel.start 1, {})
      (boot ++ fork ++ [.forkAlloc 0, .timer 0, .trapTail 0, .back 0, .resume 0, .kill 0 3, .timer 0, .trapTail 0,
        .back 0, .schedule 0, .resume 0, .forkKalloc 0 true, .forkCopyuvm 0 true])).any
      (fun s => ((pastMachine .rr 1).next s (.forkDone 0)).any
        (fun s' => s'.2.called 2 && (s'.1.table.proc 2).killed)) := by decide +kernel
  obtain ⟨s, hr, hp⟩ := exists_reachableWhere (pastMachine_initial .rr) hrun
  cases hn : (pastMachine .rr 1).next s (.forkDone 0) with
  | none => simp [hn] at hp
  | some s' =>
    simp only [hn, Option.any_some, Bool.and_eq_true] at hp
    exact ⟨s, s', killsOwn_of_spares .rr s s' _ hr trivial hn, hp⟩

theorem kill_zero_marks_next_child :
    (∃ s s', (pastMachine .rr 1).Reachable s ∧ (pastMachine .rr 1).next s (.kill 0 0) = some s' ∧
      ¬ KillsOwn .rr s (.kill 0 0) s') ∧
    ∃ s s', (pastMachine .rr 1).Reachable s ∧ (pastMachine .rr 1).next s (.forkDone 0) = some s' ∧
      ¬ KillsOwn .rr s (.forkDone 0) s' := by
  constructor
  · have hrun : ((pastMachine .rr 1).run (Kernel.start 1, {}) boot).any (fun s =>
        ((pastMachine .rr 1).next s (.kill 0 0)).isSome && decide ((s.1.table.kill .rr 0).2 = 0) &&
          decide (∀ p, s.1.table.st p ≠ .unused → (s.1.table.proc p).pid ≠ 0)) := by decide +kernel
    obtain ⟨s, hr, hp⟩ := exists_reachable (pastMachine_initial .rr) hrun
    simp only [Bool.and_eq_true, decide_eq_true_eq] at hp
    obtain ⟨⟨hn, hk⟩, hz⟩ := hp
    obtain ⟨s', hs'⟩ := Option.isSome_iff_exists.mp hn
    refine ⟨s, s', hr, hs', fun h => ?_⟩
    obtain ⟨p, hu, hpid⟩ := h.1 0 0 rfl hk
    exact hz p hu hpid
  · have hrun : ((pastMachine .rr 1).run (Kernel.start 1, {})
        (boot ++ [.kill 0 0, .forkAlloc 0, .forkKalloc 0 true, .forkCopyuvm 0 true])).any (fun s =>
          ((pastMachine .rr 1).next s (.forkDone 0)).any (fun s' =>
            s.1.table.st 1 = .embryo && s'.1.table.st 1 = .runnable && (s'.1.table.proc 1).killed &&
              !s'.2.called 1)) := by decide +kernel
    obtain ⟨s, hr, hp⟩ := exists_reachable (pastMachine_initial .rr) hrun
    cases hn : (pastMachine .rr 1).next s (.forkDone 0) with
    | none => simp [hn] at hp
    | some s' =>
      simp only [hn, Option.any_some, Bool.and_eq_true, decide_eq_true_eq, Bool.not_eq_true'] at hp
      obtain ⟨⟨⟨he, hb⟩, hk⟩, hc⟩ := hp
      exact ⟨s, s', hr, hn, fun h => by simpa [hc] using h.2 1 he hb hk⟩

end EnhancedXv6.Threads
