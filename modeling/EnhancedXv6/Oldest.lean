import EnhancedXv6.Bypass
import EnhancedXv6.WaitTimes

namespace EnhancedXv6.Threads

open ProcTable Table Scheduler Transition Machine

variable {n : ℕ}

theorem creationTime_of_times {r r' : Proc} (h : r'.times = r.times) : r'.creationTime = r.creationTime :=
  congrArg Prod.fst h

namespace Kernel

theorem Inv.creationTime {b : Build} {k k' : Kernel n} {l : Label n} (h : k.Inv) (hs : k.step b l = some k') {p : Slot}
    (hp : k.table.st p ≠ .embryo) : (k'.table.proc p).creationTime = (k.table.proc p).creationTime := by
  have hw := h.writes (π := Proc.times) hs
  generalize k'.table = u at hw ⊢
  cases hw with
  | frame hl hf => exact creationTime_of_times (hf.proc p)
  | alloc hl ha => exact allocproc_proc ha (fun _ _ => rfl) p
  | @init _ _ np hin he hu ht =>
    have hne : p ≠ np := by
      rintro rfl
      exact hp he
    rw [hu]
    simp [allocprocTail, initializeNewFields, hne]
  | @exit c q v hq hr hf hwk =>
    rw [setProc_proc, ← creationTime_of_times (hf.proc p)]
    split_ifs with e
    · rw [e]
    · rfl
  | @reap _ v q hl hf hq =>
    rw [Table.reap, setProc_proc, ← creationTime_of_times (hf.proc p)]
    split_ifs with e
    · rw [e]
    · rfl
  | tick hc => exact (tickProc_times b (k.table.proc p)).1
  | setPriority => exact creationTime_of_times ((setPriority_times k.table _ _).proc p)

variable {k k' : Kernel 1} {l : Label 1} {p q : Slot}

theorem arrow_of_yield {a : Arrow} (hs : a.source = .running) (ht : a.target = .runnable) : a = .yield := by
  cases a <;> simp [Arrow.source, Arrow.target] at hs ht ⊢

theorem Inv.fcfs_dispatch (h : k.Inv) (hs : k.step .fcfs l = some k') (hp : k.table.st p = .runnable)
    (hp' : k'.table.st p = .running) : (k.cpu 0).ctl = .idle ∧ pickFCFS k.table = some p := by
  have ha := dispatch_mem (h.moves hs) hp hp'
  cases step_cases hs with
  | idle =>
    have hsame : k.table.st p = .running := hp'
    rw [hp] at hsame
    cases hsame
  | @run _ c r _ hr =>
    obtain rfl : c = 0 := Subsingleton.elim c 0
    cases hr with
    | schedule hl hc hr =>
      refine ⟨hc, ?_⟩
      rw [runOn_st] at hp'
      by_cases e : p = r
      · rw [e]
        exact hr
      · rw [Function.update_of_ne e] at hp'
        exact absurd (hp.symm.trans hp') (by decide)
    | back hb => cases hb
  | back =>
    have hsame : k.table.st p = .running := hp'
    rw [hp] at hsame
    cases hsame
  | reap ht | waitFail ht | waitSleep ht => simp [ht.arrows] at ha
  | _ => simp [Label.arrows] at ha

def Undemoting (k : Kernel n) : Prop := ∀ c, (k.cpu c).ctl ≠ .demote

theorem Undemoting.step {k k' : Kernel n} {l : Label n} (h : k.Undemoting) (hs : k.step .fcfs l = some k') : k'.Undemoting := by
  intro d
  rcases enters_step hs d with e | e
  · rw [e]
    exact h d
  · intro hd
    rw [hd] at e
    cases l <;> simp [Label.enters] at e

theorem Inv.fcfs_keeps (h : k.Inv) (hd : k.Undemoting) (hs : k.step .fcfs l = some k') (hp : k.table.st p = .running) :
    k'.table.st p ≠ .runnable := by
  intro hp'
  obtain ⟨a, ha, hsrc, htgt⟩ := h.moves hs p (by simp [hp, hp'])
  rw [arrow_of_yield (hsrc.symm.trans hp) (htgt.symm.trans hp')] at ha
  cases step_cases hs with
  | trapUser =>
    have hsame : k.table.st p = .runnable := hp'
    rw [hp] at hsame
    cases hsame
  | trapYield hl hq hb => simp at hb
  | trapDemote hl hq hb => cases hb
  | @demoteYield c _ hl hq => exact hd c hq.1
  | reap ht | waitFail ht | waitSleep ht => simp [ht.arrows] at ha
  | run hr => simp [hr.arrows] at ha
  | _ => simp [Label.arrows] at ha

theorem Inv.fcfs_dispatch_oldest (h : k.Inv) (hs : k.step .fcfs l = some k') (hp : k.table.st p = .runnable)
    (hp' : k'.table.st p = .running) (hq : k.table.st q = .runnable) :
    (k.table.proc p).creationTime ≤ (k.table.proc q).creationTime := by
  obtain ⟨-, hpick⟩ := h.fcfs_dispatch hs hp hp'
  rcases pickFCFS_oldest hpick hq with hlt | ⟨heq, -⟩
  · exact hlt.le
  · exact heq.le

theorem Inv.fcfs_not_dispatched (h : k.Inv) (hs : k.step .fcfs l = some k')
    (hp : k.table.st p = .running ∨ k.table.st p = .runnable) (hq : k.table.st q = .runnable)
    (hlt : (k.table.proc p).creationTime < (k.table.proc q).creationTime) : k'.table.st q ≠ .running := by
  intro hq'
  rcases hp with hp | hp
  · obtain ⟨c, hc⟩ := h.live.running p hp
    obtain rfl : c = 0 := Subsingleton.elim c 0
    rw [h.live.proc_none (h.fcfs_dispatch hs hq hq').1] at hc
    cases hc
  · exact absurd (h.fcfs_dispatch_oldest hs hq hq' hp) (not_le.mpr hlt)

theorem Inv.fcfs_unslept (h : k.Inv) (hd : k.Undemoting) (hs : k.step .fcfs l = some k') (hu : k'.table.st p ≠ .unused)
    (hsl : k'.table.st p ≠ .sleeping) (hp : k.table.st p = .running ∨ k.table.st p = .zombie) :
    k'.table.st p = .running ∨ k'.table.st p = .zombie := by
  rcases hp with e | e
  · rcases h.running_step hs e with e' | e' | e' | e'
    · exact .inl e'
    · exact absurd e' (h.fcfs_keeps hd hs e)
    · exact absurd e' hsl
    · exact .inr e'
  · rcases h.zombie_step hs e with e' | e'
    · exact .inr e'
    · exact absurd e' hu

structure Ahead (p q : Slot) (k : Kernel n) : Prop where
  active : k.table.st p = .running ∨ k.table.st p = .runnable
  ready : k.table.st q = .runnable
  older : (k.table.proc p).creationTime < (k.table.proc q).creationTime

theorem Ahead.step (ha : Ahead p q k) (h : k.Inv) (hs : k.step .fcfs l = some k') (hsl : k'.table.st p ≠ .sleeping)
    (hz : k'.table.st p ≠ .zombie) : Ahead p q k' where
  active := by
    rcases ha.active with hp | hp
    · rcases h.running_step hs hp with e | e | e | e
      · exact .inl e
      · exact .inr e
      · exact absurd e hsl
      · exact absurd e hz
    · exact (h.ready_step hs hp).symm
  ready := by
    rcases h.ready_step hs ha.ready with e | e
    · exact e
    · exact absurd e (h.fcfs_not_dispatched hs ha.active ha.ready ha.older)
  older := by
    have hp : k.table.st p ≠ .embryo := by
      rcases ha.active with e | e <;> rw [e] <;> decide
    have hq : k.table.st q ≠ .embryo := by
      rw [ha.ready]
      decide
    rw [h.creationTime hs hp, h.creationTime hs hq]
    exact ha.older

end Kernel

open Kernel

theorem reachable_undemoting {k : Kernel n} (h : (machine .fcfs n).Reachable k) : k.Undemoting := by
  refine ReachableWhere.invariant h ?_ (fun k l k' _ hk _ hs => hk.step hs)
  rintro k rfl c
  rw [Kernel.start]
  dsimp only
  split_ifs <;> simp

theorem fcfs_oldest_first (k : Kernel 1) (hk : (machine .fcfs 1).Reachable k) (p : Slot) :
    (∀ t ts, (machine .fcfs 1).Trace (fun _ _ => True) k (t :: ts) → k.table.st p = .running → t.table.st p = .runnable →
      (∀ u ∈ t :: ts, u.table.st p ≠ .unused) → ∃ u ∈ t :: ts, u.table.st p = .sleeping) ∧
    (∀ l k', k.step .fcfs l = some k' → k.table.st p = .runnable → k'.table.st p = .running →
      ∀ q, k.table.st q = .runnable → (k.table.proc p).creationTime ≤ (k.table.proc q).creationTime) ∧
    (∀ q t ts l t', k.table.st p = .runnable → k.table.st q = .runnable →
      (k.table.proc p).creationTime < (k.table.proc q).creationTime →
      (machine .fcfs 1).Trace (fun _ _ => True) k (t :: ts) → (∀ u ∈ t :: ts, u.table.st p ≠ .sleeping) →
      t.step .fcfs l = some t' → t.table.st q = .runnable → t'.table.st q = .running →
      ∃ u ∈ t :: ts, u.table.st p = .zombie) := by
  refine ⟨?_, ?_, ?_⟩
  · intro t ts ht hp hp' hu
    by_contra hall
    push Not at hall
    obtain ⟨-, h⟩ := ht.invariant (I := fun u => u.table.st p ≠ .unused ∧ u.table.st p ≠ .sleeping)
      (P := fun u => (machine .fcfs 1).Reachable u ∧ (u.table.st p = .running ∨ u.table.st p = .zombie))
      (fun u hx => ⟨hu u hx, hall u hx⟩) ⟨hk, .inl hp⟩
      (fun t l u _ hI hP _ hs => ⟨hP.1.next hs,
        (reachable_inv hP.1).fcfs_unslept (reachable_undemoting hP.1) hs hI.1 hI.2 hP.2⟩)
    rcases h with e | e <;> rw [e] at hp' <;> cases hp'
  · intro l k' hs hp hp' q hq
    exact (reachable_inv hk).fcfs_dispatch_oldest hs hp hp' hq
  · intro q t ts l t' hp hq hlt ht hsl hs hq' hrun
    by_contra hall
    push Not at hall
    obtain ⟨hr, ha⟩ := ht.invariant (I := fun u => u.table.st p ≠ .sleeping ∧ u.table.st p ≠ .zombie)
      (P := fun u => (machine .fcfs 1).Reachable u ∧ Ahead p q u)
      (fun u hx => ⟨hsl u hx, hall u hx⟩) ⟨hk, .inr hp, hq, hlt⟩
      (fun t l u _ hI hP _ hs => ⟨hP.1.next hs, hP.2.step (reachable_inv hP.1) hs hI.1 hI.2⟩)
    exact (reachable_inv hr).fcfs_not_dispatched hs ha.active ha.ready ha.older hrun

theorem fcfs_oldest_first_children : ∃ k t t' ts, (machine .fcfs 1).Reachable k ∧ k.table.st 1 = .runnable ∧
    k.table.st 2 = .runnable ∧ (k.table.proc 1).creationTime < (k.table.proc 2).creationTime ∧
    (machine .fcfs 1).Trace (fun _ _ => True) k (t :: ts) ∧ t.step .fcfs (.schedule 0) = some t' ∧
    t.table.st 2 = .runnable ∧ t'.table.st 2 = .running ∧ ∃ u ∈ t :: ts, u.table.st 1 = .zombie := by
  obtain ⟨k, hk, hP⟩ := exists_reachable (M := machine .fcfs 1) (s := start 1)
    (w := boot ++ fork ++ [.timer 0, .trapTail 0] ++ fork ++ [.wait 0 .wait, .back 0])
    (P := fun k => (k.table.st 1 = .runnable ∧ k.table.st 2 = .runnable ∧
        (k.table.proc 1).creationTime < (k.table.proc 2).creationTime : Bool) &&
      ((machine .fcfs 1).visit (fun _ _ => True) [k] [.schedule 0, .resume 0, .exit 0, .back 0, .schedule 0, .resume 0,
        .wait 0 .wait, .back 0]).any (fun ts => ts.all (fun u => u.table.st 1 ≠ .sleeping) &&
          ts.head?.any (fun t => t.table.st 2 = .runnable &&
            (t.step .fcfs (.schedule 0)).any (fun t' => t'.table.st 2 = .running))))
    rfl (by decide +kernel)
  rw [Bool.and_eq_true, decide_eq_true_eq] at hP
  obtain ⟨⟨h1, h2, hlt⟩, hvisit⟩ := hP
  obtain ⟨us, ht, hus⟩ := (Option.any_eq_true _ _).mp hvisit
  rw [Bool.and_eq_true] at hus
  obtain ⟨hsl, hhead⟩ := hus
  obtain ⟨t, hh, hlast⟩ := (Option.any_eq_true _ _).mp hhead
  obtain ⟨ts, rfl⟩ := List.head?_eq_some_iff.mp hh
  rw [Bool.and_eq_true, decide_eq_true_eq] at hlast
  obtain ⟨hq, hnext⟩ := hlast
  obtain ⟨t', hs, hq'⟩ := (Option.any_eq_true _ _).mp hnext
  have htr : (machine .fcfs 1).Trace (fun _ _ => True) k (t :: ts) := Trace.visit .start ht
  exact ⟨k, t, t', ts, hk, h1, h2, hlt, htr, hs, hq, of_decide_eq_true hq', (fcfs_oldest_first k hk 1).2.2 2 t ts _ t' h1 h2 hlt htr
    (by simpa using hsl) hs hq (of_decide_eq_true hq')⟩

end EnhancedXv6.Threads
