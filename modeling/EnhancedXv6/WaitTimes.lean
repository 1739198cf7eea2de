import EnhancedXv6.Writes

namespace EnhancedXv6.ProcTable

open Table

variable {t : Table} {p : Slot}

def Proc.times (r : Proc) : ℤ × ℤ × ℤ × ℤ := (r.creationTime, r.endTime, r.totRunTime, r.totSleepTime)

instance : IgnoresState Proc.times := by constructor <;> intros <;> rfl
instance : IgnoresFamily Proc.times := by constructor <;> intros <;> rfl
instance : IgnoresQueue Proc.times := by constructor <;> intros <;> rfl
instance : IgnoresCount Proc.times := ⟨fun _ _ => rfl⟩

theorem setPriority_times (t : Table) (v pid : ℤ) : Frame Proc.times t (t.setPriority v pid).1 :=
  .setPriority (fun _ _ => rfl) t v pid

structure Charges where
  run : ℕ := 0
  sleep : ℕ := 0
  idle : ℕ := 0
  lostRun : ℕ := 0
  lostSleep : ℕ := 0

def Proc.Skipped (r : Proc) : Prop := r.killed ∨ r.pid = 0

instance (r : Proc) : Decidable r.Skipped := inferInstanceAs (Decidable (_ ∨ _))

def Charges.tick (g : Charges) (r : Proc) : Charges :=
  match r.state with
  | .running => { g with run := g.run + 1, lostRun := if r.Skipped then g.lostRun + 1 else g.lostRun }
  | .sleeping => { g with sleep := g.sleep + 1, lostSleep := if r.Skipped then g.lostSleep + 1 else g.lostSleep }
  | .embryo => { g with idle := g.idle + 1 }
  | .runnable => { g with idle := g.idle + 1 }
  | .zombie => g
  | .unused => g

theorem Charges.tick_run (g : Charges) (r : Proc) : ((g.tick r).run - (g.tick r).lostRun : ℤ) =
    if r.state = .running ∧ ¬ r.Skipped then (g.run - g.lostRun : ℤ) + 1 else g.run - g.lostRun := by
  unfold tick
  cases hr : r.state <;> by_cases hk : r.Skipped <;> simp [hk] <;> omega

theorem Charges.tick_sleep (g : Charges) (r : Proc) : ((g.tick r).sleep - (g.tick r).lostSleep : ℤ) =
    if r.state = .sleeping ∧ ¬ r.Skipped then (g.sleep - g.lostSleep : ℤ) + 1 else g.sleep - g.lostSleep := by
  unfold tick
  cases hr : r.state <;> by_cases hk : r.Skipped <;> simp [hk] <;> omega

theorem Charges.tick_total (g : Charges) {r : Proc} (hr : r.state ≠ .unused) :
    (g.tick r).run + (g.tick r).sleep + (g.tick r).idle =
      if r.state = .zombie then g.run + g.sleep + g.idle else g.run + g.sleep + g.idle + 1 := by
  unfold tick
  cases h : r.state with
  | unused => exact absurd h hr
  | _ => simp <;> omega

theorem tickProc_times (b : Build) (r : Proc) :
    (tickProc b r).creationTime = r.creationTime ∧ (tickProc b r).endTime = r.endTime ∧
      (tickProc b r).totRunTime = (if r.state = .running ∧ ¬ r.Skipped then i32 (r.totRunTime + 1) else r.totRunTime) ∧
      (tickProc b r).totSleepTime = if r.state = .sleeping ∧ ¬ r.Skipped then i32 (r.totSleepTime + 1) else r.totSleepTime := by
  unfold tickProc
  by_cases hs : r.killed = true ∨ r.pid = 0
  · rw [if_pos hs]
    simp [Proc.Skipped, hs]
  · rw [if_neg hs]
    cases hr : r.state <;> cases b <;> simp [Proc.Skipped, hs]

structure Accounted (t : Table) (p : Slot) (g : Charges) : Prop where
  run : (t.proc p).totRunTime = i32 (g.run - g.lostRun)
  sleep : (t.proc p).totSleepTime = i32 (g.sleep - g.lostSleep)
  total : i32 ((if t.st p = .zombie then (t.proc p).endTime else t.ticks) - (t.proc p).creationTime) =
    i32 (g.run + g.sleep + g.idle)

structure Tally (b : Build) (K : Table → Prop) (A : Table → Slot → Charges → Prop) : Prop where
  congr : ∀ {t u : Table} {p : Slot} {g : Charges}, A t p g → u.ticks = t.ticks →
    (u.proc p).times = (t.proc p).times → (u.st p = .zombie ↔ t.st p = .zombie) → A u p g
  tick : ∀ {t : Table} {p : Slot} {g : Charges}, K t → K (t.tick b) → A t p g → t.st p ≠ .unused →
    A (t.tick b) p (g.tick (t.proc p))
  exit : ∀ {t u : Table} {p : Slot} {g : Charges}, K t → A t p g → Frame Proc.times t u → t.st p ≠ .zombie →
    A (u.setProc p (fun r => { r with state := .zombie, endTime := i32 u.ticks })) p g
  init : ∀ {t : Table} {p : Slot}, K t → t.st p = .embryo → A (t.allocprocTail b p) p {}

namespace Accounted

variable {t u : Table} {p : Slot} {g : Charges}

theorem congr (h : Accounted t p g) (ht : u.ticks = t.ticks) (hp : (u.proc p).times = (t.proc p).times)
    (hz : u.st p = .zombie ↔ t.st p = .zombie) : Accounted u p g := by
  simp only [Proc.times, Prod.mk.injEq] at hp
  obtain ⟨hc, he, hr, hs⟩ := hp
  refine ⟨by rw [hr]; exact h.run, by rw [hs]; exact h.sleep, ?_⟩
  rw [hc, he, ht, ← h.total]
  congr 2
  exact if_congr hz rfl rfl

theorem tick (h : Accounted t p g) (b : Build) (hu : t.st p ≠ .unused) :
    Accounted (t.tick b) p (g.tick (t.proc p)) := by
  have hproc : (t.tick b).proc p = tickProc b (t.proc p) := rfl
  have hticks : (t.tick b).ticks = (t.ticks + 1) % 2 ^ 32 := rfl
  have hst : (t.tick b).st p = t.st p := (tickProc_keeps b (t.proc p)).1
  obtain ⟨hc, he, hrun, hsleep⟩ := tickProc_times b (t.proc p)
  obtain ⟨hr, hs, hn⟩ := h
  refine ⟨?_, ?_, ?_⟩
  · rw [hproc, hrun, hr, g.tick_run]
    split_ifs
    · exact i32_succ _
    · rfl
  · rw [hproc, hsleep, hs, g.tick_sleep]
    split_ifs
    · exact i32_succ _
    · rfl
  · have htotal := g.tick_total hu
    change _ = if t.st p = .zombie then _ else _ at htotal
    rw [i32_eq_i32_iff] at hn
    rw [hst, hproc, hc, he, hticks, i32_eq_i32_iff]
    by_cases hz : t.st p = .zombie
    · rw [if_pos hz] at hn htotal ⊢
      omega
    · rw [if_neg hz] at hn htotal ⊢
      omega

theorem exit (h : Accounted t p g) (hf : Frame Proc.times t u) (hr : t.st p ≠ .zombie) :
    Accounted (u.setProc p (fun r => { r with state := .zombie, endTime := i32 u.ticks })) p g := by
  have hp := hf.proc p
  simp only [Proc.times, Prod.mk.injEq] at hp
  obtain ⟨hc, -, hrun, hs⟩ := hp
  have ht := h.total
  rw [if_neg hr, i32_eq_i32_iff] at ht
  refine ⟨?_, ?_, ?_⟩
  · rw [setProc_self, ← h.run, ← hrun]
  · rw [setProc_self, ← h.sleep, ← hs]
  · have hend := i32_emod t.ticks
    rw [if_pos (by simp [st]), setProc_self, i32_eq_i32_iff, hf.ticks]
    change (i32 t.ticks - (u.proc p).creationTime) % 2 ^ 32 = _
    omega

theorem init (b : Build) (he : t.st p = .embryo) : Accounted (t.allocprocTail b p) p {} := by
  have hst : (t.allocprocTail b p).st p = .embryo := by rw [allocprocTail_st, he]
  have hticks : (t.allocprocTail b p).ticks = t.ticks := rfl
  have hborn : ((t.allocprocTail b p).proc p).creationTime = i32 t.ticks := by
    cases b <;> simp [allocprocTail, initializeNewFields]
  refine ⟨?_, ?_, ?_⟩
  · cases b <;> simp [allocprocTail, initializeNewFields] <;> rfl
  · cases b <;> simp [allocprocTail, initializeNewFields] <;> rfl
  · have hend := i32_emod t.ticks
    rw [if_neg (by simp [hst]), hticks, hborn, i32_eq_i32_iff]
    change _ = (0 + 0 + 0 : ℤ) % 2 ^ 32
    omega

theorem tally (b : Build) : Tally b (fun _ => True) Accounted where
  congr := congr
  tick _ _ h := h.tick b
  exit _ := exit
  init _ := init b

theorem waitxTimes_eq (h : Accounted t p g) (hz : t.st p = .zombie) :
    t.waitxTimes p = (i32 (g.run - g.lostRun), i32 (g.idle + g.lostRun + g.lostSleep)) := by
  have hr := i32_emod (g.run - g.lostRun)
  have hs := i32_emod (g.sleep - g.lostSleep)
  have ht := h.total
  rw [if_pos hz, i32_eq_i32_iff] at ht
  rw [waitxTimes, h.run, h.sleep, Prod.mk.injEq]
  refine ⟨rfl, i32_eq_i32_iff.mpr ?_⟩
  omega

end Accounted

def Table.zombieChild (t : Table) (p : Slot) : Option Slot :=
  match t.waitScan p with
  | .reap q => some q
  | _ => none

theorem zombieChild_st {q : Slot} (h : t.zombieChild p = some q) : t.st q = .zombie := by
  unfold zombieChild at h
  split at h
  · rename_i r hr
    cases h
    exact (Threads.Kernel.waitScan_reap hr).2
  · cases h

end EnhancedXv6.ProcTable

namespace EnhancedXv6.Threads

open ProcTable Table Scheduler Transition

variable {n : ℕ} {l : Label n} {b : Build} {s : Kernel n × (Slot → Charges)}

def recordTicks (g : Slot → Charges) (k : Kernel n) (l : Label n) (_ : Kernel n) : Slot → Charges := fun p =>
  if k.initialises l = some p then {}
  else
    match l with
    | .timer c => if c.val = 0 then (g p).tick (k.table.proc p) else g p
    | _ => g p

def tickMachine (b : Build) (n : ℕ) : Machine (Kernel n × (Slot → Charges)) (Label n) :=
  (machine b n).history (fun _ => {}) recordTicks

def Charged (q : Slot) (s : Kernel n × (Slot → Charges)) (l : Label n) : Prop :=
  ∀ c, l = .timer c → c.val = 0 → s.1.table.st q = .running ∨ s.1.table.st q = .sleeping →
    ¬ (s.1.table.proc q).Skipped

instance (q : Slot) (s : Kernel n × (Slot → Charges)) (l : Label n) : Decidable (Charged q s l) :=
  inferInstanceAs (Decidable (∀ _, _))

theorem recordTicks_of_quiet {g : Slot → Charges} {k k' : Kernel n} (h : l.quiet) :
    recordTicks g k l k' = g := by
  funext p
  unfold recordTicks
  rw [Kernel.initialises_of_quiet h, if_neg (by simp)]
  cases l with
  | timer c => exact if_neg (of_decide_eq_true h)
  | _ => rfl

theorem recordTicks_of_initialises {g : Slot → Charges} {k k' : Kernel n} {np : Slot}
    (h : k.initialises l = some np) (p : Slot) : recordTicks g k l k' p = if np = p then {} else g p := by
  unfold recordTicks
  rw [h]
  simp only [Option.some.injEq]
  cases l with
  | timer c => cases h
  | _ => rfl

def Tallied (A : Table → Slot → Charges → Prop) (s : Kernel n × (Slot → Charges)) : Prop :=
  ∀ p, s.1.table.st p ≠ .unused → ¬ s.1.Fresh p → A s.1.table p (s.2 p)

theorem Tallied.step {K : Table → Prop} {A : Table → Slot → Charges → Prop} {s' : Kernel n × (Slot → Charges)}
    (ht : Tally b K A) (h : Tallied A s) (hi : s.1.Inv) (hk : K s.1.table) (hk' : K s'.1.table)
    (hs : s.1.step b l = some s'.1) (hg : s'.2 = recordTicks s.2 s.1 l s'.1) : Tallied A s' := by
  intro p hu hf
  have hold := hi.initialised hs hu hf
  have hz : (∀ c, l ≠ .exit c) → (s'.1.table.st p = .zombie ↔ s.1.table.st p = .zombie) :=
    fun hl => hi.zombie_iff hs hl hu
  have hw := hi.writes (π := Proc.times) hs
  rw [hg]
  generalize s'.1.table = u at hu hz hw hk' ⊢
  have hsame : s.1.initialises l = none → u.ticks = s.1.table.ticks → (u.proc p).times = (s.1.table.proc p).times →
      (∀ c, l ≠ .exit c) → A u p (s.2 p) := by
    intro hn hticks htimes hl
    obtain ⟨hne, hnf⟩ := hold.resolve_left (by rw [hn]; simp)
    exact ht.congr (h p hne hnf) hticks htimes (hz hl)
  have hexit : l.quiet → ∀ c, l ≠ .exit c := by
    rintro hl c rfl
    cases hl
  cases hw with
  | frame hl hfr =>
    rw [recordTicks_of_quiet hl]
    exact hsame (Kernel.initialises_of_quiet hl) hfr.ticks (hfr.proc p) (hexit hl)
  | alloc hl ha =>
    rw [recordTicks_of_quiet hl]
    refine hsame (Kernel.initialises_of_quiet hl) ?_ (Kernel.allocproc_proc ha (fun _ _ => rfl) p) (hexit hl)
    rw [(Kernel.allocproc_eq ha).2]
    rfl
  | @init _ _ np hin he hp hticks =>
    rw [recordTicks_of_initialises hin]
    split_ifs with e
    · subst e
      exact ht.congr (ht.init hk he) hticks (by rw [hp]) (by rw [st, hp]; rfl)
    · obtain ⟨hne, hnf⟩ := hold.resolve_left (by rw [hin]; simpa using e)
      have hpe : u.proc p = s.1.table.proc p := by
        rw [hp]
        simp [allocprocTail, initializeNewFields, Ne.symm e]
      exact ht.congr (h p hne hnf) hticks (by rw [hpe]) (by rw [st, hpe]; rfl)
  | @exit c q v hq hr hfr hwk =>
    obtain ⟨hne, hnf⟩ := hold.resolve_left (by simp [Kernel.initialises])
    have ho := h p hne hnf
    change A _ p (s.2 p)
    by_cases e : p = q
    · subst e
      exact ht.exit hk ho hfr (by simp [hr])
    · have hst : v.st p = .zombie ↔ s.1.table.st p = .zombie := by
        rcases hwk.state p with e' | ⟨e', e''⟩
        · rw [st, e']
          rfl
        · rw [st, e'', st, e']
          simp
      refine ht.congr ho hfr.ticks ?_ ?_
      · rw [setProc_of_ne _ _ _ _ e]
        exact hfr.proc p
      · rw [← hst, st, setProc_of_ne _ _ _ _ e]
        rfl
  | @reap _ v q hl hfr hq =>
    rw [recordTicks_of_quiet hl]
    obtain ⟨hne, hnf⟩ := hold.resolve_left (by rw [Kernel.initialises_of_quiet hl]; simp)
    have e : p ≠ q := by
      rintro rfl
      exact hu (by rw [reap_st]; exact Function.update_self _ _ _)
    refine ht.congr (h p hne hnf) hfr.ticks ?_ (hz (hexit hl))
    rw [Table.reap, setProc_of_ne _ _ _ _ e]
    exact hfr.proc p
  | @tick c hc =>
    obtain ⟨hne, hnf⟩ := hold.resolve_left (by simp [Kernel.initialises])
    have hrec : recordTicks s.2 s.1 (.timer c) s'.1 p = (s.2 p).tick (s.1.table.proc p) := by
      simp [recordTicks, Kernel.initialises, hc]
    rw [hrec]
    exact ht.tick hk hk' (h p hne hnf) hne
  | setPriority => exact hsame rfl (setPriority_times _ _ _).ticks ((setPriority_times _ _ _).proc p) (by simp)

theorem reachable_tallied (h : (tickMachine b n).Reachable s) : Tallied Accounted s := by
  refine Machine.ReachableWhere.invariant h (P := Tallied Accounted) ?_ ?_
  · rintro ⟨k, g⟩ ⟨hk, -⟩ p hp
    obtain rfl : k = Kernel.start n := hk
    exact absurd rfl hp
  · intro s l s' hr ht _ hn
    obtain ⟨hs, hg⟩ := Machine.history_next hn
    exact ht.step (Accounted.tally b) (reachable_inv (Machine.history_reachable hr)) trivial trivial hs hg

theorem Charged.step {q : Slot} {s' : Kernel n × (Slot → Charges)} (hc : Charged q s l)
    (hg : s'.2 = recordTicks s.2 s.1 l s'.1) (h : (s.2 q).lostRun = 0 ∧ (s.2 q).lostSleep = 0) :
    (s'.2 q).lostRun = 0 ∧ (s'.2 q).lostSleep = 0 := by
  rw [hg]
  unfold recordTicks
  split_ifs
  · exact ⟨rfl, rfl⟩
  · split
    · rename_i c hq
      split_ifs with h0
      · have hskip := hc c rfl h0
        have hst : s.1.table.st q = (s.1.table.proc q).state := rfl
        rw [hst] at hskip
        cases hs : (s.1.table.proc q).state <;> simp [Charges.tick, hs, h] at hskip ⊢ <;> exact hskip
      · exact h
    · exact h

namespace Kernel

def waitxReaps (k : Kernel n) : Label n → Option Slot
  | .wait c .waitx => (k.procAt c .user).bind k.table.zombieChild
  | .resume c => (k.procAt c .swtchIn).bind (fun p =>
      if (k.table.proc p).context = .waitx then (k.table.wakeSleeper p).zombieChild p else none)
  | _ => none

theorem zombie_of_waitxReaps {k : Kernel n} {l : Label n} {q : Slot} (h : k.waitxReaps l = some q) :
    k.table.st q = .zombie := by
  unfold waitxReaps at h
  split at h
  · obtain ⟨p, -, hq⟩ := Option.bind_eq_some_iff.mp h
    exact zombieChild_st hq
  · obtain ⟨p, -, hq⟩ := Option.bind_eq_some_iff.mp h
    split_ifs at hq
    rw [← wakeSleeper_st k.table p]
    exact zombieChild_st hq
  · cases h

end Kernel

theorem waitxTimes_of_reaps (h : (tickMachine b n).Reachable s) {q : Slot} (hr : s.1.waitxReaps l = some q) :
    s.1.table.waitxTimes q = (i32 ((s.2 q).run - (s.2 q).lostRun),
      i32 ((s.2 q).idle + (s.2 q).lostRun + (s.2 q).lostSleep)) := by
  have hz := Kernel.zombie_of_waitxReaps hr
  have hi := reachable_inv (Machine.history_reachable h)
  exact (reachable_tallied h q (by simp [hz]) (hi.not_fresh (by simp [hz]))).waitxTimes_eq hz

theorem lost_of_charged {q : Slot} (h : (tickMachine b n).ReachableWhere (Charged q) s) :
    (s.2 q).lostRun = 0 ∧ (s.2 q).lostSleep = 0 := by
  refine Machine.ReachableWhere.invariant h (P := fun s => (s.2 q).lostRun = 0 ∧ (s.2 q).lostSleep = 0) ?_ ?_
  · rintro ⟨k, g⟩ ⟨-, hg⟩
    obtain rfl : g = fun _ => {} := hg
    exact ⟨rfl, rfl⟩
  · intro s l s' _ hs hc hn
    exact hc.step (Machine.history_next hn).2 hs

theorem waitx_reports_true_times (b : Build) (n : ℕ) (q : Slot) (s : Kernel n × (Slot → Charges))
    (h : (tickMachine b n).ReachableWhere (Charged q) s) (l : Label n) (hr : s.1.waitxReaps l = some q) :
    s.1.table.waitxTimes q = (↑(s.2 q).run, ↑(s.2 q).idle) ↔ (s.2 q).run < 2 ^ 31 ∧ (s.2 q).idle < 2 ^ 31 := by
  obtain ⟨hrun, hsleep⟩ := lost_of_charged h
  rw [waitxTimes_of_reaps h.reachable hr, hrun, hsleep, Int.natCast_zero, Int.sub_zero, Int.add_zero, Int.add_zero,
    Prod.mk.injEq, i32_eq_self_iff, i32_eq_self_iff]
  omega

theorem waitx_reports_true_times_child : ∃ s : Kernel 1 × (Slot → Charges),
    s.1.waitxReaps (.resume 0) = some 1 ∧ (s.2 1).run = 1 ∧ (s.2 1).idle = 1 ∧ s.1.table.waitxTimes 1 = (1, 1) := by
  obtain ⟨s, hs, hp⟩ := Machine.exists_reachableWhere (M := tickMachine .fcfs 1) (C := Charged 1)
    (s := (Kernel.start 1, fun _ => {}))
    (w := boot ++ fork ++ [.wait 0 .waitx, .back 0, .timer 0, .schedule 0, .resume 0, .timer 0, .trapTail 0, .exit 0,
      .back 0, .schedule 0])
    (P := fun s => decide (s.1.waitxReaps (.resume 0) = some 1 ∧ (s.2 1).run = 1 ∧ (s.2 1).idle = 1)) ⟨rfl, rfl⟩
    (by decide +kernel)
  obtain ⟨hr, hrun, hidle⟩ := of_decide_eq_true hp
  have ht := waitx_reports_true_times .fcfs 1 1 s hs (.resume 0) hr
  rw [hrun, hidle] at ht
  exact ⟨s, hr, hrun, hidle, ht.mpr (by decide)⟩

theorem waitx_misses_tick_of_killed : ∃ (s : Kernel 1 × (Slot → Charges)) (k' : Kernel 1),
    (tickMachine .fcfs 1).Reachable s ∧ s.1.step .fcfs (.resume 0) = some k' ∧ s.1.waitxReaps (.resume 0) = some 1 ∧
      ((s.2 1).run = 1 ∧ (s.2 1).idle = 0) ∧ s.1.table.waitxTimes 1 = (0, 1) := by
  obtain ⟨s, hs, hp⟩ := Machine.exists_reachable (M := tickMachine .fcfs 1) (s := (Kernel.start 1, fun _ => {}))
    (w := boot ++ fork ++ [.kill 0 2, .wait 0 .waitx, .back 0, .schedule 0, .resume 0, .timer 0, .exit 0, .back 0,
      .schedule 0])
    (P := fun s => (s.1.step .fcfs (.resume 0)).isSome && decide (s.1.waitxReaps (.resume 0) = some 1 ∧
      ((s.2 1).run = 1 ∧ (s.2 1).idle = 0) ∧ s.1.table.waitxTimes 1 = (0, 1))) ⟨rfl, rfl⟩ (by decide +kernel)
  rw [Bool.and_eq_true, decide_eq_true_eq] at hp
  obtain ⟨k', hk⟩ := Option.isSome_iff_exists.mp hp.1
  exact ⟨s, k', hs, hk, hp.2⟩

end EnhancedXv6.Threads
