import EnhancedXv6.Births
import EnhancedXv6.Levels
import EnhancedXv6.Selection
import EnhancedXv6.WaitTimes
import Mathlib.Algebra.BigOperators.Intervals
import Mathlib.Tactic.Ring

namespace EnhancedXv6

open ProcTable Table Scheduler Transition Machine

namespace ProcTable

structure Charges.Sound (g : Charges) : Prop where
  run : g.lostRun ≤ g.run
  sleep : g.lostSleep ≤ g.sleep

theorem Charges.Sound.tick {g : Charges} (h : g.Sound) (r : Proc) : (g.tick r).Sound := by
  have hr := h.run
  have hs := h.sleep
  unfold Charges.tick
  split
  · by_cases e : r.Skipped
    · simp only [e, if_true]
      exact ⟨by dsimp only; omega, hs⟩
    · simp only [e, if_false]
      exact ⟨by dsimp only; omega, hs⟩
  · by_cases e : r.Skipped
    · simp only [e, if_true]
      exact ⟨hr, by dsimp only; omega⟩
    · simp only [e, if_false]
      exact ⟨hr, by dsimp only; omega⟩
  · exact ⟨hr, hs⟩
  · exact ⟨hr, hs⟩
  · exact h
  · exact h

def Table.FewTicks (t : Table) : Prop := 0 ≤ t.ticks ∧ t.ticks < 2 ^ 31

theorem Table.FewTicks.tick {t : Table} {b : Build} (h : t.FewTicks) (h' : (t.tick b).FewTicks) :
    t.ticks + 1 < 2 ^ 31 ∧ (t.tick b).ticks = t.ticks + 1 := by
  have hticks : (t.tick b).ticks = (t.ticks + 1) % 2 ^ 32 := rfl
  have hlow := h.1
  have hlt := h.2
  have hlt' := h'.2
  omega

structure Exact (t : Table) (p : Slot) (g : Charges) : Prop where
  sound : g.Sound
  run : (t.proc p).totRunTime + g.lostRun = g.run
  sleep : (t.proc p).totSleepTime + g.lostSleep = g.sleep
  born : 0 ≤ (t.proc p).creationTime
  ended : t.st p = .zombie → (t.proc p).endTime < 2 ^ 31
  total : (if t.st p = .zombie then (t.proc p).endTime else t.ticks) - (t.proc p).creationTime =
    g.run + g.sleep + g.idle

namespace Exact

variable {t u : Table} {p : Slot} {g : Charges}

theorem congr (h : Exact t p g) (ht : u.ticks = t.ticks) (hp : (u.proc p).times = (t.proc p).times)
    (hz : u.st p = .zombie ↔ t.st p = .zombie) : Exact u p g := by
  simp only [Proc.times, Prod.mk.injEq] at hp
  obtain ⟨hc, he, hr, hs⟩ := hp
  refine ⟨h.sound, by rw [hr]; exact h.run, by rw [hs]; exact h.sleep, by rw [hc]; exact h.born,
    fun h' => by rw [he]; exact h.ended (hz.mp h'), ?_⟩
  rw [hc, he, ht, ← h.total]
  congr 1
  exact if_congr hz rfl rfl

theorem tick (h : Exact t p g) (b : Build) (hk : t.FewTicks) (hk' : (t.tick b).FewTicks) (hu : t.st p ≠ .unused) :
    Exact (t.tick b) p (g.tick (t.proc p)) := by
  have hproc : (t.tick b).proc p = tickProc b (t.proc p) := rfl
  have hst : (t.tick b).st p = t.st p := (tickProc_keeps b (t.proc p)).1
  obtain ⟨hlt, hticks⟩ := hk.tick hk'
  obtain ⟨hc, he, hrun, hsleep⟩ := tickProc_times b (t.proc p)
  obtain ⟨⟨hlr, hls⟩, hr, hs, hb, hend, hn⟩ := h
  have hfit : t.st p ≠ .zombie → g.run + g.sleep + g.idle ≤ t.ticks := by
    intro hz
    rw [if_neg hz] at hn
    omega
  refine ⟨Charges.Sound.tick ⟨hlr, hls⟩ _, ?_, ?_, ?_, fun hz => ?_, ?_⟩
  · have htick := g.tick_run (t.proc p)
    rw [hproc, hrun]
    split_ifs at htick ⊢ with hx
    · have hz := hfit (by rw [st, hx.1]; decide)
      rw [i32_eq (by omega) (by omega)]
      omega
    · omega
  · have htick := g.tick_sleep (t.proc p)
    rw [hproc, hsleep]
    split_ifs at htick ⊢ with hx
    · have hz := hfit (by rw [st, hx.1]; decide)
      rw [i32_eq (by omega) (by omega)]
      omega
    · omega
  · rw [hproc, hc]
    exact hb
  · rw [hproc, he]
    exact hend (hst ▸ hz)
  · have htotal := g.tick_total hu
    change _ = if t.st p = .zombie then _ else _ at htotal
    rw [hst, hproc, hc, he, hticks]
    split_ifs at hn htotal ⊢ <;> omega

theorem exit (h : Exact t p g) (hk : t.FewTicks) (hf : Frame Proc.times t u) (hr : t.st p ≠ .zombie) :
    Exact (u.setProc p (fun r => { r with state := .zombie, endTime := i32 u.ticks })) p g := by
  have hp := hf.proc p
  simp only [Proc.times, Prod.mk.injEq] at hp
  obtain ⟨hc, -, hrun, hs⟩ := hp
  have ht := h.total
  rw [if_neg hr] at ht
  refine ⟨h.sound, ?_, ?_, ?_, fun _ => ?_, ?_⟩
  · rw [setProc_self, ← h.run, ← hrun]
  · rw [setProc_self, ← h.sleep, ← hs]
  · rw [setProc_self]
    exact hc ▸ h.born
  · rw [setProc_self, hf.ticks, i32_eq hk.1 hk.2]
    exact hk.2
  · rw [if_pos (by simp [st]), setProc_self, ← ht, ← hc, hf.ticks, i32_eq hk.1 hk.2]

theorem init (b : Build) (hk : t.FewTicks) (he : t.st p = .embryo) : Exact (t.allocprocTail b p) p {} := by
  have hst : (t.allocprocTail b p).st p = .embryo := by rw [allocprocTail_st, he]
  have hticks : (t.allocprocTail b p).ticks = t.ticks := rfl
  have hborn : ((t.allocprocTail b p).proc p).creationTime = t.ticks := by
    rw [← i32_eq hk.1 hk.2]
    cases b <;> simp [allocprocTail, initializeNewFields]
  refine ⟨⟨le_rfl, le_rfl⟩, ?_, ?_, by rw [hborn]; exact hk.1, fun hz => ?_, ?_⟩
  · cases b <;> simp [allocprocTail, initializeNewFields]
  · cases b <;> simp [allocprocTail, initializeNewFields]
  · rw [hst] at hz
    cases hz
  · rw [if_neg (by simp [hst]), hticks, hborn]
    simp

theorem tally (b : Build) : Tally b Table.FewTicks Exact where
  congr := congr
  tick hk hk' h := h.tick b hk hk'
  exit hk h := h.exit hk
  init := init b

theorem bounds (h : Exact t p g) : 0 ≤ (t.proc p).totRunTime ∧ 0 ≤ (t.proc p).totSleepTime ∧
    (t.proc p).totRunTime + (t.proc p).totSleepTime ≤
      (if t.st p = .zombie then (t.proc p).endTime else t.ticks) - (t.proc p).creationTime := by
  obtain ⟨⟨hlr, hls⟩, hr, hs, -, -, hn⟩ := h
  omega

end Exact

def Proc.unlisted (r : Proc) : ℤ := r.totRunTime - ∑ i ∈ Finset.range 5, r.totTicksGot i

instance : IgnoresState Proc.unlisted := by constructor <;> intros <;> rfl
instance : IgnoresFamily Proc.unlisted := by constructor <;> intros <;> rfl
instance : IgnoresQueue Proc.unlisted := by constructor <;> intros <;> rfl
instance : IgnoresCount Proc.unlisted := ⟨fun _ _ => rfl⟩

theorem tickProc_unlisted {r : Proc} (h : r.currQueueId < 5)
    (hr : r.state = .running → i32 (r.totRunTime + 1) = r.totRunTime + 1) : (tickProc .mlfq r).unlisted = r.unlisted := by
  have hsum : ∑ i ∈ Finset.range 5, Function.update r.totTicksGot r.currQueueId (r.totTicksGot r.currQueueId + 1) i =
      ∑ i ∈ Finset.range 5, r.totTicksGot i + 1 := by
    have hmem : r.currQueueId ∈ Finset.range 5 := Finset.mem_range.mpr h
    rw [Finset.sum_update_of_mem hmem, Finset.sdiff_singleton_eq_erase, ← Finset.add_sum_erase _ _ hmem]
    ring
  unfold tickProc
  by_cases hs : r.killed = true ∨ r.pid = 0
  · rw [if_pos hs]
  · rw [if_neg hs]
    cases hst : r.state with
    | running => simp [Proc.unlisted, hsum, hr hst]
    | _ => simp [Proc.unlisted]

theorem tickProc_wait (b : Build) (r : Proc) : (tickProc b r).currWaitTime =
    if r.state = .runnable ∧ ¬ r.Skipped then r.currWaitTime + 1 else r.currWaitTime := by
  unfold tickProc
  by_cases hs : r.killed = true ∨ r.pid = 0
  · rw [if_pos hs]
    simp [Proc.Skipped, hs]
  · rw [if_neg hs]
    cases hr : r.state <;> cases b <;> simp [Proc.Skipped, hs]

theorem tickProc_level (b : Build) (r : Proc) : (tickProc b r).currQueueId = r.currQueueId := by
  unfold tickProc
  by_cases hs : r.killed = true ∨ r.pid = 0
  · rw [if_pos hs]
  · rw [if_neg hs]
    cases r.state <;> cases b <;> rfl

end ProcTable

namespace Threads

variable {n : ℕ}

def TicksFit (k : Kernel n) (l : Label n) : Prop := l.ticks = 0 ∨ k.table.ticks + 1 < 2 ^ 31

instance (k : Kernel n) (l : Label n) : Decidable (TicksFit k l) := inferInstanceAs (Decidable (_ ∨ _))

theorem TicksFit.step {b : Build} {k k' : Kernel n} {l : Label n} (hc : TicksFit k l) (hi : k.Inv)
    (hs : k.step b l = some k') (h : k.table.FewTicks) : k'.table.FewTicks := by
  have hw := hi.writes (π := Proc.times) hs
  generalize k'.table = u at hw ⊢
  have hsame : u.ticks = k.table.ticks → u.FewTicks := fun hu => by rwa [FewTicks, hu]
  cases hw with
  | frame _ hfr => exact hsame hfr.ticks
  | alloc _ ha => exact hsame (by rw [(Kernel.allocproc_eq ha).2]; rfl)
  | init _ _ _ hticks => exact hsame hticks
  | exit _ _ hfr _ => exact hsame hfr.ticks
  | reap _ hfr _ => exact hsame hfr.ticks
  | @tick c h0 =>
    have hlt := hc.resolve_left (by simp [Label.ticks, h0])
    have hticks : (k.table.tick b).ticks = (k.table.ticks + 1) % 2 ^ 32 := rfl
    have hlow := h.1
    exact ⟨by omega, by omega⟩
  | setPriority => exact hsame (setPriority_times _ _ _).ticks

theorem reachable_fewTicks {b : Build} {k : Kernel n} (h : (machine b n).ReachableWhere TicksFit k) :
    k.table.FewTicks := by
  refine h.invariant (P := fun k => k.table.FewTicks) ?_ ?_
  · rintro k rfl
    exact ⟨le_rfl, Int.pow_pos (by decide)⟩
  · intro k l k' hr hk hc hs
    exact hc.step (reachable_inv hr.reachable) hs hk

theorem reachable_exact {b : Build} {s : Kernel n × (Slot → Charges)}
    (h : (tickMachine b n).ReachableWhere (fun s l => TicksFit s.1 l) s) : Tallied Exact s := by
  refine h.invariant ?_ ?_
  · rintro ⟨k, g⟩ ⟨hk, -⟩ p hp
    obtain rfl : k = Kernel.start n := hk
    exact absurd rfl hp
  · intro s l s' hr ht hc hn
    obtain ⟨hs, hg⟩ := history_next hn
    have hi := reachable_inv (history_reachable hr.reachable)
    have hk := reachable_fewTicks (history_reachableWhere hr)
    exact ht.step (Exact.tally b) hi hk (hc.step hi hs hk) hs hg

theorem exists_exact {b : Build} {k : Kernel n} (h : (machine b n).ReachableWhere TicksFit k) {p : Slot}
    (hu : k.table.st p ≠ .unused) (hf : ¬ k.Fresh p) : ∃ g, Exact k.table p g := by
  obtain ⟨g, hg⟩ := h.exists_history (fun _ => {}) recordTicks
  exact ⟨_, reachable_exact hg p hu hf⟩

namespace Kernel

variable {k k' : Kernel n} {l : Label n} {b : Build} {p : Slot}

def Listed (k : Kernel n) : Prop := ∀ p, k.table.st p ≠ .unused → ¬ k.Fresh p → (k.table.proc p).unlisted = 0

theorem Listed.step (h : k.Listed) (hi : k.Inv) (hm : k.Mlfq) (hx : ∀ p, k.table.st p ≠ .unused → ¬ k.Fresh p →
    ∃ g, Exact k.table p g) (hc : TicksFit k l) (hs : k.step .mlfq l = some k') : k'.Listed := by
  intro p hu hf
  have hold := hi.initialised hs hu hf
  have hlock : ∀ c, l = .timer c → k.LockFree := by
    rintro c rfl
    exact (guarded_eq.mp hs).1.1
  have hw := hi.writes (π := Proc.unlisted) hs
  generalize k'.table = u at hu hw ⊢
  have hsame : k.initialises l = none → (k.table.proc p).unlisted = 0 := by
    intro hn
    obtain ⟨hne, hnf⟩ := hold.resolve_left (by rw [hn]; simp)
    exact h p hne hnf
  cases hw with
  | frame hl hfr =>
    rw [hfr.proc p]
    exact hsame (initialises_of_quiet hl)
  | alloc hl ha =>
    rw [(allocproc_eq ha).2, setProc_proc]
    split_ifs with e
    · subst e
      exact hsame (initialises_of_quiet hl)
    · exact hsame (initialises_of_quiet hl)
  | @init _ _ np hin he hp ht =>
    rw [hp]
    by_cases e : p = np
    · subst e
      simp [allocprocTail, initializeNewFields, Proc.unlisted, Finset.sum_range_succ]
    · rw [allocprocTail_of_ne _ _ e]
      obtain ⟨hne, hnf⟩ := hold.resolve_left (by rw [hin]; simpa using Ne.symm e)
      exact h p hne hnf
  | @exit c q v hq hr hfr hwk =>
    have hp := (hfr.proc p).trans (hsame rfl)
    rw [setProc_proc]
    split_ifs with e
    · subst e
      exact hp
    · exact hp
  | @reap _ v q hl hfr hq =>
    have hp := (hfr.proc p).trans (hsame (initialises_of_quiet hl))
    rw [Table.reap, setProc_proc]
    split_ifs with e
    · subst e
      exact hp
    · exact hp
  | @tick c h0 =>
    refine (tickProc_unlisted ((hm.lockFree (hlock c rfl)).level p) (fun hrun => ?_)).trans (hsame rfl)
    obtain ⟨hne, hnf⟩ := hold.resolve_left (by simp [initialises])
    obtain ⟨g, hg⟩ := hx p hne hnf
    obtain ⟨hr, hs, hle⟩ := hg.bounds
    have hlt := hc.resolve_left (by simp [Label.ticks, h0])
    have hborn := hg.born
    rw [if_neg (by rw [st, hrun]; decide)] at hle
    exact i32_eq (by omega) (by omega)
  | @setPriority c v pid =>
    exact ((Frame.setPriority (fun _ _ => rfl) k.table v pid).proc p).trans (hsame rfl)

end Kernel

theorem reachable_listed {k : Kernel n} (h : (machine .mlfq n).ReachableWhere TicksFit k)
    (hb : k.table.handedOut < 2 ^ 31) : k.Listed := by
  refine h.invariant (P := fun k => k.table.handedOut < 2 ^ 31 → k.Listed) ?_ ?_ hb
  · rintro k rfl - p hp
    exact absurd rfl hp
  · intro k l k' hr hk hc hs hb'
    have hi := reachable_inv hr.reachable
    have hlt := lt_of_le_of_lt (handedOut_mono hi hs) hb'
    exact (hk hlt).step hi (reachable_mlfq hr.reachable hlt) (fun p => exists_exact hr) hc hs

namespace Kernel

variable {k k' : Kernel n} {l : Label n} {b : Build} {p : Slot} {u : Table}

inductive WaitStep (k : Kernel n) (u : Table) (p : Slot) : Prop
  | keep (hr : u.st p = .running → k.table.st p = .running)
      (hl : k.table.st p = .runnable → (k.table.proc p).currQueueId ≤ (u.proc p).currQueueId)
      (hw : (u.proc p).currWaitTime = (k.table.proc p).currWaitTime)
  | reset (hr : u.st p ≠ .runnable) (hw : (u.proc p).currWaitTime = 0)
  | promote (hl : (u.proc p).currQueueId < (k.table.proc p).currQueueId) (hw : (u.proc p).currWaitTime = 0)
  | demote (ho : k.Out p) (hw : (u.proc p).currWaitTime = 0)

namespace WaitStep

theorem of_eq (hu : u.proc p = k.table.proc p) : WaitStep k u p := by
  refine .keep (fun hr => ?_) (fun _ => ?_) ?_
  · rw [st, hu] at hr
    exact hr
  · rw [hu]
  · rw [hu]

theorem of_rouses (hr : u.st p = .running → k.table.st p = .running) (h : Rouses k.table u) : WaitStep k u p :=
  .keep hr (fun _ => (h.level p).ge) (h.wait p)

theorem of_shares (h : Shares k l u p) (hl : l.ticks = 0) : WaitStep k u p := by
  cases h with
  | keep hi hr hq hw hf hg => exact .keep hr.1 (fun _ => hq.ge) hw
  | init he hs hw hf => exact .reset (by simp [hs]) hw
  | start hi he hs hq hw hf =>
    refine .keep (fun hr => ?_) (fun hr => ?_) hw
    · rw [hs] at hr
      cases hr
    · rw [he] at hr
      cases hr
  | tick hc hp => simp [Label.ticks, hc] at hl
  | expire hc hp hu =>
    refine .keep (fun hr => ?_) (fun _ => ?_) ?_
    · rw [st, hu] at hr
      exact hr
    · rw [hu]
    · rw [hu]
  | promote hk hs hp hg =>
    refine .promote ?_ hp.wait
    rw [← hp.level]
    exact Nat.lt_succ_self _
  | dispatch hs hr hq hw hf hg => exact .reset (by simp [hr]) hw
  | demote hc hp hs hr hd hq hw hf => exact .demote ⟨_, hp, hc⟩ hw

theorem of_runOn (c : Fin n) (q : Slot) : WaitStep k (k.runOn b c q).table p := by
  change WaitStep k (Scheduler.dispatch b k.table q) p
  by_cases e : p = q
  · subst e
    refine .reset ?_ ?_
    · rw [dispatch_st, Function.update_self]
      decide
    · rw [Scheduler.dispatch, setProc_self]
      cases b <;> rfl
  · exact of_eq (dispatch_of_ne b _ e)

theorem of_frame (hr : u.st p = .running → k.table.st p = .running) (h : Frame Proc.share k.table u) : WaitStep k u p := by
  obtain ⟨hl, -, hw, -⟩ := share_eq.mp (h.proc p)
  exact .keep hr (fun _ => hl.ge) hw

end WaitStep

theorem share_makeRunnable (hb : b ≠ .mlfq) (t : Table) (np : Slot) : Frame Proc.share t (t.makeRunnable b np) := by
  refine (Frame.setState t np .runnable).trans ?_
  unfold Table.makeRunnable
  cases b with
  | pbs => exact .resetPbsChances _ _
  | mlfq => exact absurd rfl hb
  | _ => exact .refl _

theorem share_userinitRunnable (hb : b ≠ .mlfq) (t : Table) (p : Slot) : Frame Proc.share t (t.userinitRunnable b p) := by
  refine (Frame.setState t p .runnable).trans ?_
  rw [Table.userinitRunnable, if_neg hb]
  exact .refl _

theorem pick_table (hb : b ≠ .mlfq) (k : Kernel n) (c : Fin n) : (k.pick b c).1 = k.table := by
  cases b with
  | mlfq => exact absurd rfl hb
  | _ => rfl

theorem Inv.waitStep_of_ne (h : k.Inv) (hb : b ≠ .mlfq) (hs : k.step b l = some k') (hl : l.ticks = 0)
    (hi : k.initialises l ≠ some p) : WaitStep k k'.table p := by
  have hran : .dispatch ∉ l.arrows → k'.table.st p = .running → k.table.st p = .running := fun hd hp => h.ran hs hd hp
  have hinit : ∀ np, k.initialises l = some np → k'.table.proc = (k.table.allocprocTail b np).proc →
      WaitStep k k'.table p := by
    intro np hnp hu
    have e : p ≠ np := by
      rintro rfl
      exact hi hnp
    refine .of_eq ?_
    rw [hu, allocprocTail_of_ne _ _ e]
  cases step_cases hs with
  | userinitAlloc _ _ _ ha | forkAlloc _ _ _ ha => exact .of_rouses (hran (by simp [Label.arrows])) (allocproc_share ha)
  | userinitTail hc hm => exact hinit _ (by rw [initialises, hm]; rfl) rfl
  | userinitDone => exact .of_frame (hran (by simp [Label.arrows])) (share_userinitRunnable hb _ _)
  | @forkKalloc c q np hp hm =>
    refine hinit np ?_ rfl
    rw [initialises, procAt_eq.mpr hp, Option.bind_some, hm]
    rfl
  | forkNoStack | forkNoCopy => exact .of_frame (hran (by simp [Label.arrows])) (.setState _ _ _)
  | forkCopyuvm => exact .of_frame (hran (by simp [Label.arrows])) (.setParent _ _ _)
  | forkDone => exact .of_frame (hran (by simp [Label.arrows])) (share_makeRunnable hb _ _)
  | exit => exact .of_rouses (hran (by simp [Label.arrows])) (.exit _ _ _)
  | reap ht => exact .of_frame (hran (by simp [ht.arrows])) (ht.frame.trans (reap_share _ _))
  | waitFail ht => exact .of_frame (hran (by simp [ht.arrows])) ht.frame
  | waitSleep ht => exact .of_frame (hran (by simp [ht.arrows])) (ht.frame.trans (.goSleep _ _ _ _))
  | sleep => exact .of_frame (hran (by simp [Label.arrows])) (.goSleep _ _ _ _)
  | wakeup =>
    rw [setTable_table] at hran ⊢
    exact .of_rouses (hran (by simp [Label.arrows])) (.wakeup1 _ _ _)
  | kill => exact .of_rouses (hran (by simp [Label.arrows])) (.kill _ _ _)
  | setPriority => exact .of_rouses (hran (by simp [Label.arrows])) (setPriority_share _ _ _)
  | fault => exact .of_frame (hran (by simp [Label.arrows])) (.mark _ _)
  | tick _ _ h0 => simp [Label.ticks, h0] at hl
  | trapDemote _ _ he => exact absurd he hb
  | trapYield | demoteYield => exact .of_frame (hran (by simp [Label.arrows])) (.yield _ _)
  | idle =>
    rw [setTable_table, pick_table hb]
    exact .of_eq rfl
  | @run _ c q t hq =>
    cases hq with
    | schedule =>
      rw [pick_table hb]
      exact .of_runOn c q
    | back => exact .of_runOn c q
  | resumeSleep => exact .of_frame (hran (by simp [Label.arrows])) (.wakeSleeper _ _)
  | back =>
    rw [if_neg hb]
    exact .of_eq rfl
  | forkNone | timer | trapUser | resumeUser => exact .of_eq rfl

theorem Inv.waitStep (h : k.Inv) (hm : b = .mlfq → k.Mlfq) (hs : k.step b l = some k') (hl : l.ticks = 0)
    (hi : k.initialises l ≠ some p) : WaitStep k k'.table p := by
  by_cases hb : b = .mlfq
  · subst hb
    exact .of_shares ((hm rfl).shares h hs p) hl
  · exact h.waitStep_of_ne hb hs hl hi

end Kernel

structure WaitLog where
  since : Slot → ℕ := fun _ => 0
  marked : Slot → Bool := fun _ => false

def Label.allocates : Label n → Bool
  | .userinitAlloc _ => true
  | .forkAlloc _ => true
  | _ => false

namespace Kernel

def marks (k : Kernel n) (p : Slot) : Label n → Bool
  | .kill _ pid => (k.table.proc p).pid = pid
  | .fault c => (k.cpu c).proc = some p
  | _ => false

def recordWait (g : WaitLog) (k : Kernel n) (l : Label n) (k' : Kernel n) : WaitLog where
  since p :=
    if k.table.st p ≠ .runnable ∧ k'.table.st p = .runnable then 0
    else if (k'.table.proc p).currQueueId < (k.table.proc p).currQueueId then 0
    else g.since p + l.ticks
  marked p := if k.Takes k' p then false else g.marked p || k.marks p l

end Kernel

def waitMachine (b : Build) (n : ℕ) : Machine (Kernel n × WaitLog) (Label n) :=
  (machine b n).history {} Kernel.recordWait

def TakesClear (s : Kernel n × WaitLog) (l : Label n) : Prop :=
  l.allocates → s.1.table.handedOut + 1 < 2 ^ 31 ∧
    ∀ np ∈ s.1.table.allocproc.map Prod.snd, (s.1.table.proc np).killed = false

instance (s : Kernel n × WaitLog) (l : Label n) : Decidable (TakesClear s l) := inferInstanceAs (Decidable (_ → _))

structure Waited (k : Kernel n) (since : ℕ) (p : Slot) : Prop where
  still : k.table.st p ≠ .runnable → (k.table.proc p).currWaitTime = 0
  out : k.Out p → (k.table.proc p).currWaitTime = 0
  ready : k.table.st p = .runnable → ¬ (k.table.proc p).Skipped → (k.table.proc p).currWaitTime = since

namespace Kernel

variable {k k' : Kernel n} {l : Label n} {b : Build} {p : Slot} {g : WaitLog}

theorem since_of_stays (hp : k.table.st p = .runnable)
    (hl : (k.table.proc p).currQueueId ≤ (k'.table.proc p).currQueueId) :
    (recordWait g k l k').since p = g.since p + l.ticks := by
  unfold recordWait
  dsimp only
  rw [if_neg (fun hx => hx.1 hp), if_neg (not_lt.mpr hl)]

theorem Inv.out_step (h : k.Inv) (hs : k.step b l = some k') (hp : k.table.st p = .runnable) (hp' : k'.table.st p = .runnable)
    (ho : k'.Out p) : k.Out p := by
  obtain ⟨c, hc, hx⟩ := ho
  by_cases e : (k.cpu c).proc = some p
  · refine ⟨c, e, ?_⟩
    have hf := h.live.onCpu c p e
    rw [hp] at hf
    cases hy : (k.cpu c).ctl <;> simp [hy, Ctl.Fits] at hf ⊢
  · have hr := running_of_dispatched hs e hc
    rw [hp'] at hr
    cases hr

theorem WaitStep.wait_eq_zero (hw : WaitStep k k'.table p) (h : (k.table.proc p).currWaitTime = 0) :
    (k'.table.proc p).currWaitTime = 0 := by
  cases hw with
  | keep hr hl hw => exact hw.trans h
  | reset hr hw => exact hw
  | promote hl hw => exact hw
  | demote ho hw => exact hw

theorem waited_step (h : Waited k (g.since p) p) (hi : k.Inv) (hs : k.step b l = some k') (hl : l.ticks = 0)
    (hw : WaitStep k k'.table p) (hskip : k.table.st p = .runnable → (k.table.proc p).Skipped → (k'.table.proc p).Skipped) :
    Waited k' ((recordWait g k l k').since p) p := by
  have hzero := hw.wait_eq_zero
  have hstill : k'.table.st p ≠ .runnable → (k'.table.proc p).currWaitTime = 0 := by
    intro hp'
    by_cases hp : k.table.st p = .runnable
    · have hr : k'.table.st p = .running := (hi.ready_step hs hp).resolve_left hp'
      cases hw with
      | keep hran hq hw =>
        rw [hran hr] at hp
        cases hp
      | reset hr hw => exact hw
      | promote hq hw => exact hw
      | demote ho hw => exact hw
    · exact hzero (h.still hp)
  refine ⟨hstill, fun ho => ?_, fun hp' hns => ?_⟩
  · by_cases hp' : k'.table.st p = .runnable
    · by_cases hp : k.table.st p = .runnable
      · exact hzero (h.out (hi.out_step hs hp hp' ho))
      · exact hzero (h.still hp)
    · exact hstill hp'
  · by_cases hp : k.table.st p = .runnable
    · have hold := h.ready hp (fun hk => hns (hskip hp hk))
      cases hw with
      | keep hran hq hw => rw [since_of_stays hp (hq hp), hw, hold, hl, Nat.add_zero]
      | reset hr hw => exact absurd hp' hr
      | promote hq hw =>
        unfold recordWait
        dsimp only
        rw [if_neg (fun hx => hx.1 hp), if_pos hq, hw]
        rfl
      | demote ho hw =>
        -- no tick is handled between `yield` and the demotion
        have h0 : g.since p = 0 := by
          have h0 := h.out ho
          rw [hold] at h0
          exact_mod_cast h0
        unfold recordWait
        dsimp only
        rw [hw, h0, hl]
        split_ifs <;> rfl
    · unfold recordWait
      dsimp only
      rw [if_pos ⟨hp, hp'⟩, hzero (h.still hp)]
      rfl

theorem waited_tick (h : Waited k (g.since p) p) (hi : k.Inv) (hs : k.step b l = some k') (hl : l.ticks ≠ 0)
    (hskip : k.table.st p = .runnable → (k.table.proc p).Skipped → (k'.table.proc p).Skipped) :
    Waited k' ((recordWait g k l k').since p) p := by
  have hout := hi.out_step (p := p) hs
  cases step_cases hs with
  | tick hlock hx h0 =>
    have hst : (k.table.tick b).st p = k.table.st p := (tickProc_keeps b (k.table.proc p)).1
    have hwait : ((k.table.tick b).proc p).currWaitTime = _ := tickProc_wait b (k.table.proc p)
    have hlevel : ((k.table.tick b).proc p).currQueueId = _ := tickProc_level b (k.table.proc p)
    have hstill : k.table.st p ≠ .runnable → ((k.table.tick b).proc p).currWaitTime = 0 := by
      intro hp
      rw [hwait, if_neg (fun hx => hp hx.1)]
      exact h.still hp
    refine ⟨fun hp => hstill (fun e => hp (hst.trans e)), fun ho => ?_, fun hp hns => ?_⟩
    · by_cases hp : k.table.st p = .runnable
      · exact absurd (hout hp (hst.trans hp) ho) (hlock.not_out p)
      · exact hstill hp
    · have hp0 : k.table.st p = .runnable := hst.symm.trans hp
      have hns0 : ¬ (k.table.proc p).Skipped := fun hk => hns (hskip hp0 hk)
      rw [since_of_stays hp0 hlevel.ge, setCtl_table, setTable_table, hwait, if_pos ⟨hp0, hns0⟩, h.ready hp0 hns0,
        Label.ticks, if_pos h0]
      rfl
  | timer _ _ h0 => simp [Label.ticks, h0] at hl
  | reap ht | waitFail ht | waitSleep ht => cases ht <;> simp [Label.ticks] at hl
  | run hp => cases hp <;> simp [Label.ticks] at hl
  | _ => simp [Label.ticks] at hl

theorem waited_init {np : Slot} (he : k.table.st np = .embryo)
    (hu : k'.table.proc = (k.table.allocprocTail b np).proc) (m : ℕ) : Waited k' m np := by
  have hst : k'.table.st np = .embryo := by
    rw [st, hu]
    change (k.table.allocprocTail b np).st np = _
    rw [allocprocTail_st, he]
  have hw : (k'.table.proc np).currWaitTime = 0 := by
    rw [hu]
    cases b <;> simp [allocprocTail, initializeNewFields]
  refine ⟨fun _ => hw, fun _ => hw, fun hr => ?_⟩
  rw [hst] at hr
  cases hr

theorem Effect.skipped {u : Table} (he : k.Effect l u) (hi : k.Inv) (hp : k.table.st p = .runnable)
    (h : (k.table.proc p).Skipped) (hu : u.st p ≠ .unused) : (u.proc p).Skipped := by
  cases he with
  | keeps hk =>
    rw [Proc.Skipped, hk.killed, hk.pid]
    exact h
  | alloc hl ha =>
    obtain ⟨hn, rfl⟩ := allocproc_eq ha
    rw [setProc_of_ne _ _ _ _ (by rintro rfl; exact absurd (hn.symm.trans hp) (by decide))]
    exact h
  | free hl hq hm =>
    have hn := hi.live.embryo _ _ hm
    rw [freeEmbryo, setProc_of_ne _ _ _ _ (by rintro rfl; rw [hp] at hn; cases hn)]
    exact h
  | @reap _ v q hk hq =>
    have e : p ≠ q := by
      rintro rfl
      exact hu (by rw [reap_st]; exact Function.update_self _ _ _)
    rw [Table.reap, setProc_of_ne _ _ _ _ e, Proc.Skipped, hk.killed, hk.pid]
    exact h
  | @kill c pid v q hq hk =>
    rw [Proc.Skipped, hk.killed, hk.pid, setProc_proc]
    split_ifs with e
    · exact .inl rfl
    · exact h
  | fault hq =>
    rw [setProc_proc]
    split_ifs with e
    · exact .inl rfl
    · exact h

end Kernel

structure Timed (s : Kernel n × WaitLog) : Prop where
  pids : s.1.table.handedOut < 2 ^ 31
  waited : ∀ p, s.1.table.st p ≠ .unused → ¬ s.1.Fresh p → Waited s.1 (s.2.since p) p
  marked : ∀ p, s.1.table.st p ≠ .unused → (s.1.table.proc p).killed → s.2.marked p

namespace Timed

open Kernel

variable {s s' : Kernel n × WaitLog} {l : Label n} {b : Build}

theorem pids_step (h : Timed s) (hi : s.1.Inv) (hc : TakesClear s l) (hs : s.1.step b l = some s'.1) :
    s'.1.table.handedOut < 2 ^ 31 := by
  have he := hi.effect hs
  generalize s'.1.table = u at he
  cases he with
  | keeps hk => exact hk.handedOut ▸ h.pids
  | @alloc _ _ np hl ha =>
    have hal : l.allocates := by rcases hl with ⟨c, rfl⟩ | ⟨c, rfl⟩ <;> rfl
    rw [(allocproc_eq ha).2]
    exact (hc hal).1
  | free => exact h.pids
  | reap hk => exact hk.handedOut ▸ h.pids
  | kill _ hk => exact hk.handedOut ▸ h.pids
  | fault => exact h.pids

theorem waited_step (h : Timed s) (hi : s.1.Inv) (hm : b = .mlfq → s.1.Mlfq) (hs : s.1.step b l = some s'.1)
    (hg : s'.2 = recordWait s.2 s.1 l s'.1) (p : Slot) (hu : s'.1.table.st p ≠ .unused) (hf : ¬ s'.1.Fresh p) :
    Waited s'.1 (s'.2.since p) p := by
  rw [hg]
  by_cases hin : s.1.initialises l = some p
  · have hw := hi.writes (π := Proc.times) hs
    generalize hu' : s'.1.table = u at hw
    cases hw with
    | frame hl _ | alloc hl _ | reap hl _ _ =>
      rw [initialises_of_quiet hl] at hin
      cases hin
    | @init _ _ np hin' he hp ht =>
      rw [hin] at hin'
      cases hin'
      exact waited_init he (by rw [hu', hp]) _
    | exit | tick | setPriority => cases hin
  · obtain ⟨hne, hnf⟩ := (hi.initialised hs hu hf).resolve_left hin
    have hold := h.waited p hne hnf
    have hskip := fun hp hk => (hi.effect hs).skipped (p := p) hi hp hk hu
    by_cases hl : l.ticks = 0
    · exact Kernel.waited_step hold hi hs hl (hi.waitStep hm hs hl hin) hskip
    · exact waited_tick hold hi hs hl hskip

theorem marked_step (h : Timed s) (hi : s.1.Inv) (hc : TakesClear s l) (hs : s.1.step b l = some s'.1)
    (hg : s'.2 = recordWait s.2 s.1 l s'.1) (p : Slot) (hu : s'.1.table.st p ≠ .unused)
    (hk : (s'.1.table.proc p).killed) : s'.2.marked p := by
  have he := hi.effect hs
  have hkeep : s.1.table.st p ≠ .unused → (s.1.table.proc p).killed ∨ s.1.marks p l →
      (recordWait s.2 s.1 l s'.1).marked p = true := by
    intro hne hor
    unfold recordWait
    dsimp only
    rw [if_neg (fun hx => hne hx.1), Bool.or_eq_true]
    exact hor.imp (h.marked p hne) id
  rw [hg]
  generalize s'.1.table = u at he hu hk
  cases he with
  | keeps hkp => exact hkeep (fun e => hu ((hkp.unused p).mpr e)) (.inl (hkp.killed p ▸ hk))
  | @alloc _ _ np hl ha =>
    have hal : l.allocates := by rcases hl with ⟨c, rfl⟩ | ⟨c, rfl⟩ <;> rfl
    have hclear := (hc hal).2 np (by rw [ha]; rfl)
    obtain ⟨hn, rfl⟩ := allocproc_eq ha
    rw [setProc_proc] at hk
    split_ifs at hk with e
    · rw [hclear] at hk
      cases hk
    · refine hkeep (fun hx => hu ?_) (.inl hk)
      rw [st, setProc_of_ne _ _ _ _ e]
      exact hx
  | @free _ np q c hl hq hm =>
    have e : p ≠ np := by
      rintro rfl
      exact hu (by rw [freeEmbryo_st]; exact Function.update_self _ _ _)
    rw [freeEmbryo, setProc_of_ne _ _ _ _ e] at hk
    rw [freeEmbryo_st, Function.update_of_ne e] at hu
    exact hkeep hu (.inl hk)
  | @reap _ v q hkp hq =>
    have e : p ≠ q := by
      rintro rfl
      exact hu (by rw [reap_st]; exact Function.update_self _ _ _)
    rw [Table.reap, setProc_of_ne _ _ _ _ e] at hk
    rw [reap_st, Function.update_of_ne e] at hu
    exact hkeep (fun hx => hu ((hkp.unused p).mpr hx)) (.inl (hkp.killed p ▸ hk))
  | @kill c pid v q hq hkp =>
    have hne : s.1.table.st p ≠ .unused := by
      intro hx
      apply hu
      rw [hkp.unused, st_setProc]
      exact (congrFun (Function.update_eq_self q s.1.table.st) p).trans hx
    rw [hkp.killed, setProc_proc] at hk
    split_ifs at hk with e
    · exact hkeep hne (.inr (by simpa [marks, e] using hq))
    · exact hkeep hne (.inl hk)
  | @fault c q hq =>
    have hne : s.1.table.st p ≠ .unused := by
      intro hx
      apply hu
      rw [st_setProc]
      exact (congrFun (Function.update_eq_self q s.1.table.st) p).trans hx
    rw [setProc_proc] at hk
    split_ifs at hk with e
    · exact hkeep hne (.inr (by simpa [marks, e] using hq.2))
    · exact hkeep hne (.inl hk)

end Timed

theorem reachable_timed {b : Build} {s : Kernel n × WaitLog} (h : (waitMachine b n).ReachableWhere TakesClear s) : Timed s := by
  refine ReachableWhere.invariant h ?_ ?_
  · rintro ⟨k, g⟩ ⟨hk, -⟩
    obtain rfl : k = Kernel.start n := hk
    exact ⟨Nat.two_pow_pos 31, fun p hp => absurd rfl hp, fun p hp => absurd rfl hp⟩
  · intro s l s' hr ht hc hn
    obtain ⟨hs, hg⟩ := history_next hn
    have hk := history_reachable hr.reachable
    have hi := reachable_inv hk
    have hm : b = .mlfq → s.1.Mlfq := by
      rintro rfl
      exact reachable_mlfq hk ht.pids
    exact ⟨ht.pids_step hi hc hs, ht.waited_step hi hm hs hg, ht.marked_step hi hc hs hg⟩

theorem time_accounts (b : Build) (n : ℕ) (s : Kernel n × WaitLog)
    (h : (waitMachine b n).ReachableWhere (fun s l => TakesClear s l ∧ TicksFit s.1 l) s)
    (p : Slot) (hu : s.1.table.st p ≠ .unused) (he : s.1.table.st p ≠ .embryo) :
    (0 ≤ (s.1.table.proc p).totRunTime + (s.1.table.proc p).totSleepTime ∧
      (s.1.table.proc p).totRunTime + (s.1.table.proc p).totSleepTime ≤
        (if s.1.table.st p = .zombie then (s.1.table.proc p).endTime else s.1.table.ticks) -
          (s.1.table.proc p).creationTime) ∧
    (s.1.table.st p = .zombie → 0 ≤ (s.1.table.waitxTimes p).2) ∧
    (b = .mlfq → ∑ i ∈ Finset.range 5, (s.1.table.proc p).totTicksGot i = (s.1.table.proc p).totRunTime) ∧
    (s.1.table.st p = .runnable → s.2.marked p = false → (s.1.table.proc p).currWaitTime = s.2.since p) ∧
    (s.1.table.st p = .running ∨ s.1.table.st p = .sleeping → (s.1.table.proc p).currWaitTime = 0) := by
  have ht := reachable_timed (h.mono (fun _ _ hc => hc.1))
  have hw := history_reachableWhere (C := TicksFit) (h.mono (fun _ _ hc => hc.2))
  have hk := hw.reachable
  have hfresh := (reachable_inv hk).not_fresh he
  obtain ⟨g, hg⟩ := exists_exact hw hu hfresh
  obtain ⟨hrun, hsleep, hle⟩ := hg.bounds
  refine ⟨⟨by omega, hle⟩, fun hz => ?_, ?_, fun hr hm => ?_, fun hp => ?_⟩
  · rw [if_pos hz] at hle
    have hborn := hg.born
    have hend := hg.ended hz
    rw [waitxTimes]
    dsimp only
    rw [i32_eq (by omega) (by omega)]
    omega
  · rintro rfl
    have hl := reachable_listed hw ht.pids p hu hfresh
    rw [Proc.unlisted] at hl
    omega
  · refine (ht.waited p hu hfresh).ready hr ?_
    rintro (hx | hx)
    · rw [ht.marked p hu hx] at hm
      cases hm
    · exact (reachable_pids hk).used ht.pids p hu hx
  · apply (ht.waited p hu hfresh).still
    rcases hp with e | e <;> rw [e] <;> decide

theorem time_accounts_child : ∃ s : Kernel 1 × WaitLog, s.1.table.st 1 = .runnable ∧ s.2.marked 1 = false ∧ s.2.since 1 = 2 ∧
    (s.1.table.proc 1).currWaitTime = 2 := by
  obtain ⟨s, hs, hP⟩ := exists_reachableWhere (M := waitMachine .fcfs 1) (C := fun s l => TakesClear s l ∧ TicksFit s.1 l)
    (s := (Kernel.start 1, {}))
    (w := boot ++ fork ++ [.timer 0, .trapTail 0, .timer 0, .trapTail 0])
    (P := fun s => decide (s.1.table.st 1 = .runnable ∧ s.2.marked 1 = false ∧ s.2.since 1 = 2)) ⟨rfl, rfl⟩ (by decide +kernel)
  obtain ⟨hr, hm, hw⟩ := of_decide_eq_true hP
  have ht := (time_accounts .fcfs 1 s hs 1 (by simp [hr]) (by simp [hr])).2.2.2.1 hr hm
  rw [hw] at ht
  exact ⟨s, hr, hm, hw, ht⟩

theorem wait_of_born_killed : ∃ s : Kernel 1 × WaitLog, (waitMachine .rr 1).Reachable s ∧ s.1.table.st 1 = .runnable ∧
    s.2.marked 1 = false ∧ s.2.since 1 = 1 ∧ (s.1.table.proc 1).currWaitTime = 0 := by
  obtain ⟨s, hs, hP⟩ := exists_reachable (M := waitMachine .rr 1) (s := (Kernel.start 1, {}))
    (w := boot ++ [.kill 0 0] ++ fork ++ [.timer 0])
    (P := fun s => decide (s.1.table.st 1 = .runnable ∧ s.2.marked 1 = false ∧ s.2.since 1 = 1 ∧
      (s.1.table.proc 1).currWaitTime = 0)) ⟨rfl, rfl⟩ (by decide +kernel)
  exact ⟨s, hs, of_decide_eq_true hP⟩

end Threads

end EnhancedXv6
