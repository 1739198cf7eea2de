import EnhancedXv6.Pids
import EnhancedXv6.StateChanges
import Mathlib.Data.Fintype.Card

namespace EnhancedXv6

open ProcTable Table Scheduler Transition Machine

namespace ProcTable

structure SameQueues (t u : Table) : Prop where
  queuePtr : u.queuePtr = t.queuePtr
  qLatestIdx : u.qLatestIdx = t.qLatestIdx
  refused : u.refused = t.refused
  dropped : u.dropped = t.dropped
  level : ∀ p, (u.proc p).currQueueId = (t.proc p).currQueueId

namespace SameQueues

variable {t u v : Table}

theorem refl (t : Table) : SameQueues t t := ⟨rfl, rfl, rfl, rfl, fun _ => rfl⟩

theorem trans (h : SameQueues t u) (k : SameQueues u v) : SameQueues t v :=
  ⟨k.queuePtr.trans h.queuePtr, k.qLatestIdx.trans h.qLatestIdx, k.refused.trans h.refused,
    k.dropped.trans h.dropped, fun p => (k.level p).trans (h.level p)⟩

theorem setProc (t : Table) (p : Slot) (f : Proc → Proc)
    (hf : (f (t.proc p)).currQueueId = (t.proc p).currQueueId) : SameQueues t (t.setProc p f) := by
  refine ⟨rfl, rfl, rfl, rfl, fun r => ?_⟩
  rw [setProc_proc]
  split_ifs with e
  · rw [e, hf]
  · rfl

theorem subtractChances (c m : ℤ) (ps : List Slot) (t : Table) : SameQueues t (subtractChances c m ps t).1 := by
  induction ps generalizing t with
  | nil => exact refl t
  | cons p ps ih =>
    have hset : SameQueues t (t.setProc p (fun r => { r with pbsChances := r.pbsChances - m })) :=
      setProc t p _ rfl
    simp only [Table.subtractChances]
    split_ifs
    · exact hset
    · exact hset.trans (ih _)
    · exact ih t

theorem setPriority (t : Table) (c pid : ℤ) : SameQueues t (t.setPriority c pid).1 := by
  unfold Table.setPriority
  split_ifs
  · exact refl t
  · split
    · exact refl t
    · split_ifs <;> dsimp only
      · exact refl t
      · exact (subtractChances _ _ _ t).trans (setProc _ _ _ rfl)

theorem tick (t : Table) : SameQueues t (t.tick .mlfq) := by
  refine ⟨rfl, rfl, rfl, rfl, fun p => ?_⟩
  change (tickProc .mlfq (t.proc p)).currQueueId = _
  unfold tickProc
  split_ifs
  · rfl
  · split <;> rfl
  · split <;> rfl

end SameQueues

theorem InQueues.same {t u : Table} {W V : Slot → Prop} (h : InQueues t W) (hs : SameQueues t u)
    (hW : ∀ p, V p ↔ W p) (hused : ∀ p, V p → u.st p ≠ .unused) (hpids : Distinct u) : InQueues u V := by
  obtain ⟨Q, hQ⟩ := h
  exact ⟨Q, hQ.congr hs.queuePtr hs.qLatestIdx hs.refused hs.dropped hW (fun p _ => hs.level p)
    (fun p => hs.level p ▸ hQ.level p) hused hpids⟩

end ProcTable

namespace Threads

theorem Pids.distinct {t : Table} (h : Pids t) (hb : t.handedOut < 2 ^ 31) : Distinct t :=
  fun p r hp he => h.inj hb p r he (h.used hb p hp)

namespace Kernel

variable {n : ℕ} {k : Kernel n} {c : Fin n} {p : Slot} {t : Table} {f : Proc → Proc}

def Out (k : Kernel n) (p : Slot) : Prop := ∃ c, (k.cpu c).proc = some p ∧ (k.cpu c).ctl = .swtchOut

def Waiting (k : Kernel n) (p : Slot) : Prop := k.table.Ready p ∧ ¬ k.Out p

theorem LockFree.not_out (h : k.LockFree) (p : Slot) : ¬ k.Out p := fun ⟨c, _, hc⟩ => (h c).2 hc

theorem LockFree.setTable (h : k.LockFree) (t : Table) : (k.setTable t).LockFree := h

theorem LockFree.waiting (h : k.LockFree) (p : Slot) : k.Waiting p ↔ k.table.Ready p :=
  and_iff_left (h.not_out p)

theorem out_setCtl {x : Ctl} (hc : (k.cpu c).ctl ≠ .swtchOut) (q : Slot) :
    (k.setCtl c x).Out q ↔ k.Out q ∨ ((k.cpu c).proc = some q ∧ x = .swtchOut) := by
  constructor
  · rintro ⟨d, hd, hx⟩
    by_cases e : d = c
    · subst e
      exact .inr ⟨by simpa [setCtl, setCpu] using hd, by simpa [setCtl, setCpu] using hx⟩
    · exact .inl ⟨d, by simpa [setCtl, setCpu, e] using hd, by simpa [setCtl, setCpu, e] using hx⟩
  · rintro (⟨d, hd, hx⟩ | ⟨hd, hx⟩)
    · have e : d ≠ c := by rintro rfl; exact hc hx
      exact ⟨d, by simpa [setCtl, setCpu, e] using hd, by simpa [setCtl, setCpu, e] using hx⟩
    · exact ⟨c, by simpa [setCtl, setCpu] using hd, by simpa [setCtl, setCpu] using hx⟩

theorem waiting_move {x : Ctl} {u : Table} (hc : (k.cpu c).ctl ≠ .swtchOut) (hx : x ≠ .swtchOut)
    (p : Slot) : ((k.setTable u).setCtl c x).Waiting p ↔ u.Ready p ∧ ¬ k.Out p := by
  unfold Waiting
  rw [out_setCtl (k := k.setTable u) hc]
  simp [hx, Out]

theorem waiting_leave {u : Table} (hc : (k.cpu c).ctl ≠ .swtchOut)
    (hp : (k.cpu c).proc = some p) (r : Slot) :
    ((k.setTable u).setCtl c .swtchOut).Waiting r ↔ u.Ready r ∧ ¬ k.Out r ∧ r ≠ p := by
  unfold Waiting
  rw [out_setCtl (k := k.setTable u) hc]
  simp [hp, Out, not_or, eq_comm]

theorem ready_setProc (hp : ¬ t.Ready p)
    (hf : (f (t.proc p)).state ≠ .runnable) (r : Slot) : (t.setProc p f).Ready r ↔ t.Ready r := by
  unfold Ready
  rw [st_setProc]
  by_cases e : r = p
  · subst e; exact iff_of_false (by simpa using hf) hp
  · rw [Function.update_of_ne e]

theorem ready_setProc_of_ne {r : Slot} (h : r ≠ p) :
    (t.setProc p f).Ready r ↔ t.Ready r := by
  unfold Ready
  rw [st_setProc, Function.update_of_ne h]

theorem ready_setProc_same (hf : (f (t.proc p)).state = (t.proc p).state)
    (r : Slot) : (t.setProc p f).Ready r ↔ t.Ready r := by
  unfold Ready
  rw [st_setProc, hf]
  exact iff_of_eq (congrArg (· = _) (congrFun (Function.update_eq_self p t.st) r))

theorem Turn.sameQueues {l : Label n} {x : Context} (h : k.Turn c p x l t) : SameQueues k.table t := by
  cases h with
  | call => exact .refl _
  | again => exact .setProc _ _ _ rfl

theorem Turn.ready {l : Label n} {x : Context} (h : k.Turn c p x l t) (r : Slot) : t.Ready r ↔ k.table.Ready r := by
  simp [Ready, h.st]

def Mlfq (k : Kernel n) : Prop := InQueues k.table k.Waiting

namespace Mlfq

variable {u : Table} {np p : Slot} {c : Fin n}

theorem quiet {k' : Kernel n} (h : k.Mlfq) (hs : SameQueues k.table k'.table) (hd : Distinct k'.table)
    (hW : ∀ p, k'.Waiting p ↔ k.Waiting p) : k'.Mlfq :=
  h.same hs hW (fun p hp => by rw [show k'.table.st p = .runnable from hp.1]; simp) hd

theorem setTable (h : k.Mlfq) (hs : SameQueues k.table u) (hd : Distinct u)
    (hu : ∀ r, u.Ready r ↔ k.table.Ready r) : (k.setTable u).Mlfq :=
  h.quiet hs hd (fun r => and_congr_left' (hu r))

theorem setMaking (h : k.Mlfq) (key : Option Slot) (m : Making) : (k.setMaking key m).Mlfq := h

theorem free (h : k.Mlfq) (hn : ¬ k.table.Ready np) (hd : Distinct (k.table.freeEmbryo np)) :
    (k.setTable (k.table.freeEmbryo np)).Mlfq := by
  unfold freeEmbryo at hd ⊢
  exact h.setTable (.setProc _ _ _ rfl) hd (ready_setProc hn (by simp))

theorem alloc (h : k.Mlfq) (ha : k.table.allocproc = some (u, np)) (hd : Distinct u) :
    (k.setTable u).Mlfq := by
  obtain ⟨hu, he⟩ := allocproc_eq ha
  have hn : ¬ k.table.Ready np := fun hr => absurd (hr.symm.trans hu) (by simp)
  subst he
  refine h.setTable ⟨rfl, rfl, rfl, rfl, fun p => ?_⟩ hd (fun r => ?_)
  · rw [setProc_proc]
    split_ifs with e
    · rw [e]
    · rfl
  · by_cases e : r = np
    · subst e; exact iff_of_false (by simp [Ready, st]) hn
    · exact ready_setProc_of_ne e

theorem init (h : k.Mlfq) (hn : ¬ k.table.Ready np) :
    (k.setTable (k.table.allocprocTail .mlfq np)).Mlfq :=
  (InQueues.init h (fun hw => hn hw.1)).iff (fun r => and_congr_left' (by simp [Ready, allocprocTail_st]))

theorem lockFree (h : k.Mlfq) (hl : k.LockFree) : InQueues k.table k.table.Ready :=
  h.iff (fun p => (hl.waiting p).symm)

theorem of_ready {k' : Kernel n} {t : Table} (h : InQueues t t.Ready) (ht : k'.table = t)
    (ho : ∀ p, t.Ready p → ¬ k'.Out p) : k'.Mlfq := by
  subst ht
  exact h.iff (fun p => and_iff_left_of_imp (ho p))

theorem make (h : k.Mlfq) (hl : k.LockFree) (hm : k.table.st np = .embryo)
    (hu : u = ((k.table.setProc np (fun r => { r with state := .runnable })).pushBackProcess np 0).1) :
    InQueues u u.Ready := by
  have h1 := (h.lockFree hl).setReady (p := np) (by simp [hm])
  have h2 := h1.push (p := np) (q := 0) (by simp [Ready, hm]) (by decide) (by simp [st])
  subst hu
  refine h2.iff (fun r => ?_)
  by_cases e : r = np
  · subst e; simp [Ready, st, pushBackProcess_state]
  · simp [Ready, st, pushBackProcess_state, e]

theorem leave (h : k.Mlfq) (hc : (k.cpu c).ctl ≠ .swtchOut)
    (hp : (k.cpu c).proc = some p) (hr : k.table.st p = .running) (hs : SameQueues k.table u) (hd : Distinct u)
    (hu : ∀ r, r ≠ p → (u.Ready r ↔ k.table.Ready r)) : ((k.setTable u).setCtl c .swtchOut).Mlfq := by
  refine h.quiet hs hd (fun r => ?_)
  rw [waiting_leave hc hp]
  by_cases e : r = p
  · subst e
    exact iff_of_false (by simp) (fun hw => absurd (hw.1.symm.trans hr) (by simp))
  · simp [hu r e, e, Waiting]

theorem move {x : Ctl} (h : k.Mlfq) (hc : (k.cpu c).ctl ≠ .swtchOut) (hx : x ≠ .swtchOut)
    (hs : SameQueues k.table u) (hd : Distinct u) (hu : ∀ r, u.Ready r ↔ k.table.Ready r) :
    ((k.setTable u).setCtl c x).Mlfq := by
  refine h.quiet hs hd (fun r => ?_)
  rw [waiting_move hc hx, hu r]
  rfl

theorem idle (h : k.Mlfq) (hl : k.LockFree) (hn : (pickMLFQ k.table).2 = none) : (k.setTable (pickMLFQ k.table).1).Mlfq := by
  refine (pickMLFQ_spec (h.lockFree hl)).1.iff (fun r => ?_)
  simp [Waiting, hn, LockFree.not_out hl r, show (k.setTable (pickMLFQ k.table).1).Out r ↔ k.Out r from .rfl]

theorem run (h : k.Mlfq) (hl : k.LockFree) (hp : (pickMLFQ k.table).2 = some p) :
    ((k.setTable (pickMLFQ k.table).1).runOn .mlfq c p).Mlfq := by
  have hrun : (pickMLFQ k.table).1.st p = .runnable := pickMLFQ_runnable hp
  have hq : InQueues (dispatch .mlfq (pickMLFQ k.table).1 p)
      (fun r => (pickMLFQ k.table).1.Ready r ∧ (pickMLFQ k.table).2 ≠ some r) :=
    (pickMLFQ_spec (h.lockFree hl)).1.setProc_same p _ rfl rfl
      (iff_of_false (by simp) (fun e => absurd (hrun.symm.trans e) (by simp)))
  refine hq.iff (fun r => ?_)
  have hout : ¬ ((k.setTable (pickMLFQ k.table).1).runOn .mlfq c p).Out r := by
    rintro ⟨d, -, hd⟩
    by_cases e : d = c
    · subst e; simp [Kernel.runOn, setCpu] at hd
    · exact (hl d).2 (by simpa [Kernel.runOn, setCpu, e] using hd)
  unfold Waiting
  rw [and_iff_left hout, hp]
  by_cases e : r = p
  · subst e; simp [Kernel.runOn, dispatch, Ready, st]
  · simp [Kernel.runOn, dispatch, Ready, st, e, Ne.symm e]

theorem back (h : k.Mlfq) (hi : k.Inv) (hc : (k.cpu c).ctl = .swtchOut)
    (hp : (k.cpu c).proc = some p) : (k.back .mlfq c p).Mlfq := by
  have hout : ∀ r, k.Out r ↔ r = p := by
    refine fun r => ⟨fun ⟨d, hd, hx⟩ => ?_, fun e => ⟨c, e ▸ hp, hc⟩⟩
    obtain rfl := hi.live.lock d c (.inr hx) (.inr hc)
    exact Option.some.inj (hd.symm.trans hp)
  have hout' : ∀ r, ¬ (k.back .mlfq c p).Out r := by
    rintro r ⟨d, hd, hx⟩
    by_cases e : d = c
    · subst e; simp [Kernel.back, release, setCpu] at hx
    · exact e (hi.live.lock d c (.inr (by simpa [Kernel.back, release, setCpu, e] using hx)) (.inr hc))
  refine (requeue_inQueues h (p := p) (fun hw => hw.2 ((hout p).mpr rfl))).iff (fun r => ?_)
  rw [Waiting, and_iff_left (hout' r)]
  change (requeue k.table p).st r = .runnable ↔ _
  rw [requeue_st, Waiting, hout]
  change k.table.Ready r ↔ _
  tauto

end Mlfq

theorem Mlfq.step {k' : Kernel n} {l : Label n} (h : k.Mlfq) (hi : k.Inv) (hs : k.step .mlfq l = some k')
    (hd : Distinct k'.table) : k'.Mlfq := by
  have hrun : ∀ {c p}, (k.cpu c).proc = some p → (k.cpu c).ctl ≠ .swtchOut → k.table.st p = .running :=
    fun hp hc => hi.live.running_of hp hc
  have hembryo : ∀ {key np}, (k.making key).slot = some np → ¬ k.table.Ready np := by
    intro key np hm hr
    exact absurd (hr.symm.trans (hi.live.embryo key np hm)) (by simp)
  cases step_cases hs with
  | userinitAlloc hl hc hm ha | forkAlloc hl hp hm ha => exact h.alloc ha hd
  | userinitTail hc hm =>
    exact (h.init (hembryo (by rw [hm]; rfl))).setTable ⟨rfl, rfl, rfl, rfl, fun _ => rfl⟩ hd (fun _ => .rfl)
  | @userinitDone c p hl hc hm =>
    refine .of_ready (h.make hl (hi.live.embryo _ _ (by rw [hm]; rfl)) rfl) rfl (fun q _ ho => ?_)
    rw [out_setCtl (k := (k.setTable (k.table.userinitRunnable .mlfq p)).setMaking none .idle) (hl c).2] at ho
    simpa using ho.resolve_left (LockFree.not_out hl q)
  | forkNone => exact h
  | forkKalloc hp hm => exact h.init (hembryo (by rw [hm]; rfl))
  | forkNoStack hp hm | forkNoCopy hp hm => exact h.free (hembryo (by rw [hm]; rfl)) hd
  | forkCopyuvm hp hm =>
    rw [setMaking_table, setTable_table] at hd
    exact (h.setTable (.setProc _ _ _ rfl) hd (ready_setProc_same rfl)).setMaking _ _
  | forkDone hl hp hm =>
    exact .of_ready (h.make hl (hi.live.embryo _ _ (by rw [hm]; rfl)) rfl) rfl (fun p _ => LockFree.not_out hl p)
  | @exit c p hl hp hm _ hc =>
    have hr := hrun hp (hl c).2
    refine .of_ready (Evolves.exit (h.lockFree hl) hr).inq rfl (fun q hq ho => ?_)
    rw [out_setCtl (k := k.setTable (k.table.exit .mlfq p)) (hl c).2] at ho
    rcases ho with ho | ⟨ho, -⟩
    · exact LockFree.not_out hl q ho
    · obtain rfl : p = q := Option.some.inj (hp.symm.trans ho)
      simp [Ready, st, Table.exit] at hq
  | @reap l c p q x t ht hq =>
    have hz : t.st q = .zombie := (waitScan_reap hq).2
    refine h.move ht.ne_out (by simp) (ht.sameQueues.trans (.setProc _ _ _ rfl)) hd (fun r => ?_)
    exact (ready_setProc (by simp [Ready, hz]) (by simp) r).trans (ht.ready r)
  | waitFail ht => exact h.move ht.ne_out (by simp) ht.sameQueues hd ht.ready
  | waitSleep ht =>
    refine h.leave ht.ne_out ht.proc (hrun ht.proc ht.ne_out) (ht.sameQueues.trans (.setProc _ _ _ rfl)) hd (fun r hne => ?_)
    exact (ready_setProc_of_ne hne).trans (ht.ready r)
  | sleep hl hp | demoteYield hl hp =>
    exact h.leave (hl _).2 hp.2 (hrun hp.2 (hl _).2) (.setProc _ _ _ rfl) hd (fun r hne => ready_setProc_of_ne hne)
  | @wakeup c addr hl hc =>
    have hw := (Evolves.wakeup1 (h.lockFree hl) (some (.addr addr))).inq
    exact .of_ready hw (setTable_table k _) (fun p _ => (hl.setTable _).not_out p)
  | kill hl hp hm => exact .of_ready (Evolves.kill (h.lockFree hl) _).inq rfl (fun p _ => LockFree.not_out hl p)
  | setPriority hl hp hm => exact h.setTable (.setPriority _ _ _) hd (fun r => by simp [Ready, setPriority_st])
  | fault hp =>
    rw [setTable_table] at hd
    exact h.setTable (.setProc _ _ _ rfl) hd (ready_setProc_same rfl)
  | tick hl hc h0 =>
    refine h.move (hl _).2 (by split_ifs <;> simp) (.tick _) hd (fun r => ?_)
    simp [Ready, st, Table.tick, updateProcessStats, tickProc_keeps]
  | timer hl hc h0 => exact h.move (hl _).2 (by split_ifs <;> simp) (.refl _) hd (fun _ => .rfl)
  | trapUser hl hp => exact h.move (hl _).2 (by simp) (.refl _) hd (fun _ => .rfl)
  | trapDemote hl hp => exact h.move (hl _).2 (by simp) (.setProc _ _ _ rfl) hd (ready_setProc_same rfl)
  | trapYield hl hp hb => rcases hb with e | e <;> cases e
  | idle hl hc hn => exact h.idle hl hn
  | run hp =>
    cases hp with
    | schedule hl hc hp => exact h.run hl hp
    | back hb => cases hb
  | resumeUser hp => exact h.move (by simp [hp.1]) (by simp) (.refl _) hd (fun _ => .rfl)
  | resumeSleep hp => exact h.move (by simp [hp.1]) (by simp) (.setProc _ _ _ rfl) hd (ready_setProc_same rfl)
  | @back c p i hp hn he =>
    subst he
    exact h.back hi hp.1 hp.2

theorem Mlfq.start : (start n).Mlfq := by
  have hw : ∀ p, ¬ (Kernel.start n).Waiting p := fun p hp => by cases hp.1
  exact ⟨fun _ => [], ⟨fun _ _ => rfl, fun _ _ _ hi => absurd hi (Nat.not_lt_zero _),
    fun _ _ p => iff_of_false List.not_mem_nil (fun h => hw p h.1), fun _ _ => List.nodup_nil,
    fun _ => Nat.succ_pos 4, fun p hp => absurd hp (hw p), Pids.start.distinct (by decide), rfl, rfl⟩⟩

end Kernel

variable {n : ℕ}

theorem reachable_mlfq {k : Kernel n} (h : (machine .mlfq n).Reachable k) (hb : k.table.handedOut < 2 ^ 31) :
    k.Mlfq := by
  refine ReachableWhere.invariant h (P := fun k => k.table.handedOut < 2 ^ 31 → k.Mlfq) ?_ ?_ hb
  · exact fun _ e _ => e ▸ Kernel.Mlfq.start
  · intro k l k' hr hk _ hs hb'
    have hi := reachable_inv hr.reachable
    have hd := ((hi.effect hs).pids (reachable_pids hr.reachable)).distinct hb'
    exact (hk (lt_of_le_of_lt (handedOut_mono hi hs) hb')).step hi hs hd

structure QueuesExact (t : Table) : Prop where
  entry : ∀ q < 5, ∀ i : ℕ, (i : ℤ) ≤ t.qLatestIdx q →
    ∃ p, t.queuePtr q i = some p ∧ (t.proc p).state = .runnable ∧ (t.proc p).currQueueId = q
  once : ∀ q < 5, ∀ r < 5, ∀ i j : ℕ, (i : ℤ) ≤ t.qLatestIdx q → (j : ℤ) ≤ t.qLatestIdx r →
    t.queuePtr q i = t.queuePtr r j → q = r ∧ i = j
  listed : ∀ p, (t.proc p).state = .runnable →
    (t.proc p).currQueueId < 5 ∧ ∃ i : ℕ, (i : ℤ) ≤ t.qLatestIdx (t.proc p).currQueueId ∧
      t.queuePtr (t.proc p).currQueueId i = some p
  bounds : ∀ q < 5, -1 ≤ t.qLatestIdx q ∧ t.qLatestIdx q ≤ 63

theorem queuesExact_of_queued {t : Table} {Q : ℕ → List Slot} (h : Queued t t.Ready Q) : QueuesExact t where
  entry q hq i hi := by
    have hlast := h.last q hq
    have hlt : i < (Q q).length := by omega
    have hp : t.queuePtr q i = some (Q q)[i] := by rw [h.ptr q hq i hlt, List.getElem?_eq_getElem hlt]
    exact ⟨_, hp, h.ptr_mem hq hlt hp⟩
  once q hq r hr i j hi hj he := by
    have hlq := h.last q hq
    have hlr := h.last r hr
    have hi' : i < (Q q).length := by omega
    have hj' : j < (Q r).length := by omega
    have hp : t.queuePtr q i = some (Q q)[i] := by rw [h.ptr q hq i hi', List.getElem?_eq_getElem hi']
    have hqr : q = r := (h.ptr_mem hq hi' hp).2.symm.trans (h.ptr_mem hr hj' (he ▸ hp)).2
    subst hqr
    rw [h.ptr q hq i hi', h.ptr q hq j hj'] at he
    exact ⟨rfl, (h.nodup q hq).getElem_inj_iff.mp (by simpa [hi', hj'] using he)⟩
  listed p hp := by
    have hq := h.level p
    obtain ⟨i, hi, he⟩ := List.mem_iff_getElem.mp ((h.mem _ hq p).mpr ⟨hp, rfl⟩)
    have hlast := h.last _ hq
    exact ⟨hq, i, by omega, by rw [h.ptr _ hq i hi, List.getElem?_eq_getElem hi, he]⟩
  bounds q hq := by
    have hlast := h.last q hq
    have hcard : (Q q).length ≤ 64 := by simpa using (h.nodup q hq).length_le_card
    omega

theorem mlfq_queues_exact (k : Kernel n) (h : (machine .mlfq n).Reachable k) (hb : k.table.handedOut < 2 ^ 31) :
    (k.LockFree → QueuesExact k.table) ∧ k.table.refused = 0 ∧ k.table.dropped = 0 := by
  have hm := reachable_mlfq h hb
  refine ⟨fun hl => ?_, ?_⟩
  · obtain ⟨Q, hQ⟩ := hm.lockFree hl
    exact queuesExact_of_queued hQ
  · obtain ⟨Q, hQ⟩ := hm
    exact ⟨hQ.refused, hQ.dropped⟩

theorem mlfq_queues_exact_fork : ∃ k : Kernel 1, k.table.qLatestIdx 0 = 0 ∧ QueuesExact k.table := by
  have hrun : ((machine .mlfq 1).run (Kernel.start 1) (boot ++ fork)).any (fun k =>
      k.table.qLatestIdx 0 = 0 && decide (k.table.handedOut < 2 ^ 31) && decide k.LockFree) := by decide +kernel
  obtain ⟨k, hr, hp⟩ := exists_reachable rfl hrun
  simp only [Bool.and_eq_true, decide_eq_true_eq] at hp
  exact ⟨k, hp.1.1, (mlfq_queues_exact k hr hp.1.2).1 hp.2⟩

end Threads

end EnhancedXv6
