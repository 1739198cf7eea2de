import EnhancedXv6.Writes
import EnhancedXv6.PidWrap
import EnhancedXv6.QueueOrder

namespace EnhancedXv6

open ProcTable Table Scheduler

namespace ProcTable

variable {t : Table} {p r : Slot}

structure Rouses (t u : Table) : Prop where
  asleep : ∀ p, u.st p = .sleeping → t.st p = .sleeping
  level : ∀ p, (u.proc p).currQueueId = (t.proc p).currQueueId
  wait : ∀ p, (u.proc p).currWaitTime = (t.proc p).currWaitTime
  flag : ∀ p, (u.proc p).shouldDemote = (t.proc p).shouldDemote
  got : ∀ p, t.st p ≠ .sleeping → (u.proc p).currTicksGot = (t.proc p).currTicksGot

namespace Rouses

variable {t u v : Table}

theorem of_share (h : ∀ p, (u.proc p).share = (t.proc p).share) (hs : ∀ p, u.st p = .sleeping → t.st p = .sleeping) :
    Rouses t u := by
  have hp := fun p => share_eq.mp (h p)
  exact ⟨hs, fun p => (hp p).1, fun p => (hp p).2.2.1, fun p => (hp p).2.2.2, fun p _ => (hp p).2.1⟩

theorem refl (t : Table) : Rouses t t := of_share (fun _ => rfl) (fun _ => id)

theorem trans (h : Rouses t u) (k : Rouses u v) : Rouses t v where
  asleep p hp := h.asleep p (k.asleep p hp)
  level p := (k.level p).trans (h.level p)
  wait p := (k.wait p).trans (h.wait p)
  flag p := (k.flag p).trans (h.flag p)
  got p hp := (k.got p (fun hu => hp (h.asleep p hu))).trans (h.got p hp)

theorem foldl {f : Table → Slot → Table} (hf : ∀ t p, Rouses t (f t p)) (ps : List Slot) (t : Table) :
    Rouses t (ps.foldl f t) := by
  induction ps generalizing t with
  | nil => exact refl t
  | cons p ps ih => exact (hf t p).trans (ih (f t p))

theorem setProc (t : Table) (p : Slot) (f : Proc → Proc) (hf : ∀ r, (f r).share = r.share)
    (hs : ∀ r, (f r).state = .sleeping → r.state = .sleeping) : Rouses t (t.setProc p f) := by
  refine of_share (Frame.setProc t p f hf).proc (fun q hq => ?_)
  by_cases e : q = p
  · subst e
    rw [st, setProc_self] at hq
    exact hs _ hq
  · rw [st, setProc_of_ne _ _ _ _ e] at hq
    exact hq

theorem pushBack (t : Table) (p : Slot) : Rouses t (t.pushBackProcess p (t.proc p).currQueueId).1 := by
  refine of_share (fun r => ?_) (fun r hr => ?_)
  · by_cases e : r = p
    · subst e
      rcases pushBackProcess_proc t r r (t.proc r).currQueueId with h | h <;> rw [h]
    · rw [pushBackProcess_of_ne _ _ e]
  · rw [pushBackProcess_st] at hr
    exact hr

theorem wakeOne (b : Build) (chan : Option Chan) (t : Table) (p : Slot) : Rouses t (wakeOne b chan t p) := by
  have h1 : Rouses t (t.setProc p (fun r => { r with state := .runnable })) :=
    setProc _ _ _ (fun _ => rfl) (fun _ h => by cases h)
  unfold Table.wakeOne
  split_ifs with hs hb
  · have hgot : Rouses t ((t.setProc p (fun r => { r with state := .runnable })).setProc p
        (fun r => { r with currTicksGot := 0 })) := by
      refine ⟨fun q hq => ?_, fun q => ?_, fun q => ?_, fun q => ?_, fun q hq => ?_⟩
      all_goals by_cases e : q = p
      any_goals subst e
      · exact hs.1
      · simpa [st, e] using hq
      · simp
      · simp [e]
      · simp
      · simp [e]
      · simp
      · simp [e]
      · exact absurd hs.1 hq
      · simp [e]
    exact hgot.trans (pushBack _ p)
  · exact h1
  · exact refl t

theorem wakeup1 (b : Build) (t : Table) (chan : Option Chan) : Rouses t (t.wakeup1 b chan) := foldl (wakeOne b chan) _ t

theorem reparentOne (b : Build) (curproc : Slot) (t : Table) (p : Slot) : Rouses t (reparentOne b curproc t p) := by
  have hset : Rouses t (t.setProc p (fun r => { r with parent := t.initproc })) :=
    setProc _ _ _ (fun _ => rfl) (fun _ => id)
  unfold Table.reparentOne
  split
  · dsimp only
    split
    · exact hset.trans (wakeup1 _ _ _)
    · exact hset
  · exact refl t

theorem exit (b : Build) (t : Table) (p : Slot) : Rouses t (t.exit b p) := by
  have hw := wakeup1 b t ((t.proc p).parent.map .proc)
  have hr := hw.trans (foldl (reparentOne b p) slots _)
  unfold Table.exit
  dsimp only
  generalize slots.foldl (Table.reparentOne b p) (t.wakeup1 b _) = u at hr ⊢
  refine hr.trans (setProc u p _ (fun _ => rfl) (fun _ h => ?_))
  cases h

theorem kill (b : Build) (t : Table) (pid : ℤ) : Rouses t (t.kill b pid).1 := by
  unfold Table.kill
  split
  · exact refl t
  · rename_i p hp
    have hmark : Rouses t (t.setProc p (fun r => { r with killed := true })) :=
      setProc _ _ _ (fun _ => rfl) (fun _ => id)
    dsimp only
    split_ifs
    · have hpush := hmark.trans (pushBack _ p)
      refine hpush.trans (setProc _ p (fun r => { r with state := .runnable }) (fun _ => rfl) (fun _ h => ?_))
      cases h
    · refine hmark.trans (setProc _ p (fun r => { r with state := .runnable }) (fun _ => rfl) (fun _ h => ?_))
      cases h
    · exact hmark

end Rouses

theorem tickProc_share (r : Proc) :
    (tickProc .mlfq r).currQueueId = r.currQueueId ∧ (tickProc .mlfq r).shouldDemote = r.shouldDemote ∧
      (tickProc .mlfq r).currTicksGot ≤ (if r.state = .running then r.currTicksGot + 1 else r.currTicksGot) ∧
      ((tickProc .mlfq r).currWaitTime = r.currWaitTime ∨
        r.state = .runnable ∧ (tickProc .mlfq r).currWaitTime = r.currWaitTime + 1) := by
  unfold tickProc
  by_cases hs : r.killed = true ∨ r.pid = 0
  · rw [if_pos hs]
    refine ⟨rfl, rfl, ?_, .inl rfl⟩
    split_ifs <;> omega
  · rw [if_neg hs]
    cases hr : r.state <;> simp

theorem demote_self (h : (t.proc p).shouldDemote = true) :
    ((demote t p).proc p).currQueueId =
        (if (t.proc p).currQueueId < 4 then (t.proc p).currQueueId + 1 else (t.proc p).currQueueId) ∧
      ((demote t p).proc p).currWaitTime = 0 ∧ ((demote t p).proc p).shouldDemote = false := by
  unfold demote
  rw [if_pos h, setProc_self]
  exact ⟨rfl, rfl, rfl⟩

theorem demote_of_ne (t : Table) (h : r ≠ p) : (demote t p).proc r = t.proc r := by
  unfold demote
  split_ifs
  · exact setProc_of_ne _ _ _ _ h
  · rfl

theorem requeue_of_ne (t : Table) (h : r ≠ p) : (requeue t p).proc r = t.proc r := by
  unfold requeue
  split_ifs
  · dsimp only
    rw [pushBackProcess_of_ne _ _ h, demote_of_ne _ h]
  · rfl

theorem requeue_unmarked
    (h : (t.proc p).shouldDemote = true → (t.proc p).state = .runnable) :
    ((requeue t p).proc p).shouldDemote = false := by
  unfold requeue
  split_ifs with hs
  · refine ((Rouses.pushBack (demote t p) p).flag p).trans ?_
    by_cases hd : (t.proc p).shouldDemote = true
    · exact (demote_self hd).2.2
    · rw [demote, if_neg hd]
      simpa using hd
  · simpa using mt h hs

theorem dispatch_self (t : Table) (p : Slot) :
    ((dispatch .mlfq t p).proc p).currQueueId = (t.proc p).currQueueId ∧
      ((dispatch .mlfq t p).proc p).currTicksGot = 0 ∧ ((dispatch .mlfq t p).proc p).currWaitTime = 0 ∧
      ((dispatch .mlfq t p).proc p).shouldDemote = (t.proc p).shouldDemote := by
  unfold dispatch
  rw [setProc_self]
  exact ⟨rfl, rfl, rfl, rfl⟩

theorem dispatch_of_ne (b : Build) (t : Table) (h : r ≠ p) : (dispatch b t p).proc r = t.proc r :=
  setProc_of_ne _ _ _ _ h

theorem allocprocTail_self (t : Table) (p : Slot) :
    ((t.allocprocTail .mlfq p).proc p).currQueueId = 0 ∧ ((t.allocprocTail .mlfq p).proc p).currTicksGot = 0 ∧
      ((t.allocprocTail .mlfq p).proc p).currWaitTime = 0 ∧
      ((t.allocprocTail .mlfq p).proc p).shouldDemote = (t.proc p).shouldDemote := by
  simp [allocprocTail, initializeNewFields]

theorem allocproc_share {u : Table} {np : Slot} (ha : t.allocproc = some (u, np)) : Rouses t u := by
  obtain ⟨hn, rfl⟩ := Threads.Kernel.allocproc_eq ha
  refine Rouses.trans (u := { t with nextpid := i32 (t.nextpid + 1), handedOut := t.handedOut + 1 })
    (.of_share (fun _ => rfl) (fun _ => id)) ?_
  apply Rouses.setProc
  · intro r
    rfl
  · intro r h
    cases h

theorem reap_share (t : Table) (q : Slot) : Frame Proc.share t (t.reap q) := .setProc _ _ _ (fun _ => rfl)

theorem freeEmbryo_share (t : Table) (np : Slot) : Rouses t (t.freeEmbryo np) := by
  apply Rouses.setProc
  · intro r
    rfl
  · intro r h
    cases h

theorem startRunnable_of_ne (t : Table) {np : Slot} (h : p ≠ np) :
    ((t.setProc np (fun r => { r with state := .runnable })).pushBackProcess np 0).1.proc p = t.proc p := by
  rw [pushBackProcess_of_ne _ _ h, setProc_of_ne _ _ _ _ h]

theorem startRunnable_flag (t : Table) (np : Slot) :
    (((t.setProc np (fun r => { r with state := .runnable })).pushBackProcess np 0).1.proc np).shouldDemote =
      (t.proc np).shouldDemote := by
  rcases pushBackProcess_proc (t.setProc np (fun r => { r with state := .runnable })) np np 0 with h | h
  · rw [h, setProc_self]
  · rw [h, setProc_self]

theorem setPriority_share (t : Table) (v pid : ℤ) : Rouses t (t.setPriority v pid).1 := by
  refine .of_share (Frame.setPriority (fun _ _ => rfl) t v pid).proc (fun p hp => ?_)
  rw [setPriority_st] at hp
  exact hp

end ProcTable

namespace Threads

open Transition

variable {k : Kernel 1} {p : Slot}

namespace Kernel

variable {n : ℕ} {k k' : Kernel n} {l : Label n}

def Calm (k : Kernel n) (u : Table) (p : Slot) : Prop :=
  (u.st p = .running → k.table.st p = .running) ∧ (u.st p = .runnable → k.table.st p ≠ .embryo)

theorem Calm.of_st {u : Table} {p : Slot} (h : u.st p = k.table.st p) : Calm k u p := by
  constructor <;> intro hu <;> rw [← h, hu]
  simp

theorem Calm.update {u v : Table} {p q : Slot} {x : ProcState} (h : v.st = Function.update u.st q x)
    (hu : u.st = k.table.st) (hr : x ≠ .running) (hn : x ≠ .runnable) : Calm k v p := by
  by_cases e : p = q
  · subst e
    have hx : v.st p = x := by rw [h, Function.update_self]
    exact ⟨fun hv => absurd (hx.symm.trans hv) hr, fun hv => absurd (hx.symm.trans hv) hn⟩
  · exact .of_st (by rw [h, Function.update_of_ne e, hu])

inductive Shares (k : Kernel n) : Label n → Table → Slot → Prop
  | keep {l : Label n} {u : Table} {p : Slot} (hi : k.initialises l ≠ some p)
      (hr : k.Calm u p) (hl : (u.proc p).currQueueId = (k.table.proc p).currQueueId)
      (hw : (u.proc p).currWaitTime = (k.table.proc p).currWaitTime)
      (hf : (u.proc p).shouldDemote = (k.table.proc p).shouldDemote)
      (hg : k.table.st p ≠ .sleeping → (u.proc p).currTicksGot = (k.table.proc p).currTicksGot) : Shares k l u p
  | init {l : Label n} {u : Table} {p : Slot} (he : k.table.st p = .embryo) (hs : u.st p = .embryo)
      (hw : (u.proc p).currWaitTime = 0) (hf : (u.proc p).shouldDemote = (k.table.proc p).shouldDemote) : Shares k l u p
  | start {l : Label n} {u : Table} {p : Slot} (hi : k.initialises l ≠ some p) (he : k.table.st p = .embryo) (hs : u.st p = .runnable)
      (hl : (u.proc p).currQueueId = 0) (hw : (u.proc p).currWaitTime = (k.table.proc p).currWaitTime)
      (hf : (u.proc p).shouldDemote = (k.table.proc p).shouldDemote) : Shares k l u p
  | tick {c : Fin n} {u : Table} {p : Slot} (hc : c.val = 0) (hp : u.proc p = tickProc .mlfq (k.table.proc p)) :
      Shares k (.timer c) u p
  | expire {c : Fin n} {u : Table} {p : Slot} (hc : (k.cpu c).ctl = .trap) (hp : (k.cpu c).proc = some p)
      (hu : u.proc p = { k.table.proc p with shouldDemote := true }) : Shares k (.trapTail c) u p
  | promote {c : Fin n} {u : Table} {p : Slot} (hk : k.LockFree) (hs : k.table.st p = .runnable) (hp : Promotes k.table u p)
      (hg : u.st p = .running → (u.proc p).currTicksGot = 0) : Shares k (.schedule c) u p
  | dispatch {c : Fin n} {u : Table} {p : Slot} (hs : k.table.st p = .runnable) (hr : u.st p = .running)
      (hl : (u.proc p).currQueueId = (k.table.proc p).currQueueId) (hw : (u.proc p).currWaitTime = 0)
      (hf : (u.proc p).shouldDemote = (k.table.proc p).shouldDemote) (hg : (u.proc p).currTicksGot = 0) :
      Shares k (.schedule c) u p
  | demote {c : Fin n} {u : Table} {p : Slot} (hc : (k.cpu c).ctl = .swtchOut) (hp : (k.cpu c).proc = some p)
      (hs : k.table.st p = .runnable) (hr : u.st p = .runnable) (hd : (k.table.proc p).shouldDemote = true)
      (hl : (u.proc p).currQueueId = if (k.table.proc p).currQueueId < 4 then (k.table.proc p).currQueueId + 1
        else (k.table.proc p).currQueueId)
      (hw : (u.proc p).currWaitTime = 0) (hf : (u.proc p).shouldDemote = false) : Shares k (.back c) u p

namespace Shares

variable {p : Slot} {u : Table}

theorem congr {v : Table} (h : Shares k l u p) (hv : v.proc p = u.proc p) : Shares k l v p := by
  have hst : v.st p = u.st p := congrArg Proc.state hv
  cases h with
  | keep hi hr hl hw hf hg =>
    refine .keep hi (by unfold Calm; rw [hst]; exact hr) ?_ ?_ ?_ ?_
    all_goals rw [hv]; assumption
  | init he hs hw hf => exact .init he (hst.trans hs) (by rw [hv]; exact hw) (by rw [hv]; exact hf)
  | start hi he hs hl hw hf =>
    refine .start hi he (hst.trans hs) ?_ ?_ ?_
    all_goals rw [hv]; assumption
  | tick hc hp => exact .tick hc (hv.trans hp)
  | expire hc hp hu => exact .expire hc hp (hv.trans hu)
  | promote hk hs hp hg =>
    refine .promote hk hs ⟨hp.pos, hp.waited, ?_, ?_, ?_⟩ (by rw [hst, hv]; exact hg)
    · rw [hv]
      exact hp.level
    · rw [hv]
      exact hp.wait
    · rw [hv]
      exact hp.flag
  | dispatch hs hr hl hw hf hg =>
    refine .dispatch hs (hst.trans hr) ?_ ?_ ?_ ?_
    all_goals rw [hv]; assumption
  | demote hc hp hs hr hd hl hw hf =>
    refine .demote hc hp hs (hst.trans hr) hd ?_ ?_ ?_
    all_goals rw [hv]; assumption

theorem of_eq (hi : k.initialises l ≠ some p) (hu : u.proc p = k.table.proc p) : Shares k l u p := by
  exact .keep hi (.of_st (congrArg Proc.state hu)) (by rw [hu]) (by rw [hu]) (by rw [hu]) (fun _ => by rw [hu])

theorem of_frame (hi : k.initialises l ≠ some p) (hr : k.Calm u p)
    (hf : Frame Proc.share k.table u) : Shares k l u p := by
  obtain ⟨hl, hg, hw, hd⟩ := share_eq.mp (hf.proc p)
  exact .keep hi hr hl hw hd (fun _ => hg)

theorem of_rouses (hi : k.initialises l ≠ some p) (hr : k.Calm u p)
    (h : Rouses k.table u) : Shares k l u p :=
  .keep hi hr (h.level p) (h.wait p) (h.flag p) (h.got p)

theorem of_init {np : Slot} (hn : k.table.st np = .embryo) (hi : k.initialises l = some np)
    (hu : u.proc = (k.table.allocprocTail .mlfq np).proc) : Shares k l u p := by
  by_cases e : p = np
  · subst e
    obtain ⟨-, -, hw, hf⟩ := allocprocTail_self k.table p
    rw [← hu] at hw hf
    refine .init hn ?_ hw hf
    rw [st, hu]
    change (k.table.allocprocTail .mlfq p).st p = _
    rw [allocprocTail_st, hn]
  · refine of_eq (by rw [hi]; simpa using Ne.symm e) ?_
    rw [hu, allocprocTail_of_ne _ _ e]

theorem of_make {np : Slot} (h : k.Mlfq) (hl : k.LockFree) (hn : k.table.st np = .embryo)
    (hi : k.initialises l = none)
    (hu : u = ((k.table.setProc np (fun r => { r with state := .runnable })).pushBackProcess np 0).1) :
    Shares k l u p := by
  have h1 := (h.lockFree hl).setReady (p := np) (by simp [hn])
  have hproc := h1.push_proc (p := np) (q := 0) (by simp [Ready, hn]) (by decide) (by simp [st])
  rw [setProc_self] at hproc
  subst hu
  by_cases e : p = np
  · subst e
    refine .start (by rw [hi]; simp) hn ?_ ?_ ?_ ?_
    · rw [st, hproc]
    all_goals rw [hproc]
  · refine of_eq (by rw [hi]; simp) ?_
    rw [pushBackProcess_of_ne _ _ e, setProc_of_ne _ _ _ _ e]

theorem of_pick (h : k.Mlfq) (hl : k.LockFree) (c : Fin n) : Shares k (.schedule c) (pickMLFQ k.table).1 p := by
  have hst := congrFun (pickMLFQ_st k.table) p
  rcases (pickMLFQ_spec (h.lockFree hl)).2.2 p with hs | ⟨hr, -, hp⟩
  · obtain ⟨hq, hg, hw, hf⟩ := share_eq.mp hs
    exact .keep (by simp [initialises]) (.of_st hst) hq hw hf (fun _ => hg)
  · refine .promote hl hr hp (fun hrun => ?_)
    rw [hst, show k.table.st p = .runnable from hr] at hrun
    cases hrun

theorem of_run {q : Slot} (h : k.Mlfq) (hl : k.LockFree) (c : Fin n) (hq : (pickMLFQ k.table).2 = some q) :
    Shares k (.schedule c) (Scheduler.dispatch .mlfq (pickMLFQ k.table).1 q) p := by
  by_cases e : p = q
  · subst e
    have hr : k.table.st p = .runnable := by
      rw [← pickMLFQ_st]
      exact pickMLFQ_runnable hq
    obtain ⟨dl, dg, dw, df⟩ := dispatch_self (pickMLFQ k.table).1 p
    have hrun : (Scheduler.dispatch .mlfq (pickMLFQ k.table).1 p).st p = .running := by simp [Scheduler.dispatch, st]
    rcases (pickMLFQ_spec (h.lockFree hl)).2.2 p with hs | ⟨-, -, hp⟩
    · obtain ⟨hl', -, -, hf⟩ := share_eq.mp hs
      exact .dispatch hr hrun (dl.trans hl') dw (df.trans hf) dg
    · exact .promote hl hr ⟨hp.pos, hp.waited, by rw [dl]; exact hp.level, dw, df.trans hp.flag⟩ (fun _ => dg)
  · exact (of_pick h hl c).congr (dispatch_of_ne .mlfq _ e)

theorem of_back {c : Fin n} {q : Slot} (hc : (k.cpu c).ctl = .swtchOut) (hq : (k.cpu c).proc = some q) :
    Shares k (.back c) (requeue k.table q) p := by
  have hi : k.initialises (.back c) ≠ some p := by simp [initialises]
  by_cases e : p = q
  · subst e
    have hst := congrFun (requeue_st k.table p) p
    have hpush := Rouses.pushBack (Scheduler.demote k.table p) p
    unfold requeue at hst ⊢
    split_ifs at hst ⊢ with hs
    · by_cases hd : (k.table.proc p).shouldDemote = true
      · obtain ⟨dl, dw, df⟩ := demote_self hd
        exact .demote hc hq hs (hst.trans hs) hd ((hpush.level p).trans dl) ((hpush.wait p).trans dw)
          ((hpush.flag p).trans df)
      · have he : Scheduler.demote k.table p = k.table := if_neg hd
        rw [he] at hpush hst ⊢
        exact of_rouses hi (.of_st hst) hpush
    · exact of_eq hi rfl
  · exact of_eq hi (requeue_of_ne _ e)

end Shares

theorem Inv.ran {b : Build} (h : k.Inv) (hs : k.step b l = some k') (hd : .dispatch ∉ l.arrows) {p : Slot}
    (hp : k'.table.st p = .running) : k.table.st p = .running := by
  by_contra hne
  obtain ⟨a, ha, -, htgt⟩ := h.moves hs p (by rw [hp]; exact Ne.symm hne)
  rw [hp] at htgt
  cases a <;> cases htgt
  exact hd ha

theorem Inv.calm {b : Build} (h : k.Inv) (hs : k.step b l = some k') (hd : .dispatch ∉ l.arrows) (hn : .start ∉ l.arrows)
    (p : Slot) : k.Calm k'.table p := by
  refine ⟨h.ran hs hd, fun hp he => ?_⟩
  obtain ⟨a, ha, hsrc, htgt⟩ := h.moves hs p (by simp [hp, he])
  rw [hp] at htgt
  rw [he] at hsrc
  cases a <;> cases htgt <;> cases hsrc
  exact hn ha

theorem Mlfq.shares (h : k.Mlfq) (hi : k.Inv) (hs : k.step .mlfq l = some k') (p : Slot) :
    Shares k l k'.table p := by
  have hrouse (hx : k.initialises l ≠ some p ∧ .dispatch ∉ l.arrows ∧ .start ∉ l.arrows) (hr : Rouses k.table k'.table) :
      Shares k l k'.table p := .of_rouses hx.1 (hi.calm hs hx.2.1 hx.2.2 p) hr
  have hframe (hx : k.initialises l ≠ some p ∧ .dispatch ∉ l.arrows ∧ .start ∉ l.arrows)
      (hf : Frame Proc.share k.table k'.table) : Shares k l k'.table p := .of_frame hx.1 (hi.calm hs hx.2.1 hx.2.2 p) hf
  cases step_cases hs with
  | userinitAlloc hl hc hm ha | forkAlloc hl hp hm ha => exact hrouse (by simp [initialises, Label.arrows]) (allocproc_share ha)
  | userinitTail hc hm =>
    exact .of_init (hi.live.embryo none _ (by rw [hm]; rfl)) (by rw [initialises, hm]; rfl) rfl
  | userinitDone hl hc hm | forkDone hl hp hm => exact .of_make h hl (hi.live.embryo _ _ (by rw [hm]; rfl)) rfl rfl
  | @forkKalloc c q np hp hm =>
    have hin : k.initialises (.forkKalloc c true) = some np := by
      rw [initialises, procAt_eq.mpr hp, Option.bind_some, hm]
      rfl
    exact .of_init (hi.live.embryo (some q) np (by rw [hm]; rfl)) hin rfl
  | forkNoStack | forkNoCopy => exact hframe (by simp [initialises, Label.arrows]) (.setState _ _ _)
  | forkCopyuvm => exact hframe (by simp [initialises, Label.arrows]) (.setParent _ _ _)
  | exit => exact hrouse (by simp [initialises, Label.arrows]) (.exit _ _ _)
  | reap ht =>
    exact hframe (by simp [initialises_of_quiet ht.quiet, ht.arrows]) (ht.frame.trans (reap_share _ _))
  | waitFail ht => exact hframe (by simp [initialises_of_quiet ht.quiet, ht.arrows]) ht.frame
  | waitSleep ht => exact hframe (by simp [initialises_of_quiet ht.quiet, ht.arrows]) (ht.frame.trans (.goSleep _ _ _ _))
  | sleep => exact hframe (by simp [initialises, Label.arrows]) (.goSleep _ _ _ _)
  | wakeup =>
    rw [setTable_table] at hrouse ⊢
    exact hrouse (by simp [initialises, Label.arrows]) (.wakeup1 _ _ _)
  | kill => exact hrouse (by simp [initialises, Label.arrows]) (.kill _ _ _)
  | setPriority => exact hrouse (by simp [initialises, Label.arrows]) (setPriority_share _ _ _)
  | fault => exact hframe (by simp [initialises, Label.arrows]) (.mark _ _)
  | tick hl hc h0 => exact .tick h0 rfl
  | @trapDemote c q hl hp =>
    by_cases e : p = q
    · subst e
      refine .expire hp.1 hp.2 ?_
      rw [setCtl_table, setTable_table, setupDemotion, setProc_self]
    · refine .of_eq (by simp [initialises]) ?_
      rw [setCtl_table, setTable_table, setupDemotion, setProc_of_ne _ _ _ _ e]
  | trapYield hl hp hb => rcases hb with e | e <;> cases e
  | demoteYield => exact hframe (by simp [initialises, Label.arrows]) (.yield _ _)
  | idle hl => exact .of_pick h hl _
  | run hp =>
    cases hp with
    | schedule hl hc hp => exact .of_run h hl _ hp
    | back hb => cases hb
  | resumeSleep => exact hframe (by simp [initialises, Label.arrows]) (.wakeSleeper _ _)
  | back hp => exact .of_back hp.1 hp.2
  | forkNone | timer | trapUser | resumeUser => exact .of_eq (by simp [initialises]) rfl

end Kernel

def Ctl.Slice : Ctl → Proc → Prop
  | .user, r => r.shouldDemote = false ∧ r.currTicksGot ≤ runtimeLimit r.currQueueId
  | .swtchIn, r => r.shouldDemote = false ∧ r.currTicksGot ≤ runtimeLimit r.currQueueId
  | .trap, r => r.shouldDemote = false ∧ r.currTicksGot ≤ runtimeLimit r.currQueueId + 1
  | .demote, r => r.currTicksGot = runtimeLimit r.currQueueId + 1
  | .swtchOut, r => r.shouldDemote = true → r.state = .runnable ∧ r.currTicksGot = runtimeLimit r.currQueueId + 1
  | _, _ => True

theorem Ctl.Slice.congr {x : Ctl} {r s : Proc} (h : x.Slice r) (hx : x ≠ .swtchOut) (hl : s.currQueueId = r.currQueueId)
    (hg : s.currTicksGot = r.currTicksGot) (hf : s.shouldDemote = r.shouldDemote) : x.Slice s := by
  cases x <;> simp_all [Ctl.Slice]

theorem Ctl.Slice.got_le {x : Ctl} {r : Proc} (h : x.Slice r) (hx : x ≠ .swtchOut) (hb : x ≠ .boot) (hi : x ≠ .idle) :
    r.currTicksGot ≤ runtimeLimit r.currQueueId + 1 := by
  cases x with
  | boot => exact absurd rfl hb
  | idle => exact absurd rfl hi
  | user =>
    have := h.2
    omega
  | trap => exact h.2
  | demote => exact le_of_eq h
  | swtchIn =>
    have := h.2
    omega
  | swtchOut => exact absurd rfl hx

structure Kernel.Sliced (k : Kernel 1) : Prop where
  others : ∀ p, (k.cpu 0).proc ≠ some p → (k.table.proc p).shouldDemote = false
  current : ∀ p, (k.cpu 0).proc = some p → (k.cpu 0).ctl.Slice (k.table.proc p)

namespace Kernel.Sliced

variable {k k' : Kernel 1} {l : Label 1}

theorem move (h : k.Sliced) (hp : (k'.cpu 0).proc = (k.cpu 0).proc)
    (hf : ∀ p, (k'.table.proc p).shouldDemote = (k.table.proc p).shouldDemote ∨ (k.cpu 0).proc = some p)
    (hc : ∀ p, (k.cpu 0).proc = some p → (k.cpu 0).ctl.Slice (k.table.proc p) →
      (k'.cpu 0).ctl.Slice (k'.table.proc p)) : k'.Sliced := by
  refine ⟨fun p hne => ?_, fun p hpp => ?_⟩
  · rw [hp] at hne
    rw [(hf p).resolve_right hne]
    exact h.others p hne
  · rw [hp] at hpp
    exact hc p hpp (h.current p hpp)

theorem rest (h : k.Sliced) (hi : k.Inv) (hx : (k.cpu 0).ctl ≠ .swtchOut) (hc : k'.cpu = k.cpu)
    (hr : Rouses k.table k'.table) : k'.Sliced := by
  refine h.move (by rw [hc]) (fun p => .inl (hr.flag p)) (fun p hp hs => ?_)
  have hrun := hi.live.running_of hp hx
  rw [hc]
  exact hs.congr hx (hr.level p) (hr.got p (by simp [hrun])) (hr.flag p)

theorem make (h : k.Sliced) (hi : k.Inv) {np : Slot} (hn : k.table.st np = .embryo) (hc : k'.cpu 0 = k.cpu 0 ∨
    (k.cpu 0).proc = none ∧ (k'.cpu 0).proc = none)
    (hne : ∀ p, p ≠ np → k'.table.proc p = k.table.proc p)
    (hf : (k'.table.proc np).shouldDemote = (k.table.proc np).shouldDemote) : k'.Sliced := by
  refine h.move ?_ (fun p => .inl ?_) (fun p hp hs => ?_)
  · rcases hc with hc | ⟨hc, hc'⟩
    · rw [hc]
    · rw [hc, hc']
  · by_cases e : p = np
    · rw [e, hf]
    · rw [hne p e]
  · have e : p ≠ np := by
      rintro rfl
      have hfit := hi.live.onCpu 0 p hp
      rw [hn] at hfit
      cases hx : (k.cpu 0).ctl <;> simp [hx, Ctl.Fits] at hfit
    rcases hc with hc | ⟨hc, -⟩
    · rw [hc, hne p e]
      exact hs
    · rw [hc] at hp
      cases hp

variable {u : Table}

theorem leave (h : k.Sliced) (hx : (k.cpu 0).ctl = .user ∨ (k.cpu 0).ctl = .trap ∨ (k.cpu 0).ctl = .swtchIn)
    (hf : ∀ p, (u.proc p).shouldDemote = (k.table.proc p).shouldDemote) : ((k.setTable u).setCtl 0 .swtchOut).Sliced := by
  refine h.move (setCtl_proc _ _ _ _) (fun p => .inl (hf p)) (fun p _ hs => ?_)
  have hfalse : (k.table.proc p).shouldDemote = false := by
    rcases hx with hx | hx | hx <;> rw [hx] at hs <;> exact hs.1
  rw [setCtl_ctl]
  intro ht
  rw [setCtl_table, setTable_table, hf p, hfalse] at ht
  cases ht

theorem toUser (h : k.Sliced) (hx : (k.cpu 0).ctl = .user ∨ (k.cpu 0).ctl = .swtchIn) (hf : Frame Proc.share k.table u) :
    ((k.setTable u).setCtl 0 .user).Sliced := by
  have hsh := fun p => share_eq.mp (hf.proc p)
  refine h.move (setCtl_proc _ _ _ _) (fun p => .inl (hsh p).2.2.2) (fun p _ hs => ?_)
  have hu : Ctl.user.Slice (k.table.proc p) := by
    rcases hx with hx | hx <;> rw [hx] at hs <;> exact hs
  rw [setCtl_ctl]
  exact hu.congr (by simp) (hsh p).1 (hsh p).2.1 (hsh p).2.2.2

theorem timer (h : k.Sliced) (hi : k.Inv) (hx : (k.cpu 0).ctl = .user ∨ (k.cpu 0).ctl = .idle) :
    ((k.setTable (k.table.tick .mlfq)).setCtl 0 (if (k.cpu 0).ctl = .user then .trap else .idle)).Sliced := by
  have hsh := fun p => tickProc_share (k.table.proc p)
  refine h.move (setCtl_proc _ _ _ _) (fun p => .inl (hsh p).2.1) (fun p hp hs => ?_)
  have hu : (k.cpu 0).ctl = .user := by
    refine hx.resolve_right (fun hid => ?_)
    have hfit := hi.live.onCpu 0 p hp
    rw [hid] at hfit
    exact hfit
  have hrun : (k.table.proc p).state = .running := hi.live.running_of hp (by simp [hu])
  obtain ⟨hl, hf, hg, -⟩ := hsh p
  rw [if_pos hrun] at hg
  rw [hu] at hs
  rw [setCtl_ctl, if_pos hu]
  refine ⟨hf.trans hs.1, ?_⟩
  have hle := hs.2
  change (tickProc .mlfq (k.table.proc p)).currTicksGot ≤ runtimeLimit (tickProc .mlfq (k.table.proc p)).currQueueId + 1
  rw [hl]
  omega

theorem trapDemote (h : k.Sliced) {p : Slot} (hp : k.At 0 .trap p)
    (hg : (k.table.proc p).currTicksGot ≥ runtimeLimit (k.table.proc p).currQueueId + 1) :
    ((k.setTable (k.table.setupDemotion p)).setCtl 0 .demote).Sliced := by
  refine h.move (setCtl_proc _ _ _ _) (fun q => ?_) (fun q hq hs => ?_)
  · by_cases e : q = p
    · subst e
      exact .inr hp.2
    · left
      rw [setCtl_table, setTable_table, setupDemotion, setProc_of_ne _ _ _ _ e]
  · obtain rfl : p = q := Option.some.inj (hp.2.symm.trans hq)
    rw [hp.1] at hs
    have hle := hs.2
    rw [setCtl_ctl, setCtl_table, setTable_table, setupDemotion, setProc_self]
    change (k.table.proc p).currTicksGot = runtimeLimit (k.table.proc p).currQueueId + 1
    omega

theorem trapUser (h : k.Sliced) {p : Slot} (hp : k.At 0 .trap p)
    (hg : (k.table.proc p).currTicksGot ≤ runtimeLimit (k.table.proc p).currQueueId) : (k.setCtl 0 .user).Sliced := by
  refine h.move (setCtl_proc _ _ _ _) (fun q => .inl rfl) (fun q hq hs => ?_)
  obtain rfl : p = q := Option.some.inj (hp.2.symm.trans hq)
  rw [hp.1] at hs
  rw [setCtl_ctl]
  exact ⟨hs.1, hg⟩

theorem demoteYield (h : k.Sliced) {p : Slot} (hp : k.At 0 .demote p) : (k.yieldOn 0 p).Sliced := by
  have hsh := fun q => share_eq.mp ((Frame.yield (π := Proc.share) k.table p).proc q)
  refine h.move (setCtl_proc _ _ _ _) (fun q => .inl (hsh q).2.2.2) (fun q hq hs => ?_)
  obtain rfl : p = q := Option.some.inj (hp.2.symm.trans hq)
  rw [hp.1] at hs
  rw [yieldOn, setCtl_ctl]
  intro _
  refine ⟨?_, ?_⟩
  · simp [Table.yield]
  · change ((k.table.yield p).proc p).currTicksGot = runtimeLimit ((k.table.yield p).proc p).currQueueId + 1
    rw [(hsh p).1, (hsh p).2.1]
    exact hs

theorem pick_flag (h : k.Sliced) (hm : k.Mlfq) (hl : k.LockFree) (hn : (k.cpu 0).proc = none) (p : Slot) :
    ((pickMLFQ k.table).1.proc p).shouldDemote = false := by
  have hk := h.others p (by simp [hn])
  rcases (pickMLFQ_spec (hm.lockFree hl)).2.2 p with hs | ⟨-, -, hp⟩
  · rw [(share_eq.mp hs).2.2.2, hk]
  · rw [hp.flag, hk]

theorem run {q : Slot} (hflag : ∀ p, (u.proc p).shouldDemote = false) : ((k.setTable u).runOn .mlfq 0 q).Sliced := by
  obtain ⟨dl, dg, -, df⟩ := dispatch_self u q
  refine ⟨fun p hp => ?_, fun p hp => ?_⟩
  · have e : p ≠ q := by
      rintro rfl
      simp [runOn, setCpu] at hp
    change ((dispatch .mlfq u q).proc p).shouldDemote = false
    rw [dispatch_of_ne _ _ e]
    exact hflag p
  · obtain rfl : q = p := by simpa [runOn, setCpu] using hp
    have hc : (((k.setTable u).runOn .mlfq 0 q).cpu 0).ctl = .swtchIn := by simp [runOn, setCpu]
    rw [hc]
    refine ⟨df.trans (hflag q), ?_⟩
    change ((dispatch .mlfq u q).proc q).currTicksGot ≤ runtimeLimit _
    rw [dg]
    unfold runtimeLimit
    split <;> decide

theorem back (h : k.Sliced) {p : Slot} (hp : k.At 0 .swtchOut p) (hk : k'.table = requeue k.table p)
    (hn : (k'.cpu 0).proc = none) : k'.Sliced := by
  have hs := h.current p hp.2
  rw [hp.1] at hs
  refine ⟨fun q _ => ?_, fun q hq => ?_⟩
  · rw [hk]
    by_cases e : q = p
    · subst e
      exact requeue_unmarked (fun hd => (hs hd).1)
    · rw [requeue_of_ne _ e]
      refine h.others q ?_
      rw [hp.2]
      simpa using Ne.symm e
  · rw [hn] at hq
    cases hq

theorem step (h : k.Sliced) (hm : k.Mlfq) (hi : k.Inv) (hs : k.step .mlfq l = some k') : k'.Sliced := by
  have hlock : k.LockFree → (k.cpu 0).ctl ≠ .swtchOut := fun hl => (hl 0).2
  have huser : ∀ {p}, k.At 0 .user p → (k.cpu 0).ctl ≠ .swtchOut := fun hp => by simp [hp.1]
  have hone (c : Fin 1) : c = 0 := Subsingleton.elim c 0
  cases step_cases hs with
  | userinitAlloc hl hx hy ha | forkAlloc hl hx hy ha => exact h.rest hi (hlock hl) rfl (allocproc_share ha)
  | userinitTail hx hy | forkKalloc hx hy =>
    refine h.make hi (hi.live.embryo _ _ (by rw [hy]; rfl)) (.inl rfl) (fun p e => ?_) (allocprocTail_self _ _).2.2.2
    exact allocprocTail_of_ne _ _ e
  | @userinitDone c p hl hx hy =>
    obtain rfl := hone c
    have hnone := hi.live.proc_none_boot hx
    refine h.make hi (hi.live.embryo none _ (by rw [hy]; rfl)) (.inr ⟨hnone, ?_⟩)
      (fun p e => startRunnable_of_ne _ e) (startRunnable_flag _ _)
    rw [setCtl_proc]
    exact hnone
  | forkNone => exact h
  | @forkNoStack c p np hp | @forkNoCopy c p np hp =>
    obtain rfl := hone c
    exact h.rest hi (huser hp) rfl (freeEmbryo_share _ _)
  | @forkCopyuvm c p np hp =>
    obtain rfl := hone c
    exact h.rest hi (huser hp) rfl (.setProc _ _ _ (fun r => IgnoresFamily.parent r _) (fun _ => id))
  | forkDone hl hp hy =>
    exact h.make hi (hi.live.embryo _ _ (by rw [hy]; rfl)) (.inl rfl)
      (fun p e => startRunnable_of_ne _ e) (startRunnable_flag _ _)
  | @exit c p hl hp hy _ hx =>
    obtain rfl := hone c
    exact h.leave (hx.imp_right (fun hx => .inl hx.1)) (Rouses.exit .mlfq k.table p).flag
  | @reap l c p q x t ht =>
    obtain rfl := hone c
    exact h.toUser ht.ctl (ht.frame.trans (reap_share _ _))
  | @waitFail l c p x t ht =>
    obtain rfl := hone c
    exact h.toUser ht.ctl ht.frame
  | @waitSleep l c p x t ht =>
    obtain rfl := hone c
    have hf : Frame Proc.share k.table _ := ht.frame.trans (.goSleep t p (.proc p) x)
    exact h.leave (ht.ctl.imp_right .inr) (fun q => (share_eq.mp (hf.proc q)).2.2.2)
  | @sleep c p addr hl hp =>
    obtain rfl := hone c
    have hf := Frame.goSleep (π := Proc.share) k.table p (.addr addr) .sleep
    exact h.leave (.inl hp.1) (fun q => (share_eq.mp (hf.proc q)).2.2.2)
  | @wakeup c addr hl hx =>
    have hw := Rouses.wakeup1 .mlfq k.table (some (.addr addr))
    exact h.rest hi (hlock hl) (setTable_cpu _ _) (by rw [setTable_table]; exact hw)
  | kill hl => exact h.rest hi (hlock hl) rfl (.kill _ _ _)
  | setPriority hl => exact h.rest hi (hlock hl) rfl (setPriority_share _ _ _)
  | @fault c p hp =>
    obtain rfl := hone c
    exact h.rest hi (huser hp) rfl (.setProc _ _ _ (fun r => IgnoresState.killed r _) (fun _ => id))
  | @tick c hl hx =>
    obtain rfl := hone c
    exact h.timer hi hx
  | @timer c hl hx h0 => exact absurd (by rw [hone c]; rfl) h0
  | @trapUser c p hl hp hb =>
    obtain rfl := hone c
    exact h.trapUser hp (hb.resolve_left (by simp)).2
  | @trapDemote c p hl hp hb hg =>
    obtain rfl := hone c
    exact h.trapDemote hp hg
  | trapYield hl hp hb => rcases hb with e | e <;> cases e
  | @demoteYield c p hl hp =>
    obtain rfl := hone c
    exact h.demoteYield hp
  | @idle c hl hx =>
    obtain rfl := hone c
    have hnone := hi.live.proc_none hx
    exact ⟨fun p _ => h.pick_flag hm hl hnone p, fun p hp => by cases hnone.symm.trans hp⟩
  | @run l c q t hp =>
    obtain rfl := hone c
    cases hp with
    | schedule hl hx => exact .run (h.pick_flag hm hl (hi.live.proc_none hx))
    | back hb => cases hb
  | @resumeUser c p hp =>
    obtain rfl := hone c
    exact h.toUser (.inr hp.1) (.refl _)
  | @resumeSleep c p hp =>
    obtain rfl := hone c
    exact h.toUser (.inr hp.1) (.wakeSleeper _ _)
  | @back c p i hp =>
    obtain rfl := hone c
    exact h.back hp rfl (by simp [setCpu])

end Kernel.Sliced

theorem Kernel.Sliced.marked (h : k.Sliced) (hi : k.Inv)
    (hp : (k.table.proc p).shouldDemote = true) : (k.cpu 0).proc = some p ∧
      ((k.cpu 0).ctl = .demote ∧ k.table.st p = .running ∨ (k.cpu 0).ctl = .swtchOut ∧ k.table.st p = .runnable) := by
  have hc : (k.cpu 0).proc = some p := by
    by_contra hne
    rw [h.others p hne] at hp
    cases hp
  have hs := h.current p hc
  have hfit := hi.live.onCpu 0 p hc
  refine ⟨hc, ?_⟩
  cases hx : (k.cpu 0).ctl with
  | demote => exact .inl ⟨rfl, hi.live.running_of hc (by simp [hx])⟩
  | swtchOut =>
    rw [hx] at hs
    exact .inr ⟨rfl, (hs hp).1⟩
  | boot => rw [hx] at hfit; cases hfit
  | idle => rw [hx] at hfit; cases hfit
  | user => rw [hx] at hs; rw [hs.1] at hp; cases hp
  | trap => rw [hx] at hs; rw [hs.1] at hp; cases hp
  | swtchIn => rw [hx] at hs; rw [hs.1] at hp; cases hp

theorem reachable_sliced (h : (machine .mlfq 1).Reachable k) (hb : k.table.handedOut < 2 ^ 31) :
    k.Sliced := by
  refine Machine.ReachableWhere.invariant h (P := fun k => k.table.handedOut < 2 ^ 31 → k.Sliced) ?_ ?_ hb
  · intro k hk _
    obtain rfl : k = Kernel.start 1 := hk
    exact ⟨fun _ _ => rfl, fun _ hp => by cases hp⟩
  · intro k l k' hr hk _ hs hb'
    have hi := reachable_inv hr.reachable
    have hlt := lt_of_le_of_lt (handedOut_mono hi hs) hb'
    exact (hk hlt).step (reachable_mlfq hr.reachable hlt) hi hs

structure Spells where
  waited : ℕ := 0
  ran : ℕ := 0

def Label.ticks {n : ℕ} : Label n → ℕ
  | .timer c => if c.val = 0 then 1 else 0
  | _ => 0

def Spells.pass (g : Spells) (ticks : ℕ) (r s : Proc) : Spells where
  waited := if r.state = .runnable ∧ s.state = .runnable ∧ s.currQueueId = r.currQueueId then g.waited + ticks else 0
  ran := if r.state = .running then g.ran + ticks else if s.state = .running then 0 else g.ran

def spellMachine : Machine (Kernel 1 × (Slot → Spells)) (Label 1) :=
  (machine .mlfq 1).history (fun _ => {}) (fun g k l k' p => (g p).pass l.ticks (k.table.proc p) (k'.table.proc p))

structure Spent (k : Kernel 1) (g : Slot → Spells) : Prop where
  still : ∀ p, k.table.st p = .running ∨ k.table.st p = .sleeping → (k.table.proc p).currWaitTime = 0
  embryo : ∀ p, k.table.st p = .embryo → ¬ k.Fresh p → (k.table.proc p).currWaitTime = 0
  ready : ∀ p, k.table.st p = .runnable → (k.table.proc p).currWaitTime ≤ (g p).waited
  ran : ∀ p, k.table.st p = .running ∨ (k.table.proc p).shouldDemote = true →
    (k.table.proc p).currTicksGot ≤ (g p).ran

namespace Spent

variable {k k' : Kernel 1} {g : Slot → Spells} {l : Label 1} {p : Slot}

theorem still_step (h : Spent k g) (hi : k.Inv) (hs : k.step .mlfq l = some k') (hsh : k.Shares l k'.table p)
    (hp : k'.table.st p = .running ∨ k'.table.st p = .sleeping) : (k'.table.proc p).currWaitTime = 0 := by
  have hst : k'.table.st p = .sleeping → k.table.st p = .running ∨ k.table.st p = .sleeping := by
    intro hsl
    by_cases e : k'.table.st p = k.table.st p
    · exact .inr (e.symm.trans hsl)
    · obtain ⟨a, -, hsrc, htgt⟩ := hi.moves hs p e
      rw [hsl] at htgt
      cases a <;> cases htgt
      exact .inl hsrc
  generalize k'.table = u at hsh hp hst ⊢
  cases hsh with
  | keep _ hr hl hw hf hg => exact hw.trans (h.still p (hp.elim (fun hp => .inl (hr.1 hp)) hst))
  | init he hs' hw hf => rw [hs'] at hp; simp at hp
  | start _ he hs' hl hw hf => rw [hs'] at hp; simp at hp
  | tick hc hu =>
    have he : u.st p = k.table.st p := (congrArg Proc.state hu).trans (tickProc_keeps .mlfq (k.table.proc p)).1
    rw [he] at hp
    rw [hu]
    rcases (tickProc_share (k.table.proc p)).2.2.2 with hw | ⟨hr, -⟩
    · rw [hw]
      exact h.still p hp
    · have hr' : k.table.st p = .runnable := hr
      rw [hr'] at hp
      simp at hp
  | expire hc hcp hu =>
    rw [st, hu] at hp
    rw [hu]
    exact h.still p hp
  | promote _ _ hpr _ => exact hpr.wait
  | dispatch _ _ _ hw _ _ => exact hw
  | demote _ _ _ _ _ _ hw _ => exact hw

theorem embryo_step (h : Spent k g) (hi : k.Inv) (hs : k.step .mlfq l = some k') (hsh : k.Shares l k'.table p)
    (hp : k'.table.st p = .embryo) (hf : ¬ k'.Fresh p) : (k'.table.proc p).currWaitTime = 0 := by
  have hold := hi.initialised hs (p := p) (by simp [hp]) hf
  have hst : k.table.st p ≠ .unused → k.table.st p = .embryo := by
    intro hne
    by_contra he
    obtain ⟨a, -, hsrc, htgt⟩ := hi.moves hs p (by rw [hp]; exact Ne.symm he)
    rw [hp] at htgt
    cases a <;> cases htgt
    exact hne hsrc
  have hzero : k.initialises l ≠ some p → (k.table.proc p).currWaitTime = 0 := by
    intro hin
    obtain ⟨hne, hnf⟩ := hold.resolve_left hin
    exact h.embryo p (hst hne) hnf
  generalize k'.table = u at hsh hp ⊢
  cases hsh with
  | keep hin _ _ hw _ _ => exact hw.trans (hzero hin)
  | init _ _ hw _ => exact hw
  | start _ _ hs' _ _ _ => rw [hs'] at hp; cases hp
  | tick hc hu =>
    have he : u.st p = k.table.st p := (congrArg Proc.state hu).trans (tickProc_keeps .mlfq (k.table.proc p)).1
    rw [hu]
    rcases (tickProc_share (k.table.proc p)).2.2.2 with hw | ⟨hr, -⟩
    · rw [hw]
      exact hzero (by simp [Kernel.initialises])
    · have hr' : k.table.st p = .runnable := hr
      rw [he, hr'] at hp
      cases hp
  | expire hc hcp hu =>
    rw [hu]
    exact hzero (by simp [Kernel.initialises])
  | promote _ _ hpr _ => exact hpr.wait
  | dispatch _ _ _ hw _ _ => exact hw
  | demote _ _ _ _ _ _ hw _ => exact hw

theorem ready_step (h : Spent k g) (hi : k.Inv) (hi' : k'.Inv) (hs : k.step .mlfq l = some k')
    (hsh : k.Shares l k'.table p) (hp : k'.table.st p = .runnable) :
    (k'.table.proc p).currWaitTime ≤ ((g p).pass l.ticks (k.table.proc p) (k'.table.proc p)).waited := by
  have hold := hi.initialised hs (p := p) (by simp [hp]) (hi'.not_fresh (by simp [hp]))
  have hzero : k.table.st p ≠ .runnable → k.initialises l ≠ some p → (k.table.proc p).currWaitTime = 0 := by
    intro hne hin
    obtain ⟨a, -, hsrc, htgt⟩ := hi.moves hs p (by rw [hp]; exact Ne.symm hne)
    rw [hp] at htgt
    cases a <;> cases htgt
    · exact h.embryo p hsrc (hold.resolve_left hin).2
    · exact h.still p (.inl hsrc)
    · exact h.still p (.inr hsrc)
  generalize k'.table = u at hsh hp ⊢
  have hstay : k.table.st p = .runnable → (u.proc p).currQueueId = (k.table.proc p).currQueueId →
      ((g p).pass l.ticks (k.table.proc p) (u.proc p)).waited = (g p).waited + l.ticks :=
    fun hr hl => if_pos ⟨hr, hp, hl⟩
  have hle : (u.proc p).currWaitTime = 0 →
      (u.proc p).currWaitTime ≤ ((g p).pass l.ticks (k.table.proc p) (u.proc p)).waited := by
    intro h0
    rw [h0]
    exact Int.natCast_nonneg _
  have hsame : k.initialises l ≠ some p → (u.proc p).currQueueId = (k.table.proc p).currQueueId →
      (u.proc p).currWaitTime = (k.table.proc p).currWaitTime →
      (u.proc p).currWaitTime ≤ ((g p).pass l.ticks (k.table.proc p) (u.proc p)).waited := by
    intro hin hl hw
    by_cases hr : k.table.st p = .runnable
    · have := h.ready p hr
      rw [hstay hr hl, hw]
      omega
    · exact hle (hw.trans (hzero hr hin))
  cases hsh with
  | keep hin _ hl hw _ _ => exact hsame hin hl hw
  | init _ hs' _ _ => rw [hs'] at hp; cases hp
  | start hin he _ _ hw _ => exact hle (hw.trans (hzero (by simp [he]) hin))
  | tick hc hu =>
    obtain ⟨hl, -, -, hw⟩ := tickProc_share (k.table.proc p)
    rw [← hu] at hl hw
    rcases hw with hw | ⟨hr, hw⟩
    · exact hsame (by simp [Kernel.initialises]) hl hw
    · have := h.ready p hr
      rw [hstay hr hl, hw, Label.ticks, if_pos hc]
      omega
  | expire hc hcp hu => exact hsame (by simp [Kernel.initialises]) (by rw [hu]) (by rw [hu])
  | promote _ _ hpr _ => exact hle hpr.wait
  | dispatch _ _ _ hw _ _ => exact hle hw
  | demote _ _ _ _ _ _ hw _ => exact hle hw

theorem ran_step (h : Spent k g) (hi : k.Inv) (hd : k.Sliced) (hsh : k.Shares l k'.table p)
    (hp : k'.table.st p = .running ∨ (k'.table.proc p).shouldDemote = true) :
    (k'.table.proc p).currTicksGot ≤ ((g p).pass l.ticks (k.table.proc p) (k'.table.proc p)).ran := by
  have hmark : (k.table.proc p).shouldDemote = true → k.table.st p = .running ∨ k.table.st p = .runnable :=
    fun hm => (hd.marked hi hm).2.imp (·.2) (·.2)
  generalize k'.table = u at hsh hp ⊢
  have hzero : (u.proc p).currTicksGot = 0 →
      (u.proc p).currTicksGot ≤ ((g p).pass l.ticks (k.table.proc p) (u.proc p)).ran := by
    intro h0
    rw [h0]
    exact Int.natCast_nonneg _
  have hran : k.table.st p = .running → ((g p).pass l.ticks (k.table.proc p) (u.proc p)).ran = (g p).ran + l.ticks :=
    fun hr => if_pos hr
  have hrest : k.table.st p ≠ .running → u.st p ≠ .running →
      ((g p).pass l.ticks (k.table.proc p) (u.proc p)).ran = (g p).ran :=
    fun hr hu => (if_neg hr).trans (if_neg hu)
  cases hsh with
  | keep _ hr _ _ hf hg =>
    have hold : k.table.st p = .running ∨ (k.table.proc p).shouldDemote = true := hp.imp hr.1 (hf ▸ ·)
    have hgot := h.ran p hold
    rcases hold.elim .inl hmark with hrun | hrdy
    · rw [hran hrun, hg (by simp [hrun])]
      omega
    · have hne : k.table.st p ≠ .running := by simp [hrdy]
      rw [hrest hne (fun hu => hne (hr.1 hu)), hg (by simp [hrdy])]
      exact hgot
  | init he hs' _ hf =>
    rw [hs', hf] at hp
    simpa [he] using hmark (hp.resolve_left (by simp))
  | start _ he hs' _ _ hf =>
    rw [hs', hf] at hp
    simpa [he] using hmark (hp.resolve_left (by simp))
  | tick hc hu =>
    have he : u.st p = k.table.st p := (congrArg Proc.state hu).trans (tickProc_keeps .mlfq (k.table.proc p)).1
    obtain ⟨-, hf, hg, -⟩ := tickProc_share (k.table.proc p)
    rw [← hu] at hf hg
    rw [he, hf] at hp
    have hgot := h.ran p hp
    by_cases hrun : (k.table.proc p).state = .running
    · rw [if_pos hrun] at hg
      rw [hran hrun, Label.ticks, if_pos hc]
      omega
    · rw [if_neg hrun] at hg
      rw [hrest hrun (by rw [he]; exact hrun)]
      omega
  | expire hc hcp hu =>
    have hrun := hi.live.running_of hcp (by simp [hc])
    have hgot := h.ran p (.inl hrun)
    rw [hran hrun, hu]
    change (k.table.proc p).currTicksGot ≤ _
    omega
  | promote hk hs hpr hg =>
    refine hzero (hg (hp.resolve_right (fun hf => ?_)))
    rw [hpr.flag] at hf
    rcases (hd.marked hi hf).2 with ⟨-, hr⟩ | ⟨hx, -⟩
    · rw [hs] at hr
      cases hr
    · exact (hk 0).2 hx
  | dispatch _ _ _ _ _ hg => exact hzero hg
  | demote _ _ _ hr _ _ _ hf =>
    rw [hr, hf] at hp
    simp at hp

theorem step (h : Spent k g) (hm : k.Mlfq) (hi : k.Inv) (hi' : k'.Inv) (hd : k.Sliced)
    (hs : k.step .mlfq l = some k') :
    Spent k' (fun p => (g p).pass l.ticks (k.table.proc p) (k'.table.proc p)) := by
  have hsh := hm.shares hi hs
  exact ⟨fun p => h.still_step hi hs (hsh p), fun p => h.embryo_step hi hs (hsh p),
    fun p => h.ready_step hi hi' hs (hsh p), fun p => h.ran_step hi hd (hsh p)⟩

end Spent

theorem reachable_spent {s : Kernel 1 × (Slot → Spells)} (h : spellMachine.Reachable s)
    (hb : s.1.table.handedOut < 2 ^ 31) : Spent s.1 s.2 := by
  refine Machine.ReachableWhere.invariant h (P := fun s => s.1.table.handedOut < 2 ^ 31 → Spent s.1 s.2) ?_ ?_ hb
  · rintro ⟨k, g⟩ ⟨hk, -⟩ -
    obtain rfl : k = Kernel.start 1 := hk
    exact ⟨fun _ _ => rfl, fun _ _ _ => rfl, fun _ _ => Int.natCast_nonneg _, fun _ _ => Int.natCast_nonneg _⟩
  · intro s l s' hr hsp _ hn hb'
    obtain ⟨hs, hg⟩ := Machine.history_next hn
    have hk := Machine.history_reachable hr
    have hi := reachable_inv hk
    have hlt := lt_of_le_of_lt (handedOut_mono hi hs) hb'
    rw [hg]
    exact (hsp hlt).step (reachable_mlfq hk hlt) hi (reachable_inv (hk.next hs)) (reachable_sliced hk hlt) hs

inductive LevelChange (k : Kernel 1) (g : Spells) (p : Slot) : Label 1 → Kernel 1 → Prop
  | preempted {k' : Kernel 1} (hp : (k.cpu 0).proc = some p) (hs : k.table.st p = .runnable)
      (hlt : (k.table.proc p).currQueueId < 4)
      (hup : (k'.table.proc p).currQueueId = (k.table.proc p).currQueueId + 1)
      (hgot : (k.table.proc p).currTicksGot = runtimeLimit (k.table.proc p).currQueueId + 1)
      (hran : (k.table.proc p).currTicksGot ≤ g.ran) : LevelChange k g p (.back 0) k'
  | aged {k' : Kernel 1} (hs : k.table.st p = .runnable)
      (hdown : (k'.table.proc p).currQueueId + 1 = (k.table.proc p).currQueueId)
      (hwait : patienceThreshold (k.table.proc p).currQueueId < g.waited) : LevelChange k g p (.schedule 0) k'

theorem levelChange {k' : Kernel 1} {g : Slot → Spells} {l : Label 1} (h : Spent k g) (hm : k.Mlfq) (hi : k.Inv)
    (hd : k.Sliced) (hs : k.step .mlfq l = some k') (he : k.table.st p ≠ .embryo)
    (hne : (k'.table.proc p).currQueueId ≠ (k.table.proc p).currQueueId) : LevelChange k (g p) p l k' := by
  have hone (c : Fin 1) : c = 0 := Subsingleton.elim c 0
  have hsh := hm.shares hi hs p
  generalize hu : k'.table = u at hsh hne
  cases hsh with
  | keep _ _ hl _ _ _ => exact absurd hl hne
  | init he' _ _ _ => exact absurd he' he
  | start _ he' _ _ _ _ => exact absurd he' he
  | tick hc hp => exact absurd (by rw [hp]; exact (tickProc_share _).1) hne
  | expire _ _ hp => exact absurd (by rw [hp]) hne
  | dispatch _ _ hl _ _ _ => exact absurd hl hne
  | @promote c _ _ hk hst hp _ =>
    obtain rfl := hone c
    refine .aged hst (by rw [hu]; exact hp.level) ?_
    have hw := hp.waited
    have hr := h.ready p hst
    omega
  | @demote c _ _ hc hp hst _ hmark hl _ _ =>
    obtain rfl := hone c
    have hlt : (k.table.proc p).currQueueId < 4 := by
      by_contra hge
      exact hne (hl.trans (if_neg hge))
    have hsl := hd.current p hp
    rw [hc] at hsl
    exact .preempted hp hst hlt (by rw [hu]; exact hl.trans (if_pos hlt)) (hsl hmark).2 (h.ran p (.inr hmark))

theorem level_of_start {k' : Kernel 1} {l : Label 1} (hm : k.Mlfq) (hi : k.Inv) (hs : k.step .mlfq l = some k')
    (he : k.table.st p = .embryo) (hr : k'.table.st p = .runnable) :
    (k'.table.proc p).currQueueId = 0 := by
  have hsh := hm.shares hi hs p
  generalize k'.table = u at hsh hr ⊢
  cases hsh with
  | keep _ hc _ _ _ _ => exact absurd he (hc.2 hr)
  | init _ hs' _ _ => rw [hr] at hs'; cases hs'
  | start _ _ _ hl _ _ => exact hl
  | tick _ hp =>
    rw [st, hp, (tickProc_keeps .mlfq _).1] at hr
    cases he.symm.trans hr
  | expire _ _ hp =>
    rw [st, hp] at hr
    cases he.symm.trans hr
  | promote _ hst _ _ => cases he.symm.trans hst
  | dispatch hst _ _ _ _ _ => cases he.symm.trans hst
  | demote _ _ hst _ _ _ _ _ => cases he.symm.trans hst

theorem levels_and_slices (s : Kernel 1 × (Slot → Spells)) (h : spellMachine.Reachable s)
    (hb : s.1.table.handedOut < 2 ^ 31) :
    (∀ p, (s.1.table.proc p).currQueueId ≤ 4) ∧
    (∀ l k', s.1.step .mlfq l = some k' → ∀ p,
      (s.1.table.st p = .embryo → k'.table.st p = .runnable → (k'.table.proc p).currQueueId = 0) ∧
      (s.1.table.st p ≠ .unused → s.1.table.st p ≠ .embryo →
        (k'.table.proc p).currQueueId ≠ (s.1.table.proc p).currQueueId → LevelChange s.1 (s.2 p) p l k')) ∧
    (∀ p, s.1.table.st p = .running →
      (s.1.table.proc p).currTicksGot ≤ runtimeLimit (s.1.table.proc p).currQueueId + 1) ∧
    (∀ p, (s.1.cpu 0).proc = some p → (s.1.cpu 0).ctl = .user →
      (s.1.table.proc p).currTicksGot ≤ runtimeLimit (s.1.table.proc p).currQueueId) ∧
    (s.1.LockFree → ∀ p, (s.1.table.proc p).shouldDemote = true →
      (s.1.cpu 0).proc = some p ∧ (s.1.cpu 0).ctl = .demote) := by
  have hk := Machine.history_reachable h
  have hi := reachable_inv hk
  have hm := reachable_mlfq hk hb
  have hd := reachable_sliced hk hb
  have hsp := reachable_spent h hb
  refine ⟨fun p => ?_, fun l k' hs p => ⟨level_of_start hm hi hs, fun _ he => levelChange hsp hm hi hd hs he⟩,
    fun p hp => ?_, fun p hp hc => ?_, fun hl p hp => ?_⟩
  · have := hm.level p
    omega
  · obtain ⟨c, hc⟩ := hi.live.running p hp
    obtain rfl : c = 0 := Subsingleton.elim c 0
    have hfit := hi.live.onCpu 0 p hc
    rw [hp] at hfit
    apply (hd.current p hc).got_le <;> intro hx <;> simp [hx, Ctl.Fits] at hfit
  · have hs := hd.current p hp
    rw [hc] at hs
    exact hs.2
  · obtain ⟨hc, hx | hx⟩ := hd.marked hi hp
    · exact ⟨hc, hx.1⟩
    · exact absurd hx.1 (hl 0).2

def slice {n : ℕ} [NeZero n] (t : ℕ) : List (Label n) :=
  (List.replicate t [.timer 0, .trapTail 0]).flatten ++ [.demoteYield 0, .back 0]

def turn {n : ℕ} [NeZero n] (t : ℕ) : List (Label n) := [.schedule 0, .resume 0] ++ slice t

theorem levels_and_slices_init : ∃ (s : Kernel 1 × (Slot → Spells)) (k' : Kernel 1),
    s.1.step .mlfq (.back 0) = some k' ∧ (s.1.table.proc 0).currQueueId = 0 ∧ (k'.table.proc 0).currQueueId = 1 ∧
      LevelChange s.1 (s.2 0) 0 (.back 0) k' := by
  obtain ⟨s, hs, hp⟩ := Machine.exists_reachable (M := spellMachine) (s := (Kernel.start 1, fun _ => {}))
    (w := boot ++ [.timer 0, .trapTail 0, .timer 0, .trapTail 0, .demoteYield 0])
    (P := fun s => decide (s.1.table.handedOut < 2 ^ 31 ∧ s.1.table.st 0 = .runnable ∧
      (s.1.table.proc 0).currQueueId = 0) &&
      (s.1.step .mlfq (.back 0)).any (fun k' => (k'.table.proc 0).currQueueId = 1)) ⟨rfl, rfl⟩ (by decide +kernel)
  rw [Bool.and_eq_true, decide_eq_true_eq] at hp
  obtain ⟨⟨hb, hr, h0⟩, hk⟩ := hp
  cases hstep : s.1.step .mlfq (.back 0) with
  | none => simp [hstep] at hk
  | some k' =>
    have h1 : (k'.table.proc 0).currQueueId = 1 := by simpa [hstep] using hk
    have hall := (levels_and_slices s hs hb).2.1 (.back 0) k' hstep 0
    exact ⟨s, k', hstep, h0, h1, hall.2 (by simp [hr]) (by simp [hr]) (by simp [h0, h1])⟩

theorem level_drops_by_two : ∃ k k' : Kernel 1, (machine .mlfq 1).Reachable k ∧
    k.step .mlfq (.schedule 0) = some k' ∧ k.table.st 2 = .runnable ∧ (k.table.proc 2).currQueueId = 2 ∧
      (k'.table.proc 2).currQueueId = 0 := by
  obtain ⟨k, hk, hp⟩ := exists_after_forks (n := 1) .mlfq (boot ++ fork)
    (fork ++ slice 2 ++ turn 2 ++ turn 2 ++ List.replicate 21 (.timer 0) ++
      [.schedule 0, .resume 0, .sleep 0 7, .back 0] ++ turn 2 ++ turn 3 ++ List.replicate 21 (.timer 0))
    0 0 2 3 (2 ^ 32 - 2)
    (fun k => decide (k.table.st 2 = .runnable ∧ (k.table.proc 2).currQueueId = 2) &&
      (k.step .mlfq (.schedule 0)).any (fun k' => (k'.table.proc 2).currQueueId = 0)) (by decide +kernel)
  rw [Bool.and_eq_true, decide_eq_true_eq] at hp
  cases hs : k.step .mlfq (.schedule 0) with
  | none => simp [hs] at hp
  | some k' => exact ⟨k, k', hk, hs, hp.1.1, hp.1.2, by simpa [hs] using hp.2⟩

end Threads

end EnhancedXv6
