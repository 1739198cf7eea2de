import EnhancedXv6.Scheduler

namespace EnhancedXv6.ProcTable

namespace Table

variable (t : Table) (p q : Slot) (f : Proc → Proc)

@[simp] theorem setProc_self : (t.setProc p f).proc p = f (t.proc p) := by simp [setProc]

@[simp] theorem setProc_of_ne (h : q ≠ p) : (t.setProc p f).proc q = t.proc q := by
  simp [setProc, h]

theorem setProc_proc : (t.setProc p f).proc q = if q = p then f (t.proc p) else t.proc q := by
  by_cases h : q = p
  · subst h; simp
  · simp [h]

@[simp] theorem setProc_nextpid : (t.setProc p f).nextpid = t.nextpid := rfl
@[simp] theorem setProc_initproc : (t.setProc p f).initproc = t.initproc := rfl
@[simp] theorem setProc_ticks : (t.setProc p f).ticks = t.ticks := rfl
@[simp] theorem setProc_queuePtr : (t.setProc p f).queuePtr = t.queuePtr := rfl
@[simp] theorem setProc_qLatestIdx : (t.setProc p f).qLatestIdx = t.qLatestIdx := rfl
@[simp] theorem setProc_handedOut : (t.setProc p f).handedOut = t.handedOut := rfl
@[simp] theorem setProc_refused : (t.setProc p f).refused = t.refused := rfl
@[simp] theorem setProc_dropped : (t.setProc p f).dropped = t.dropped := rfl

def st (t : Table) : Slot → ProcState := fun p => (t.proc p).state

theorem st_setProc : (t.setProc p f).st = Function.update t.st p (f (t.proc p)).state := by
  funext r
  by_cases h : r = p
  · subst h; simp [st]
  · simp [st, h]

end Table

open Table

variable {α : Type*}

/-- What `π` reads of a process does not depend on `state`, `killed` and `pbs_chances`. -/
class IgnoresState (π : Proc → α) : Prop where
  state : ∀ r s, π { r with state := s } = π r
  killed : ∀ r s, π { r with killed := s } = π r
  chances : ∀ r s, π { r with pbsChances := s } = π r

class IgnoresFamily (π : Proc → α) : Prop where
  parent : ∀ r s, π { r with parent := s } = π r
  context : ∀ r s, π { r with context := s } = π r
  chan : ∀ r s, π { r with chan := s } = π r

class IgnoresQueue (π : Proc → α) : Prop where
  wait : ∀ r s, π { r with currWaitTime := s } = π r
  demote : ∀ r s, π { r with shouldDemote := s } = π r
  queue : ∀ r s, π { r with currQueueId := s } = π r
  got : ∀ r s, π { r with currTicksGot := s } = π r

class IgnoresCount (π : Proc → α) : Prop where
  scheduled : ∀ r s, π { r with numTimesScheduled := s } = π r

structure Frame (π : Proc → α) (t u : Table) : Prop where
  ticks : u.ticks = t.ticks
  initproc : u.initproc = t.initproc
  pids : u.nextpid = t.nextpid ∧ u.handedOut = t.handedOut
  proc : ∀ p, π (u.proc p) = π (t.proc p)

namespace Frame

open IgnoresState IgnoresFamily IgnoresQueue IgnoresCount

variable {π : Proc → α} {t u v : Table}

theorem refl (t : Table) : Frame π t t := ⟨rfl, rfl, ⟨rfl, rfl⟩, fun _ => rfl⟩

theorem trans (h : Frame π t u) (k : Frame π u v) : Frame π t v :=
  ⟨k.ticks.trans h.ticks, k.initproc.trans h.initproc, ⟨k.pids.1.trans h.pids.1, k.pids.2.trans h.pids.2⟩, fun p => (k.proc p).trans (h.proc p)⟩

theorem setProc (t : Table) (p : Slot) (f : Proc → Proc) (hf : ∀ r, π (f r) = π r) : Frame π t (t.setProc p f) := by
  refine ⟨rfl, rfl, ⟨rfl, rfl⟩, fun q => ?_⟩
  by_cases e : q = p
  · subst e; rw [setProc_self, hf]
  · rw [setProc_of_ne _ _ _ _ e]

theorem foldl {f : Table → Slot → Table} (hf : ∀ t p, Frame π t (f t p)) (ps : List Slot) (t : Table) :
    Frame π t (ps.foldl f t) := by
  induction ps generalizing t with
  | nil => exact refl t
  | cons p ps ih => exact (hf t p).trans (ih (f t p))

theorem deleteProcess (t : Table) (p : Slot) (q : ℕ) : Frame π t (t.deleteProcess p q).1 := by
  unfold Table.deleteProcess
  split <;> exact ⟨rfl, rfl, ⟨rfl, rfl⟩, fun _ => rfl⟩

section State

variable [IgnoresState π]

theorem setState (t : Table) (p : Slot) (s : ProcState) : Frame π t (t.setProc p (fun r => { r with state := s })) :=
  .setProc _ _ _ (fun r => state r s)

theorem mark (t : Table) (p : Slot) : Frame π t (t.setProc p (fun r => { r with killed := true })) :=
  .setProc _ _ _ (fun r => killed r true)

theorem resetPbsChances (t : Table) (c : ℤ) : Frame π t (t.resetPbsChances c).1 := by
  unfold Table.resetPbsChances
  generalize t.maxChances c = m
  induction slots generalizing t with
  | nil => exact .refl t
  | cons p ps ih =>
    have hp : Frame π t (t.setProc p (fun r => { r with pbsChances := r.pbsChances - m })) :=
      .setProc _ _ _ (fun r => chances r _)
    unfold Table.subtractChances
    split_ifs
    · dsimp only
      split_ifs
      · exact hp
      · exact hp.trans (ih _)
    · exact ih t

theorem setPriority (hp : ∀ r v, π { r with currPriority := v, pbsChances := 0 } = π r) (t : Table) (v pid : ℤ) :
    Frame π t (t.setPriority v pid).1 := by
  unfold Table.setPriority
  split_ifs
  · exact .refl t
  · split
    · exact .refl t
    · split_ifs
      · exact .refl t
      · refine (resetPbsChances t v).trans ?_
        dsimp only
        apply Frame.setProc
        intro r
        exact hp r v

end State

section Family

variable [IgnoresFamily π]

theorem setParent (t : Table) (p : Slot) (x : Option Slot) : Frame π t (t.setProc p (fun r => { r with parent := x })) :=
  .setProc _ _ _ (fun r => parent r x)

theorem wakeSleeper (t : Table) (p : Slot) : Frame π t (t.wakeSleeper p) := .setProc _ _ _ (fun r => chan r none)

variable [IgnoresState π]

theorem goSleep (t : Table) (p : Slot) (ch : Chan) (x : Context) : Frame π t (t.goSleep p ch x) :=
  .setProc _ _ _ (fun r => (context { r with chan := some ch, state := .sleeping } x).trans
    ((state { r with chan := some ch } .sleeping).trans (chan r _)))

theorem yield (t : Table) (p : Slot) : Frame π t (t.yield p) :=
  .setProc _ _ _ (fun r => (context { r with state := .runnable } .yield).trans (state r _))

end Family

section Queue

variable [IgnoresQueue π]

theorem pushBackProcess (t : Table) (p : Slot) (q : ℕ) : Frame π t (t.pushBackProcess p q).1 := by
  unfold Table.pushBackProcess
  split
  · exact ⟨rfl, rfl, ⟨rfl, rfl⟩, fun _ => rfl⟩
  · dsimp only
    refine trans ?_ (.setProc _ p _ (fun r => queue r q))
    exact ⟨rfl, rfl, ⟨rfl, rfl⟩, fun _ => rfl⟩

theorem setupDemotion (t : Table) (p : Slot) : Frame π t (t.setupDemotion p) :=
  .setProc _ _ _ (fun r => demote r true)

theorem ageQueue (i fuel j : ℕ) (t : Table) : Frame π t (Scheduler.ageQueue i fuel j t) := by
  induction fuel generalizing j t with
  | zero => exact .refl t
  | succ fuel ih =>
    unfold Scheduler.ageQueue
    split_ifs
    · split
      · exact ih _ _
      · rename_i p hp
        split_ifs
        · refine (deleteProcess t p i).trans (.trans ?_ ((pushBackProcess _ p _).trans (ih _ _)))
          exact .setProc _ _ _ (fun r => wait r 0)
        · exact ih _ _
    · exact .refl t

theorem ageing (t : Table) : Frame π t (Scheduler.ageing t) := by
  unfold Scheduler.ageing
  exact (((ageQueue _ _ _ _).trans (ageQueue _ _ _ _)).trans (ageQueue _ _ _ _)).trans (ageQueue _ _ _ _)

theorem pickMLFQ (t : Table) : Frame π t (Scheduler.pickMLFQ t).1 := by
  refine (ageing t).trans ?_
  unfold Scheduler.pickMLFQ
  dsimp only
  split
  · exact .refl _
  · split
    · exact .refl _
    · split_ifs
      · exact deleteProcess _ _ _
      · exact (deleteProcess _ _ _).trans (⟨rfl, rfl, ⟨rfl, rfl⟩, fun _ => rfl⟩)

theorem requeue (t : Table) (p : Slot) : Frame π t (Scheduler.requeue t p) := by
  unfold Scheduler.requeue Scheduler.demote
  split_ifs
  · refine trans (.setProc t p _ (fun r => ?_)) (pushBackProcess _ _ _)
    exact (queue { r with shouldDemote := false, currTicksGot := 0, currWaitTime := 0 } _).trans
      ((wait { r with shouldDemote := false, currTicksGot := 0 } 0).trans
        ((got { r with shouldDemote := false } 0).trans (demote r false)))
  · exact pushBackProcess _ _ _
  · exact .refl t

end Queue

variable [IgnoresQueue π]

section Life

variable [IgnoresState π]

theorem makeRunnable (b : Build) (t : Table) (np : Slot) : Frame π t (t.makeRunnable b np) := by
  refine (setState t np .runnable).trans ?_
  unfold Table.makeRunnable
  cases b with
  | rr => exact .refl _
  | fcfs => exact .refl _
  | pbs => exact resetPbsChances _ _
  | mlfq => exact pushBackProcess _ _ _

theorem userinitRunnable (b : Build) (t : Table) (p : Slot) : Frame π t (t.userinitRunnable b p) := by
  refine (setState t p .runnable).trans ?_
  unfold Table.userinitRunnable
  dsimp only
  split_ifs
  · exact pushBackProcess _ _ _
  · exact .refl _

theorem wakeOne (b : Build) (chan : Option Chan) (t : Table) (p : Slot) : Frame π t (wakeOne b chan t p) := by
  unfold Table.wakeOne
  split_ifs
  · refine (setState t p .runnable).trans (.trans ?_ (pushBackProcess _ _ _))
    exact .setProc _ _ _ (fun r => got r 0)
  · exact setState t p .runnable
  · exact .refl t

theorem wakeup1 (b : Build) (t : Table) (chan : Option Chan) : Frame π t (t.wakeup1 b chan) :=
  .foldl (wakeOne b chan) _ t

theorem kill (b : Build) (t : Table) (pid : ℤ) : Frame π t (t.kill b pid).1 := by
  unfold Table.kill
  split
  · exact .refl t
  · rename_i p hp
    dsimp only
    split_ifs
    · exact (mark t p).trans ((pushBackProcess _ _ _).trans (setState _ _ _))
    · exact (mark t p).trans (setState _ _ _)
    · exact mark t p

theorem dispatch [IgnoresCount π] (b : Build) (t : Table) (p : Slot) : Frame π t (Scheduler.dispatch b t p) := by
  apply Frame.setProc
  intro r
  have hw : π { r with state := .running, currWaitTime := 0 } = π r :=
    (wait { r with state := .running } 0).trans (state r .running)
  have hs : π { r with state := .running, currWaitTime := 0, numTimesScheduled := i32 (r.numTimesScheduled + 1) } = π r :=
    (scheduled { r with state := .running, currWaitTime := 0 } _).trans hw
  cases b with
  | rr => exact hs
  | fcfs => exact hs
  | pbs => exact hw
  | mlfq =>
    exact (got { r with state := .running, currWaitTime := 0, numTimesScheduled := i32 (r.numTimesScheduled + 1) } 0).trans hs

end Life

variable [IgnoresState π] [IgnoresFamily π]

theorem reparentOne (b : Build) (curproc : Slot) (t : Table) (p : Slot) : Frame π t (reparentOne b curproc t p) := by
  unfold Table.reparentOne
  split
  · dsimp only
    split
    · exact (setParent t p _).trans (wakeup1 _ _ _)
    · exact setParent t p _
  · exact .refl t

end Frame

end EnhancedXv6.ProcTable

