import Mathlib.Algebra.Group.Int.Defs
import Mathlib.Algebra.GroupWithZero.Nat
import Mathlib.Data.Fin.Basic
import Mathlib.Data.List.FinRange
import Mathlib.Logic.Function.Basic

namespace EnhancedXv6.ProcTable

inductive Build
  | rr | fcfs | pbs | mlfq
  deriving DecidableEq, Repr

inductive ProcState
  | unused | embryo | sleeping | runnable | running | zombie
  deriving DecidableEq, Repr

abbrev NPROC : ℕ := 64

abbrev Slot := Fin NPROC

inductive Chan
  | proc (p : Slot)
  | addr (a : ℕ)
  deriving DecidableEq, Repr

inductive Context
  | forkret | yield | sleep | wait | waitx
  deriving DecidableEq, Repr

structure Proc where
  state : ProcState := .unused
  pid : ℤ := 0
  parent : Option Slot := none
  context : Context := .forkret
  chan : Option Chan := none
  killed : Bool := false
  creationTime : ℤ := 0
  endTime : ℤ := 0
  totRunTime : ℤ := 0
  currWaitTime : ℤ := 0
  totSleepTime : ℤ := 0
  currPriority : ℤ := 0
  pbsChances : ℤ := 0
  shouldDemote : Bool := false
  currQueueId : ℕ := 0
  numTimesScheduled : ℤ := 0
  totTicksGot : ℕ → ℤ := fun _ => 0
  currTicksGot : ℤ := 0

/-- The globals of `proc.c` and the tick counter. The last three fields are read by no step: the pids handed out by `allocproc`, the pushes that `push_back_process` refused and the processes the MLFQ scheduler took off a queue without running them. -/
structure Table where
  proc : Slot → Proc := fun _ => {}
  nextpid : ℤ := 1
  initproc : Option Slot := none
  ticks : ℤ := 0
  queuePtr : ℕ → ℕ → Option Slot := fun _ _ => none
  qLatestIdx : ℕ → ℤ := fun _ => -1
  handedOut : ℕ := 0
  refused : ℕ := 0
  dropped : ℕ := 0

def patienceThreshold : ℕ → ℤ
  | 0 => 60
  | 1 => 20
  | 2 => 25
  | 3 => 30
  | _ => 35

def runtimeLimit : ℕ → ℤ
  | 0 => 1
  | 1 => 2
  | 2 => 4
  | 3 => 8
  | _ => 16

def i32 (x : ℤ) : ℤ := x.bmod (2 ^ 32)

theorem i32_emod (x : ℤ) : i32 x % 2 ^ 32 = x % 2 ^ 32 := Int.bmod_emod

theorem i32_eq_i32_iff {x y : ℤ} : i32 x = i32 y ↔ x % 2 ^ 32 = y % 2 ^ 32 := by
  unfold i32
  rw [Int.bmod_def, Int.bmod_def]
  omega

theorem i32_eq_self_iff {x : ℤ} : i32 x = x ↔ -2 ^ 31 ≤ x ∧ x < 2 ^ 31 := by
  unfold i32
  rw [Int.bmod_def]
  omega

theorem i32_eq {x : ℤ} (h : 0 ≤ x) (hx : x < 2 ^ 31) : i32 x = x := i32_eq_self_iff.mpr ⟨by omega, hx⟩

theorem i32_succ (x : ℤ) : i32 (i32 x + 1) = i32 (x + 1) := Int.bmod_add_bmod

def slots : List Slot := List.finRange NPROC

namespace Table

def setProc (t : Table) (p : Slot) (f : Proc → Proc) : Table :=
  { t with proc := Function.update t.proc p (f (t.proc p)) }

def pidAt (t : Table) (q i : ℕ) : Option ℤ := (t.queuePtr q i).map (fun r => (t.proc r).pid)

def pushBackProcess (t : Table) (p : Slot) (q : ℕ) : Table × ℤ :=
  if (List.range (t.qLatestIdx q).toNat).any (fun i => t.pidAt q i = some (t.proc p).pid) then
    ({ t with refused := t.refused + 1 }, -1)
  else
    let last := t.qLatestIdx q + 1
    (({ t with
        qLatestIdx := Function.update t.qLatestIdx q last
        queuePtr := Function.update t.queuePtr q
          (Function.update (t.queuePtr q) last.toNat (some p)) } : Table).setProc p
      (fun r => { r with currQueueId := q }), 1)

def deleteProcess (t : Table) (p : Slot) (q : ℕ) : Table × ℤ :=
  match (List.range (t.qLatestIdx q + 1).toNat).find? (fun i => t.pidAt q i = some (t.proc p).pid) with
  | none => (t, 0)
  | some pos =>
    let last := (t.qLatestIdx q).toNat
    ({ t with
        queuePtr := Function.update t.queuePtr q (fun i =>
          if i = last then none
          else if pos ≤ i ∧ i < last then t.queuePtr q (i + 1) else t.queuePtr q i)
        qLatestIdx := Function.update t.qLatestIdx q (t.qLatestIdx q - 1) }, 1)

def getMaxima (a b : ℤ) : ℤ := if a > b then a else b

def maxChances (t : Table) (priority : ℤ) : ℤ :=
  slots.foldl (fun m p =>
    if (t.proc p).currPriority = priority then getMaxima m (t.proc p).pbsChances else m) 0

def subtractChances (priority m : ℤ) : List Slot → Table → Table × ℤ
  | [], t => (t, 0)
  | p :: ps, t =>
    if (t.proc p).currPriority = priority then
      let t' := t.setProc p (fun r => { r with pbsChances := r.pbsChances - m })
      if (t'.proc p).pbsChances ≠ 0 ∧ (t'.proc p).pbsChances ≠ 1 then (t', -1)
      else subtractChances priority m ps t'
    else subtractChances priority m ps t

def resetPbsChances (t : Table) (newPriority : ℤ) : Table × ℤ :=
  subtractChances newPriority (t.maxChances newPriority) slots t

def initializeNewFields (b : Build) (t : Table) (p : Slot) : Table :=
  t.setProc p (fun r =>
    let r : Proc := { r with
      creationTime := i32 t.ticks, totSleepTime := 0, totRunTime := 0, numTimesScheduled := 0,
      endTime := 0, currWaitTime := 0, currPriority := 60, pbsChances := 0 }
    let r : Proc := if b = .pbs then r else { r with currPriority := -1 }
    if b = .mlfq then
      { r with
        currTicksGot := 0, currQueueId := 0
        totTicksGot := fun i => if i < 5 then 0 else r.totTicksGot i }
    else r)

def allocproc (t : Table) : Option (Table × Slot) :=
  (slots.find? (fun p => (t.proc p).state = .unused)).map (fun p =>
    (({ t with nextpid := i32 (t.nextpid + 1), handedOut := t.handedOut + 1 } : Table).setProc p
      (fun r => { r with state := .embryo, pid := t.nextpid, currPriority := 60 }),
     p))

/-- The unlocked part of `allocproc` once `kalloc` has given a kernel stack. -/
def allocprocTail (b : Build) (t : Table) (p : Slot) : Table :=
  initializeNewFields b (t.setProc p (fun r => { r with context := .forkret })) p

def freeEmbryo (t : Table) (p : Slot) : Table := t.setProc p (fun r => { r with state := .unused })

def makeRunnable (b : Build) (t : Table) (np : Slot) : Table :=
  let t := t.setProc np (fun r => { r with state := .runnable })
  match b with
  | .pbs => (t.resetPbsChances (t.proc np).currPriority).1
  | .mlfq => (t.pushBackProcess np 0).1
  | _ => t

def userinitRunnable (b : Build) (t : Table) (p : Slot) : Table :=
  let t := t.setProc p (fun r => { r with state := .runnable })
  if b = .mlfq then (t.pushBackProcess p 0).1 else t

def wakeOne (b : Build) (chan : Option Chan) (t : Table) (p : Slot) : Table :=
  if (t.proc p).state = .sleeping ∧ (t.proc p).chan = chan then
    let t := t.setProc p (fun r => { r with state := .runnable })
    if b = .mlfq then
      let t := t.setProc p (fun r => { r with currTicksGot := 0 })
      (t.pushBackProcess p (t.proc p).currQueueId).1
    else t
  else t

def wakeup1 (b : Build) (t : Table) (chan : Option Chan) : Table := slots.foldl (wakeOne b chan) t

def kill (b : Build) (t : Table) (pid : ℤ) : Table × ℤ :=
  match slots.find? (fun p => (t.proc p).pid = pid) with
  | none => (t, -1)
  | some p =>
    let t := t.setProc p (fun r => { r with killed := true })
    if (t.proc p).state = .sleeping then
      let t := if b = .mlfq then (t.pushBackProcess p (t.proc p).currQueueId).1 else t
      (t.setProc p (fun r => { r with state := .runnable }), 0)
    else (t, 0)

def setPriority (t : Table) (newPriority pid : ℤ) : Table × ℤ :=
  if newPriority < 0 ∨ newPriority > 100 then (t, -4)
  else
    match slots.find? (fun p => (t.proc p).pid = pid) with
    | none => (t, -3)
    | some p =>
      if (t.proc p).state = .unused ∨ (t.proc p).state = .zombie then (t, -2)
      else
        let t := (t.resetPbsChances newPriority).1
        (t.setProc p (fun r => { r with currPriority := newPriority, pbsChances := 0 }),
          (t.proc p).currPriority)

def reparentOne (b : Build) (curproc : Slot) (t : Table) (p : Slot) : Table :=
  if (t.proc p).parent = some curproc then
    let t := t.setProc p (fun r => { r with parent := t.initproc })
    if (t.proc p).state = .zombie then wakeup1 b t (t.initproc.map .proc) else t
  else t

def exit (b : Build) (t : Table) (p : Slot) : Table :=
  let t := wakeup1 b t ((t.proc p).parent.map .proc)
  let t := slots.foldl (reparentOne b p) t
  t.setProc p (fun r => { r with state := .zombie, endTime := i32 t.ticks })

inductive WaitResult
  | reap (child : Slot)
  | fail
  | sleep
  deriving DecidableEq, Repr

def waitScan (t : Table) (p : Slot) : WaitResult :=
  match slots.find? (fun q => (t.proc q).parent = some p ∧ (t.proc q).state = .zombie) with
  | some q => .reap q
  | none =>
    if slots.all (fun q => (t.proc q).parent ≠ some p) ∨ (t.proc p).killed then .fail else .sleep

def reap (t : Table) (q : Slot) : Table :=
  t.setProc q (fun r => { r with pid := 0, parent := none, killed := false, state := .unused })

def waitxTimes (t : Table) (q : Slot) : ℤ × ℤ :=
  ((t.proc q).totRunTime,
   i32 ((t.proc q).endTime - (t.proc q).creationTime - ((t.proc q).totRunTime + (t.proc q).totSleepTime)))

def goSleep (t : Table) (p : Slot) (chan : Chan) (context : Context) : Table :=
  t.setProc p (fun r => { r with chan := some chan, state := .sleeping, context := context })

def wakeSleeper (t : Table) (p : Slot) : Table := t.setProc p (fun r => { r with chan := none })

def yield (t : Table) (p : Slot) : Table :=
  t.setProc p (fun r => { r with state := .runnable, context := .yield })

def setupDemotion (t : Table) (p : Slot) : Table :=
  t.setProc p (fun r => { r with shouldDemote := true })

def tickProc (b : Build) (r : Proc) : Proc :=
  if r.killed ∨ r.pid = 0 then r
  else
    match r.state with
    | .running =>
      let r : Proc := { r with totRunTime := i32 (r.totRunTime + 1) }
      if b = .mlfq then
        { r with
          currTicksGot := r.currTicksGot + 1
          totTicksGot := Function.update r.totTicksGot r.currQueueId (r.totTicksGot r.currQueueId + 1) }
      else r
    | .sleeping => { r with totSleepTime := i32 (r.totSleepTime + 1) }
    | .runnable => { r with currWaitTime := r.currWaitTime + 1 }
    | _ => r

def updateProcessStats (b : Build) (t : Table) : Table :=
  { t with proc := fun p => tickProc b (t.proc p) }

def tick (b : Build) (t : Table) : Table := updateProcessStats b { t with ticks := (t.ticks + 1) % 2 ^ 32 }

end Table

end EnhancedXv6.ProcTable
