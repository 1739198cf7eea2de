import EnhancedXv6.Transition
import EnhancedXv6.Scheduler

namespace EnhancedXv6.Threads

open ProcTable Table Scheduler Transition

/-- What a CPU does next. The lock is held at `swtchIn`, where the process just switched to goes on, and at `swtchOut`, where the scheduler goes on; `trap` is the tail of a timer interrupt and `demote` the `yield` after `setup_demotion`. -/
inductive Ctl
  | boot | idle | user | trap | demote | swtchIn | swtchOut
  deriving DecidableEq, Repr

structure Cpu where
  proc : Option Slot := none
  ctl : Ctl := .idle
  startIdx : Slot := 0

inductive Making
  | idle
  | alloced (np : Slot)
  | inited (np : Slot)
  | copied (np : Slot)
  deriving DecidableEq, Repr

/-- `making none` belongs to the boot code, `making (some p)` to the kernel thread of `p`. -/
structure Kernel (n : ℕ) where
  table : Table := {}
  cpu : Fin n → Cpu
  making : Option Slot → Making := fun _ => .idle

inductive Label (n : ℕ)
  | userinitAlloc (c : Fin n)
  | userinitTail (c : Fin n)
  | userinitDone (c : Fin n)
  | forkAlloc (c : Fin n)
  | forkKalloc (c : Fin n) (ok : Bool)
  | forkCopyuvm (c : Fin n) (ok : Bool)
  | forkDone (c : Fin n)
  | exit (c : Fin n)
  | wait (c : Fin n) (context : Context)
  | sleep (c : Fin n) (addr : ℕ)
  | wakeup (c : Fin n) (addr : ℕ)
  | kill (c : Fin n) (pid : ℤ)
  | setPriority (c : Fin n) (newPriority pid : ℤ)
  | fault (c : Fin n)
  | timer (c : Fin n)
  | trapTail (c : Fin n)
  | demoteYield (c : Fin n)
  | schedule (c : Fin n)
  | resume (c : Fin n)
  | back (c : Fin n)
  deriving DecidableEq, Repr

namespace Kernel

variable {n : ℕ}

def LockFree (k : Kernel n) : Prop := ∀ c, (k.cpu c).ctl ≠ .swtchIn ∧ (k.cpu c).ctl ≠ .swtchOut

instance (k : Kernel n) : Decidable k.LockFree := inferInstanceAs (Decidable (∀ _, _))

def procAt (k : Kernel n) (c : Fin n) (ctl : Ctl) : Option Slot :=
  if (k.cpu c).ctl = ctl then (k.cpu c).proc else none

def setCpu (k : Kernel n) (c : Fin n) (f : Cpu → Cpu) : Kernel n :=
  { k with cpu := Function.update k.cpu c (f (k.cpu c)) }

def setCtl (k : Kernel n) (c : Fin n) (ctl : Ctl) : Kernel n := k.setCpu c (fun x => { x with ctl := ctl })

def setTable (k : Kernel n) (t : Table) : Kernel n := { k with table := t }

def setMaking (k : Kernel n) (key : Option Slot) (m : Making) : Kernel n :=
  { k with making := Function.update k.making key m }

def runOn (k : Kernel n) (b : Build) (c : Fin n) (p : Slot) : Kernel n :=
  (k.setTable (dispatch b k.table p)).setCpu c (fun x => { x with proc := some p, ctl := .swtchIn })

def release (k : Kernel n) (c : Fin n) : Kernel n :=
  k.setCpu c (fun x => { x with proc := none, ctl := .idle })

def waitTurn (k : Kernel n) (c : Fin n) (p : Slot) (context : Context) : Kernel n :=
  match k.table.waitScan p with
  | .reap q => (k.setTable (k.table.reap q)).setCtl c .user
  | .fail => k.setCtl c .user
  | .sleep => (k.setTable (k.table.goSleep p (.proc p) context)).setCtl c .swtchOut

def yieldOn (k : Kernel n) (c : Fin n) (p : Slot) : Kernel n :=
  (k.setTable (k.table.yield p)).setCtl c .swtchOut

def preempt (k : Kernel n) (b : Build) (c : Fin n) (p : Slot) : Kernel n :=
  match b with
  | .fcfs => k.setCtl c .user
  | .mlfq =>
    if (k.table.proc p).currTicksGot ≥ runtimeLimit (k.table.proc p).currQueueId + 1 then
      (k.setTable (k.table.setupDemotion p)).setCtl c .demote
    else k.setCtl c .user
  | _ => k.yieldOn c p

def schedule (k : Kernel n) (b : Build) (c : Fin n) : Kernel n :=
  match b with
  | .mlfq =>
    let r := pickMLFQ k.table
    match r.2 with
    | none => k.setTable r.1
    | some p => (k.setTable r.1).runOn b c p
  | .rr => (pickRR k.table 0).elim k (k.runOn b c)
  | .fcfs => (pickFCFS k.table).elim k (k.runOn b c)
  | .pbs => (pickPBS k.table (k.cpu c).startIdx).elim k (k.runOn b c)

def resume (k : Kernel n) (c : Fin n) (p : Slot) : Kernel n :=
  match (k.table.proc p).context with
  | .forkret => k.setCtl c .user
  | .yield => k.setCtl c .user
  | .sleep => (k.setTable (k.table.wakeSleeper p)).setCtl c .user
  | .wait => (k.setTable (k.table.wakeSleeper p)).waitTurn c p .wait
  | .waitx => (k.setTable (k.table.wakeSleeper p)).waitTurn c p .waitx

def back (k : Kernel n) (b : Build) (c : Fin n) (p : Slot) : Kernel n :=
  match b with
  | .rr => (pickRR k.table (p.val + 1)).elim (k.release c) (k.runOn b c)
  | .fcfs => k.release c
  | .pbs => (k.release c).setCpu c (fun x => { x with startIdx := p + 1 })
  | .mlfq => (k.setTable (requeue k.table p)).release c

def guarded (P : Prop) [Decidable P] (k : Kernel n) : Option (Kernel n) := if P then some k else none

/-- `sleep` by a kernel thread in the middle of `fork`, `exit` by `init` and a `userinit` without memory do not happen or end in a panic, and have no step. -/
def step (b : Build) (k : Kernel n) : Label n → Option (Kernel n)
  | .userinitAlloc c =>
    if k.LockFree ∧ (k.cpu c).ctl = .boot ∧ k.making none = .idle then
      k.table.allocproc.map (fun r => (k.setTable r.1).setMaking none (.alloced r.2))
    else none
  | .userinitTail c =>
    match k.making none with
    | .alloced p => guarded ((k.cpu c).ctl = .boot)
        ((k.setTable { k.table.allocprocTail b p with initproc := some p }).setMaking none (.inited p))
    | _ => none
  | .userinitDone c =>
    match k.making none with
    | .inited p => guarded (k.LockFree ∧ (k.cpu c).ctl = .boot)
        (((k.setTable (k.table.userinitRunnable b p)).setMaking none .idle).setCtl c .idle)
    | _ => none
  | .forkAlloc c =>
    (k.procAt c .user).bind (fun p =>
      if k.LockFree ∧ k.making (some p) = .idle then
        match k.table.allocproc with
        | none => some k
        | some r => some ((k.setTable r.1).setMaking (some p) (.alloced r.2))
      else none)
  | .forkKalloc c ok =>
    (k.procAt c .user).bind (fun p =>
      match k.making (some p) with
      | .alloced np =>
        if ok then some ((k.setTable (k.table.allocprocTail b np)).setMaking (some p) (.inited np))
        else some ((k.setTable (k.table.freeEmbryo np)).setMaking (some p) .idle)
      | _ => none)
  | .forkCopyuvm c ok =>
    (k.procAt c .user).bind (fun p =>
      match k.making (some p) with
      | .inited np =>
        if ok then
          some ((k.setTable (k.table.setProc np (fun r => { r with parent := some p }))).setMaking
            (some p) (.copied np))
        else some ((k.setTable (k.table.freeEmbryo np)).setMaking (some p) .idle)
      | _ => none)
  | .forkDone c =>
    (k.procAt c .user).bind (fun p =>
      match k.making (some p) with
      | .copied np => guarded k.LockFree
          ((k.setTable (k.table.makeRunnable b np)).setMaking (some p) .idle)
      | _ => none)
  | .exit c =>
    (k.cpu c).proc.bind (fun p =>
      guarded (k.LockFree ∧ k.making (some p) = .idle ∧ k.table.initproc ≠ some p ∧
          ((k.cpu c).ctl = .user ∨ ((k.cpu c).ctl = .trap ∧ (k.table.proc p).killed)))
        ((k.setTable (k.table.exit b p)).setCtl c .swtchOut))
  | .wait c context =>
    (k.procAt c .user).bind (fun p =>
      guarded (k.LockFree ∧ k.making (some p) = .idle ∧ (context = .wait ∨ context = .waitx))
        (k.waitTurn c p context))
  | .sleep c addr =>
    (k.procAt c .user).bind (fun p =>
      guarded (k.LockFree ∧ k.making (some p) = .idle)
        ((k.setTable (k.table.goSleep p (.addr addr) .sleep)).setCtl c .swtchOut))
  | .wakeup c addr =>
    guarded (k.LockFree ∧ ((k.cpu c).ctl = .user ∨ (k.cpu c).ctl = .idle))
      (k.setTable (k.table.wakeup1 b (some (.addr addr))))
  | .kill c pid =>
    (k.procAt c .user).bind (fun p =>
      guarded (k.LockFree ∧ k.making (some p) = .idle) (k.setTable (k.table.kill b pid).1))
  | .setPriority c newPriority pid =>
    (k.procAt c .user).bind (fun p =>
      guarded (k.LockFree ∧ k.making (some p) = .idle)
        (k.setTable (k.table.setPriority newPriority pid).1))
  | .fault c =>
    (k.procAt c .user).map (fun p =>
      k.setTable (k.table.setProc p (fun r => { r with killed := true })))
  | .timer c =>
    guarded (k.LockFree ∧ ((k.cpu c).ctl = .user ∨ (k.cpu c).ctl = .idle))
      ((k.setTable (if c.val = 0 then k.table.tick b else k.table)).setCtl c
        (if (k.cpu c).ctl = .user then .trap else .idle))
  | .trapTail c => (k.procAt c .trap).bind (fun p => guarded k.LockFree (k.preempt b c p))
  | .demoteYield c => (k.procAt c .demote).bind (fun p => guarded k.LockFree (k.yieldOn c p))
  | .schedule c => guarded (k.LockFree ∧ (k.cpu c).ctl = .idle) (k.schedule b c)
  | .resume c => (k.procAt c .swtchIn).map (k.resume c)
  | .back c => (k.procAt c .swtchOut).map (k.back b c)

def start (n : ℕ) : Kernel n where
  cpu c := { ctl := if c.val = 0 then .boot else .idle }

end Kernel

def machine (b : Build) (n : ℕ) : Machine (Kernel n) (Label n) where
  initial k := k = Kernel.start n
  next := Kernel.step b

def boot {n : ℕ} [NeZero n] : List (Label n) :=
  [.userinitAlloc 0, .userinitTail 0, .userinitDone 0, .schedule 0, .resume 0]

def fork {n : ℕ} [NeZero n] : List (Label n) :=
  [.forkAlloc 0, .forkKalloc 0 true, .forkCopyuvm 0 true, .forkDone 0]

end EnhancedXv6.Threads
