import EnhancedXv6.ProcTable

namespace EnhancedXv6.Scheduler

open ProcTable Table

/-- The ageing loop over one queue from index `j` on. The queue only shrinks, so `fuel` turns suffice when `fuel` is its length. -/
def ageQueue (i : ℕ) : ℕ → ℕ → Table → Table
  | 0, _, t => t
  | fuel + 1, j, t =>
    if (j : ℤ) ≤ t.qLatestIdx i then
      match t.queuePtr i j with
      | none => ageQueue i fuel (j + 1) t
      | some p =>
        if (t.proc p).currWaitTime > patienceThreshold i then
          let t := (t.deleteProcess p i).1
          let t := t.setProc p (fun r => { r with currWaitTime := 0 })
          ageQueue i fuel (j + 1) (t.pushBackProcess p (i - 1)).1
        else ageQueue i fuel (j + 1) t
    else t

def ageing (t : Table) : Table :=
  [1, 2, 3, 4].foldl (fun t i => ageQueue i (t.qLatestIdx i + 1).toNat 0 t) t

def dispatch (b : Build) (t : Table) (p : Slot) : Table :=
  t.setProc p (fun r =>
    match b with
    | .pbs => { r with state := .running, currWaitTime := 0 }
    | .mlfq =>
      { r with
        currTicksGot := 0, numTimesScheduled := i32 (r.numTimesScheduled + 1)
        state := .running, currWaitTime := 0 }
    | _ =>
      { r with
        state := .running, currWaitTime := 0
        numTimesScheduled := i32 (r.numTimesScheduled + 1) })

def pickRR (t : Table) (start : ℕ) : Option Slot :=
  slots.find? (fun p => start ≤ p.val ∧ (t.proc p).state = .runnable)

def older (t : Table) (oldest : Option Slot) (p : Slot) : Option Slot :=
  if (t.proc p).state ≠ .runnable then oldest
  else
    match oldest with
    | none => some p
    | some o => if (t.proc p).creationTime < (t.proc o).creationTime then some p else some o

def pickFCFS (t : Table) : Option Slot := slots.foldl (older t) none

def pbsMinimum (t : Table) (m : ℤ × ℤ) (p : Slot) : ℤ × ℤ :=
  if (t.proc p).state ≠ .runnable then m
  else if (t.proc p).currPriority < m.1 then ((t.proc p).currPriority, (t.proc p).pbsChances)
  else if (t.proc p).currPriority = m.1 then
    if m.2 < (t.proc p).pbsChances then (m.1, (t.proc p).pbsChances) else m
  else m

def pbsMinima (t : Table) : ℤ × ℤ := slots.foldl (pbsMinimum t) (1001, 147483647)

def circular (start : Slot) : List Slot := slots.map (fun k => start + k)

def pickPBS (t : Table) (start : Slot) : Option Slot :=
  let m := pbsMinima t
  if m.1 = 101 then none
  else
    (circular start).find? (fun p =>
      (t.proc p).state = .runnable ∧ (t.proc p).currPriority = m.1 ∧ (t.proc p).pbsChances = m.2)

/-- The MLFQ scheduler from `acquire` to the test of the state of the process it took off a queue. -/
def pickMLFQ (t : Table) : Table × Option Slot :=
  let t := ageing t
  match (List.range 5).find? (fun i => 0 ≤ t.qLatestIdx i) with
  | none => (t, none)
  | some i =>
    match t.queuePtr i 0 with
    | none => (t, none)
    | some p =>
      let t := (t.deleteProcess p i).1
      if (t.proc p).state = .runnable then (t, some p)
      else ({ t with dropped := t.dropped + 1 }, none)

def demote (t : Table) (p : Slot) : Table :=
  if (t.proc p).shouldDemote then
    t.setProc p (fun r =>
      { r with
        shouldDemote := false, currTicksGot := 0, currWaitTime := 0
        currQueueId := if r.currQueueId < 4 then r.currQueueId + 1 else r.currQueueId })
  else t

def requeue (t : Table) (p : Slot) : Table :=
  if (t.proc p).state = .runnable then
    let t := demote t p
    (t.pushBackProcess p (t.proc p).currQueueId).1
  else t

end EnhancedXv6.Scheduler
