import EnhancedXv6.Bcache
import EnhancedXv6.Transition

namespace EnhancedXv6.LogDisk

open Transition

structure Layout where
  logstart : ℕ
  nlog : ℕ
  pos : 0 < nlog

def Layout.Home (L : Layout) (blockno : ℕ) : Prop := blockno < L.logstart ∨ L.logstart + L.nlog ≤ blockno

instance (L : Layout) (blockno : ℕ) : Decidable (L.Home blockno) := by
  unfold Layout.Home
  infer_instance

def decode (d : Block) : List ℕ := (List.range (d 0)).map (fun t => d (Fin.ofNat 128 (t + 1)))

def encode (lh : List ℕ) (d : Block) : Block := fun w =>
  if w = 0 then lh.length else (lh[w.val - 1]?).getD (d w)

section Commit

variable {P : Type*}

def writeLog (c : Bcache P) (start tail blockno : ℕ) : Option (Bcache P) := do
  let dst ← c.bread (start + tail + 1)
  let src ← dst.2.bread blockno
  some ((((src.2.setData dst.1 (src.2.buf src.1).data).bwrite dst.1).brelse src.1).brelse dst.1)

def installTrans (c : Bcache P) (start tail blockno : ℕ) : Option (Bcache P) := do
  let lbuf ← c.bread (start + tail + 1)
  let dbuf ← lbuf.2.bread blockno
  some ((((dbuf.2.setData dbuf.1 (dbuf.2.buf lbuf.1).data).bwrite dbuf.1).brelse lbuf.1).brelse dbuf.1)

def readHead (c : Bcache P) (start : ℕ) : Option (List ℕ × Bcache P) := do
  let buf ← c.bread start
  some (decode (buf.2.buf buf.1).data, buf.2.brelse buf.1)

def writeHead (c : Bcache P) (start : ℕ) (lh : List ℕ) : Option (Bcache P) := do
  let buf ← c.bread start
  some (((buf.2.setData buf.1 (encode lh (buf.2.buf buf.1).data)).bwrite buf.1).brelse buf.1)

end Commit

inductive Phase
  | boot
  | idle
  | writeLog (tail : ℕ)
  | install (recovery : Bool) (tail : ℕ)
  | finish
  deriving DecidableEq, Repr

structure Proc where
  inOp : Bool := false
  want : Option (Fin NBUF) := none
  passed : Option (Fin NBUF) := none
  deriving DecidableEq, Repr

structure State (P : Type*) where
  cache : Bcache P
  log : Log
  phase : Phase := .boot
  proc : P → Proc := fun _ => {}
  changed : Fin NBUF → Bool := fun _ => false

inductive Label (P : Type*)
  | beginOp (p : P)
  | bget (p : P) (blockno : ℕ)
  | bread (p : P)
  | change (p : P) (i : Fin NBUF) (d : Block)
  | logCheck (p : P) (i : Fin NBUF)
  | logWrite (p : P)
  | brelse (p : P) (i : Fin NBUF)
  | endOp (p : P)
  | commit
  | recover
  | crash

def Phase.isUp : Phase → Bool
  | boot => false
  | install true _ => false
  | _ => true

namespace State

variable {P : Type*} [DecidableEq P]

def boot (L : Layout) (disk : ℕ → Block) : State P where
  cache := { disk := disk }
  log := { start := L.logstart, size := L.nlog }

def setProc (s : State P) (p : P) (c : Proc) : State P := { s with proc := Function.update s.proc p c }

def Runs (s : State P) (p : P) : Prop := s.phase.isUp ∧ (s.proc p).want = none ∧ (s.proc p).passed = none

instance (s : State P) (p : P) : Decidable (s.Runs p) := by
  unfold Runs
  infer_instance

def beginOp (s : State P) (p : P) : Option (State P) :=
  if (s.proc p).inOp = false then
    s.log.beginOp.map (fun log => { s with log := log }.setProc p { s.proc p with inOp := true })
  else none

def bget (s : State P) (p : P) (blockno : ℕ) : Option (State P) :=
  (s.cache.bget blockno).map (fun r => { s with cache := r.2 }.setProc p { s.proc p with want := some r.1 })

def bread (s : State P) (p : P) : Option (State P) :=
  match (s.proc p).want with
  | some i =>
    if (s.cache.buf i).holder.isNone then
      some ({ s with cache := (s.cache.acquiresleep i p).fill i }.setProc p { s.proc p with want := none })
    else none
  | none => none

def change (L : Layout) (s : State P) (p : P) (i : Fin NBUF) (d : Block) : Option (State P) :=
  if (s.proc p).inOp ∧ (s.cache.buf i).holder = some p ∧ L.Home (s.cache.buf i).blockno then
    some { s with cache := s.cache.setData i d, changed := Function.update s.changed i true }
  else none

def logCheck (L : Layout) (s : State P) (p : P) (i : Fin NBUF) : Option (State P) :=
  if (s.proc p).inOp ∧ (s.cache.buf i).holder = some p ∧ L.Home (s.cache.buf i).blockno then
    match s.log.logCheck with
    | .ok _ => some (s.setProc p { s.proc p with passed := some i })
    | .error _ => none
  else none

def logWrite (s : State P) (p : P) : Option (State P) :=
  match (s.proc p).passed with
  | some i => some ({ s with
      log := s.log.logWrite (s.cache.buf i).blockno
      cache := s.cache.setDirty i
      changed := Function.update s.changed i false }.setProc p { s.proc p with passed := none })
  | none => none

def brelse (s : State P) (p : P) (i : Fin NBUF) : Option (State P) :=
  if (s.cache.buf i).holder = some p ∧ s.changed i = false then some { s with cache := s.cache.brelse i } else none

/-- `end_op`; the last operation goes on to `commit`, which does nothing with an empty log. -/
def endOp (s : State P) (p : P) : Option (State P) :=
  if (s.proc p).inOp ∧ ∀ i, (s.cache.buf i).holder = some p → s.changed i = false then
    match s.log.endOp with
    | .ok log => some ({ s with
        log := log
        phase := if log.committing then (if log.lh = [] then .finish else .writeLog 0) else s.phase }.setProc p
          { s.proc p with inOp := false })
    | .error _ => none
  else none

def installStep (s : State P) (recovery : Bool) (tail : ℕ) : Option (State P) :=
  match s.log.lh[tail]? with
  | some b => (installTrans s.cache s.log.start tail b).map (fun c =>
      { s with cache := c, phase := .install recovery (tail + 1) })
  | none => (writeHead s.cache s.log.start []).map (fun c =>
      { s with cache := c, log := { s.log with lh := [] }, phase := if recovery then .idle else .finish })

def commit (s : State P) : Option (State P) :=
  match s.phase with
  | .writeLog tail => match s.log.lh[tail]? with
    | some b => (writeLog s.cache s.log.start tail b).map (fun c => { s with cache := c, phase := .writeLog (tail + 1) })
    | none => (writeHead s.cache s.log.start s.log.lh).map (fun c => { s with cache := c, phase := .install false 0 })
  | .install false tail => s.installStep false tail
  | .finish => some { s with log := { s.log with committing := false }, phase := .idle }
  | _ => none

def recover (s : State P) : Option (State P) :=
  match s.phase with
  | .boot => (readHead s.cache s.log.start).map (fun r =>
      { s with cache := r.2, log := { s.log with lh := r.1 }, phase := .install true 0 })
  | .install true tail => s.installStep true tail
  | _ => none

def step (L : Layout) (s : State P) : Label P → Option (State P)
  | .beginOp p => if s.Runs p then s.beginOp p else none
  | .bget p blockno => if s.Runs p then s.bget p blockno else none
  | .bread p => if s.phase.isUp then s.bread p else none
  | .change p i d => if s.Runs p then s.change L p i d else none
  | .logCheck p i => if s.Runs p then s.logCheck L p i else none
  | .logWrite p => if s.phase.isUp then s.logWrite p else none
  | .brelse p i => if s.Runs p then s.brelse p i else none
  | .endOp p => if s.Runs p then s.endOp p else none
  | .commit => s.commit
  | .recover => s.recover
  | .crash => some (boot L s.cache.disk)

def InCapacity (s : State P) : Label P → Prop
  | .logWrite p => ∀ i, (s.proc p).passed = some i → (s.cache.buf i).blockno ∉ s.log.lh →
      s.log.lh.length < LOGSIZE ∧ s.log.lh.length < s.log.size - 1
  | _ => True

end State

def machine (P : Type*) [DecidableEq P] (L : Layout) (disk : ℕ → Block) : Machine (State P) (Label P) where
  initial s := s = .boot L disk ∧ decode (disk L.logstart) = []
  next := State.step L

end EnhancedXv6.LogDisk
