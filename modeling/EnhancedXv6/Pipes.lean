import EnhancedXv6.Transition
import Mathlib.Data.Int.Notation
import Mathlib.Logic.Function.Basic

namespace EnhancedXv6.Pipes

open Transition

def PIPESIZE : UInt32 := 512

structure Pipe where
  data : Fin 512 → UInt8 := fun _ => 0
  nread : UInt32 := 0
  nwrite : UInt32 := 0
  readopen : Bool := true
  writeopen : Bool := true

inductive Call
  | out (ret : ℤ) (data : List UInt8)
  | read (n : ℕ)
  | write (n : ℕ) (rest : List UInt8)
  | sleepRead (n : ℕ)
  | sleepWrite (n : ℕ) (rest : List UInt8)
  deriving DecidableEq, Repr

structure State (P : Type*) where
  pipe : Pipe := {}
  freed : Bool := false
  call : P → Call := fun _ => .out 0 []
  killed : P → Bool := fun _ => false

namespace Pipe

def put (p : Pipe) (b : UInt8) : Pipe :=
  { p with data := Function.update p.data (Fin.ofNat 512 p.nwrite.toNat) b, nwrite := p.nwrite + 1 }

def take (p : Pipe) : Pipe := { p with nread := p.nread + 1 }

def copyIn : Pipe → List UInt8 → Pipe × List UInt8
  | p, [] => (p, [])
  | p, b :: bs => if p.nwrite = p.nread + PIPESIZE then (p, b :: bs) else copyIn (p.put b) bs

def copyOut : ℕ → Pipe → Pipe × List UInt8
  | 0, p => (p, [])
  | n + 1, p =>
    if p.nread = p.nwrite then (p, [])
    else
      let r := copyOut n p.take
      (r.1, p.data (Fin.ofNat 512 p.nread.toNat) :: r.2)

end Pipe

inductive Label (P : Type*)
  | callRead (p : P) (n : ℕ)
  | callWrite (p : P) (addr : List UInt8)
  | run (p : P) (late : Bool)
  | close (writable : Bool)
  | kill (p : P)

def Call.isOut : Call → Bool
  | .out _ _ => true
  | _ => false

def Call.wakeRead : Call → Call
  | .sleepRead n => .read n
  | c => c

def Call.wakeWrite : Call → Call
  | .sleepWrite n rest => .write n rest
  | c => c

namespace State

variable {P : Type*} [DecidableEq P]

def setCall (s : State P) (p : P) (c : Call) : State P := { s with call := Function.update s.call p c }

def wakeupRead (s : State P) : State P := { s with call := fun p => (s.call p).wakeRead }

def wakeupWrite (s : State P) : State P := { s with call := fun p => (s.call p).wakeWrite }

def piperead (s : State P) (p : P) (n : ℕ) : State P :=
  if s.pipe.nread = s.pipe.nwrite ∧ s.pipe.writeopen then
    if s.killed p then s.setCall p (.out (-1) []) else s.setCall p (.sleepRead n)
  else
    let r := s.pipe.copyOut n
    ({ s with pipe := r.1 } : State P).wakeupWrite.setCall p (.out r.2.length r.2)

def pipewrite (s : State P) (p : P) (n : ℕ) (rest : List UInt8) : State P :=
  let r := s.pipe.copyIn rest
  let s := { s with pipe := r.1 }
  match r.2 with
  | [] => s.wakeupRead.setCall p (.out n [])
  | rest => if s.pipe.readopen = false ∨ s.killed p then s.setCall p (.out (-1) [])
    else s.wakeupRead.setCall p (.sleepWrite n rest)

def pipeclose (s : State P) (writable : Bool) : State P :=
  let s := if writable then ({ s with pipe := { s.pipe with writeopen := false } } : State P).wakeupRead
    else ({ s with pipe := { s.pipe with readopen := false } } : State P).wakeupWrite
  if s.pipe.readopen = false ∧ s.pipe.writeopen = false then { s with freed := true } else s

/-- A section reads `killed` at most once; `late` is a kill that comes between this and the end of the section. -/
def critical (s : State P) (p : P) (late : Bool) : Option (State P) :=
  let t := match s.call p with
    | .read n => some (s.piperead p n)
    | .write n rest => some (s.pipewrite p n rest)
    | _ => none
  t.map (fun t => { t with killed := Function.update t.killed p (t.killed p || late) })

def step (s : State P) : Label P → Option (State P)
  | .callRead p n => if s.freed = false ∧ (s.call p).isOut then some (s.setCall p (.read n)) else none
  | .callWrite p addr =>
    if s.freed = false ∧ (s.call p).isOut then some (s.setCall p (.write addr.length addr)) else none
  | .run p late => if s.freed = false then s.critical p late else none
  | .close writable => if s.freed = false then some (s.pipeclose writable) else none
  | .kill p =>
    some { s with
      killed := Function.update s.killed p true
      call := Function.update s.call p (s.call p).wakeRead.wakeWrite }

end State

def machine (P : Type*) [DecidableEq P] : Machine (State P) (Label P) where
  initial s := s = {}
  next := State.step

end EnhancedXv6.Pipes
