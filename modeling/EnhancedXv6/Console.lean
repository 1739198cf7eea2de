import EnhancedXv6.Fifo
import EnhancedXv6.Transition
import Mathlib.Data.Int.Notation

namespace EnhancedXv6.Console

open Transition

def INPUT_BUF : UInt32 := 128

theorem toNat_INPUT_BUF : INPUT_BUF.toNat = 128 := rfl

instance : NeZero INPUT_BUF.toNat := ⟨by decide⟩

structure Input where
  buf : Fin INPUT_BUF.toNat → UInt8 := fun _ => 0
  r : UInt32 := 0
  w : UInt32 := 0
  e : UInt32 := 0

def C (x : Char) : UInt8 := x.toUInt8 - 64

inductive Reader
  | out (ret : ℤ) (dst : List UInt8)
  | read (target n : ℕ) (dst : List UInt8)
  | sleep (target n : ℕ) (dst : List UInt8)
  deriving DecidableEq, Repr

def cell (x : UInt32) : Fin INPUT_BUF.toNat := Fin.ofNat INPUT_BUF.toNat x.toNat

namespace Input

/-- The loop for `^U`; it turns at most `e - w` times. -/
def killLine : ℕ → Input → Input
  | 0, i => i
  | fuel + 1, i => if i.e ≠ i.w ∧ i.buf (cell (i.e - 1)) ≠ 10 then killLine fuel { i with e := i.e - 1 } else i

def put (i : Input) (c : UInt8) : Input := { i with buf := Function.update i.buf (cell i.e) c, e := i.e + 1 }

def consoleintr (i : Input) (c : UInt8) : Input × Bool :=
  if c = C 'P' then (i, false)
  else if c = C 'U' then (i.killLine (i.e - i.w).toNat, false)
  else if c = C 'H' ∨ c = 127 then (if i.e ≠ i.w then { i with e := i.e - 1 } else i, false)
  else if c ≠ 0 ∧ i.e - i.r < INPUT_BUF then
    let c := if c = 13 then 10 else c
    let i := i.put c
    if c = 10 ∨ c = C 'D' ∨ i.e = i.r + INPUT_BUF then ({ i with w := i.e }, true) else (i, false)
  else (i, false)

/-- The loop of `consoleread`, with `killed` for the test of `myproc()->killed`. -/
def consoleread (killed : Bool) (target : ℕ) : ℕ → List UInt8 → Input → Input × Reader
  | 0, dst, i => (i, .out target dst)
  | n + 1, dst, i =>
    if i.r = i.w then (i, if killed then .out (-1) dst else .sleep target (n + 1) dst)
    else
      let c := i.buf (cell i.r)
      let i := { i with r := i.r + 1 }
      if c = C 'D' then
        (if n + 1 < target then { i with r := i.r - 1 } else i, .out ((target : ℤ) - (n + 1 : ℕ)) dst)
      else if c = 10 then (i, .out ((target : ℤ) - n) (dst ++ [c]))
      else consoleread killed target n (dst ++ [c]) i

end Input

structure State (P : Type*) where
  input : Input := {}
  reader : P → Reader := fun _ => .out 0 []

inductive Label (P : Type*)
  | key (c : UInt8)
  | call (p : P) (n : ℕ)
  | run (p : P) (killed : Bool)
  | wake (p : P)

def Reader.wakeup : Reader → Reader
  | .sleep target n dst => .read target n dst
  | x => x

namespace State

variable {P : Type*} [DecidableEq P]

def setReader (s : State P) (p : P) (x : Reader) : State P := { s with reader := Function.update s.reader p x }

@[simp] theorem setReader_self (s : State P) (p : P) (x : Reader) : (s.setReader p x).reader p = x := Function.update_self ..

theorem setReader_of_ne (s : State P) {p q : P} (x : Reader) (h : q ≠ p) : (s.setReader p x).reader q = s.reader q :=
  Function.update_of_ne h ..

def step (s : State P) : Label P → Option (State P)
  | .key c =>
    let x := s.input.consoleintr c
    some { input := x.1, reader := if x.2 then fun p => (s.reader p).wakeup else s.reader }
  | .call p n => match s.reader p with
    | .out _ _ => some (s.setReader p (.read n n []))
    | _ => none
  | .run p killed => match s.reader p with
    | .read target n dst =>
      let x := s.input.consoleread killed target n dst
      some ({ s with input := x.1 }.setReader p x.2)
    | _ => none
  | .wake p => some (s.setReader p (s.reader p).wakeup)

end State

def machine (P : Type*) [DecidableEq P] : Machine (State P) (Label P) where
  initial s := s = {}
  next := State.step

end EnhancedXv6.Console
