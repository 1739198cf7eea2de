import EnhancedXv6.ProcTable
import EnhancedXv6.Transition
import Mathlib.Logic.Relation
import Mathlib.Order.Defs.PartialOrder

namespace Deadlock

variable {C L α : Type*} (wants : C → Option L) (holder : L → Option C)

def WaitsFor (c d : C) : Prop := ∃ l, wants c = some l ∧ holder l = some d

def Deadlocked : Prop := ∃ c, Relation.TransGen (WaitsFor wants holder) c c

variable {wants holder}

theorem rank_lt_of_waits [Preorder α] (rank : L → α)
    (h : ∀ c l m, wants c = some l → holder m = some c → rank m < rank l) {c d : C}
    (hcd : Relation.TransGen (WaitsFor wants holder) c d) {l m : L} (hl : wants c = some l)
    (hm : wants d = some m) : rank l < rank m := by
  induction hcd generalizing m with
  | single hstep =>
    obtain ⟨k, hk, hd⟩ := hstep
    obtain rfl : k = l := Option.some.inj (hk.symm.trans hl)
    exact h _ m k hm hd
  | tail _ hstep ih =>
    obtain ⟨k, hk, hd⟩ := hstep
    exact lt_trans (ih hk) (h _ m k hm hd)

theorem not_deadlocked_of_rank [Preorder α] (rank : L → α)
    (h : ∀ c l m, wants c = some l → holder m = some c → rank m < rank l) : ¬ Deadlocked wants holder := by
  rintro ⟨c, hc⟩
  obtain ⟨d, ⟨l, hl, -⟩, -⟩ := Relation.TransGen.head'_iff.mp hc
  exact lt_irrefl _ (rank_lt_of_waits rank h hc hl hl)

end Deadlock

namespace EnhancedXv6.Spinlocks

open ProcTable Transition

inductive Lock
  | ptable | cons | tickslock
  deriving DecidableEq, Repr

inductive Op
  | acquire (l : Lock)
  | release (l : Lock)
  | swtch
  deriving DecidableEq, Repr

open Op Lock

def cprintf : List Op := [acquire cons, release cons]

def cprintfs (m : ℕ) : List Op := (List.replicate m cprintf).flatten

/-- The prints that `logs` switches on are compiled in the MLFQ build only. -/
def logs (b : Build) (m : ℕ) : List Op := if b = .mlfq then cprintfs m else []

/-- `wakeup`, `kill`, `allocproc`, `set_priority` and `update_process_stats` alike take `ptable.lock` alone. -/
def wakeup : List Op := [acquire ptable, release ptable]

/-- `sleep` with a lock other than `ptable.lock`, up to `sched`; `none` is a lock outside of the three. -/
def sleep (lk : Option Lock) : List Op := acquire ptable :: (lk.map release).toList ++ [swtch]

inductive Section
  | exit
  | fork
  | getPsData (used : ℕ)
  | yield
  | wait (sleeps : Bool)
  | sleep
  | sysSleep (sleeps : Bool)
  | consoleread (sleeps : Bool)
  | consolewrite
  | wakeup
  | consoleintr (lines : ℕ)
  | timer
  | schedule (aged : ℕ) (found : Bool)
  deriving DecidableEq, Repr

def Section.ops (b : Build) : Section → List Op
  | .exit => acquire ptable :: cprintf ++ [swtch]
  | .fork => acquire ptable :: logs b 1 ++ [release ptable]
  | .getPsData used => acquire ptable :: cprintfs (used + 1) ++ [release ptable]
  | .yield => [acquire ptable, swtch]
  | .wait sleeps => [acquire ptable, if sleeps then swtch else release ptable]
  | .sleep => Spinlocks.sleep none
  | .sysSleep sleeps => acquire tickslock :: if sleeps then Spinlocks.sleep (some tickslock) else [release tickslock]
  | .consoleread sleeps => acquire cons :: if sleeps then Spinlocks.sleep (some cons) else [release cons]
  | .consolewrite => cprintf
  | .wakeup => Spinlocks.wakeup
  | .consoleintr lines => acquire cons :: (List.replicate lines Spinlocks.wakeup).flatten ++ [release cons]
  | .timer => acquire tickslock :: Spinlocks.wakeup ++ Spinlocks.wakeup ++ [release tickslock]
  | .schedule aged found => acquire ptable :: logs b aged ++ [if found then swtch else release ptable]

/-- Where the section can start: `none` for the interrupt handlers, which run in any context. -/
def Section.inProc : Section → Option Bool
  | .schedule _ _ => some false
  | .wakeup | .consoleintr _ | .timer => none
  | _ => some true

inductive Resume
  | scheduler (demoted : Bool) (found : Bool)
  | process (sleeps : Bool)
  deriving DecidableEq, Repr

def Resume.ops (b : Build) : Resume → List Op
  | .scheduler demoted found => logs b demoted.toNat ++ [if b = .rr ∧ found then swtch else release ptable]
  | .process sleeps => [if sleeps then swtch else release ptable]

def Resume.inProc : Resume → Bool
  | .scheduler _ _ => false
  | .process _ => true

structure Cpu where
  todo : List Op := []
  inProc : Bool := false

structure State (n : ℕ) where
  cpu : Fin n → Cpu := fun _ => {}
  holder : Lock → Option (Fin n) := fun _ => none

inductive Label (n : ℕ)
  | enter (c : Fin n) (s : Section)
  | acquire (c : Fin n)
  | release (c : Fin n)
  | swtch (c : Fin n) (r : Resume)
  deriving DecidableEq, Repr

namespace State

variable {n : ℕ}

def setTodo (s : State n) (c : Fin n) (ops : List Op) : State n :=
  { s with cpu := Function.update s.cpu c { s.cpu c with todo := ops } }

def Starts (s : State n) (c : Fin n) (x : Section) : Prop :=
  (s.cpu c).todo = [] ∧ (x.inProc = none ∨ x.inProc = some (s.cpu c).inProc) ∧ (x = .timer → c.val = 0)

instance (s : State n) (c : Fin n) (x : Section) : Decidable (s.Starts c x) := inferInstanceAs (Decidable (_ ∧ _))

def step (b : Build) (s : State n) : Label n → Option (State n)
  | .enter c x => if s.Starts c x then some (s.setTodo c (x.ops b)) else none
  | .acquire c =>
    match (s.cpu c).todo with
    | Op.acquire l :: ops =>
      if s.holder l = none then some { s.setTodo c ops with holder := Function.update s.holder l (some c) }
      else none
    | _ => none
  | .release c =>
    match (s.cpu c).todo with
    | Op.release l :: ops =>
      if s.holder l = some c then some { s.setTodo c ops with holder := Function.update s.holder l none }
      else none
    | _ => none
  | .swtch c r =>
    if (s.cpu c).todo = [Op.swtch] ∧ r.inProc ≠ (s.cpu c).inProc then
      some { s with cpu := Function.update s.cpu c { todo := r.ops b, inProc := r.inProc } }
    else none

def wants (s : State n) (c : Fin n) : Option Lock :=
  match (s.cpu c).todo with
  | Op.acquire l :: _ => some l
  | _ => none

def CyclicWait (s : State n) : Prop := Deadlock.Deadlocked s.wants s.holder

end State

def machine (b : Build) (n : ℕ) : Machine (State n) (Label n) where
  initial s := s = {}
  next := State.step b

end EnhancedXv6.Spinlocks
