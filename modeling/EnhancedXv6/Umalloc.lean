import EnhancedXv6.Transition
import Mathlib.Data.Finset.Basic
import Mathlib.Logic.Function.Basic

namespace EnhancedXv6.Umalloc

open Transition

/-- `obtained` has the address and the units of what `sbrk` returned, which no function reads. -/
structure Heap where
  ptr : ℕ → ℕ := fun _ => 0
  size : ℕ → ℕ := fun _ => 0
  freep : ℕ := 0
  obtained : List (ℕ × ℕ) := []

namespace Heap

def search (h : Heap) (bp : ℕ) : ℕ → ℕ → Option ℕ
  | 0, _ => none
  | fuel + 1, p =>
    if bp > p ∧ bp < h.ptr p then some p
    else if p ≥ h.ptr p ∧ (bp > p ∨ bp < h.ptr p) then some p
    else search h bp fuel (h.ptr p)

def joinUpper (h : Heap) (bp p : ℕ) : Heap :=
  if bp + 8 * h.size bp = h.ptr p then
    { h with size := Function.update h.size bp (h.size bp + h.size (h.ptr p)), ptr := Function.update h.ptr bp (h.ptr (h.ptr p)) }
  else { h with ptr := Function.update h.ptr bp (h.ptr p) }

def joinLower (h : Heap) (bp p : ℕ) : Heap :=
  if p + 8 * h.size p = bp then
    { h with size := Function.update h.size p (h.size p + h.size bp), ptr := Function.update h.ptr p (h.ptr bp) }
  else { h with ptr := Function.update h.ptr p bp }

def free (fuel : ℕ) (h : Heap) (ap : ℕ) : Option Heap :=
  (h.search (ap - 8) fuel h.freep).map (fun p =>
    { (h.joinUpper (ap - 8) p).joinLower (ap - 8) p with freep := p })

def coreUnits (nu : ℕ) : ℕ := if nu < 4096 then 4096 else nu

/-- `r` is what `sbrk` returns, where `none` is -1. The result is the value of `freep`, or 0. -/
def morecore (fuel : ℕ) (h : Heap) (nu : ℕ) (r : Option ℕ) : Option (Heap × ℕ) :=
  match r with
  | none => some (h, 0)
  | some hp =>
    let h := { h with size := Function.update h.size hp (coreUnits nu), obtained := (hp, coreUnits nu) :: h.obtained }
    (free fuel h (hp + 8)).map (fun h => (h, h.freep))

def take (h : Heap) (nunits prevp p : ℕ) : Heap × ℕ :=
  if h.size p = nunits then ({ h with ptr := Function.update h.ptr prevp (h.ptr p), freep := prevp }, p + 8)
  else
    let left := h.size p - nunits
    ({ h with size := Function.update (Function.update h.size p left) (p + 8 * left) nunits, freep := prevp },
      p + 8 * left + 8)

/-- The loop of `malloc`. `rs` has what the calls of `sbrk` return one after the other; those after its end fail. -/
def mallocLoop (limit nunits : ℕ) : ℕ → List (Option ℕ) → ℕ → ℕ → Heap → Option (Heap × ℕ)
  | 0, _, _, _, _ => none
  | fuel + 1, rs, prevp, p, h =>
    if nunits ≤ h.size p then some (h.take nunits prevp p)
    else if p = h.freep then
      (morecore limit h nunits rs.head?.join).bind (fun x =>
        if x.2 = 0 then some (x.1, 0) else mallocLoop limit nunits fuel rs.tail x.2 (x.1.ptr x.2) x.1)
    else mallocLoop limit nunits fuel rs p (h.ptr p) h

def units (nbytes : ℕ) : ℕ := (nbytes + 8 - 1) / 8 + 1

theorem units_pos (nbytes : ℕ) : 0 < units nbytes := Nat.succ_pos _

def start (h : Heap) (base : ℕ) : Heap :=
  if h.freep = 0 then { h with ptr := Function.update h.ptr base base, size := Function.update h.size base 0, freep := base } else h

def malloc (base fuel : ℕ) (h : Heap) (nbytes : ℕ) (rs : List (Option ℕ)) : Option (Heap × ℕ) :=
  let h := h.start base
  mallocLoop fuel (units nbytes) fuel rs h.freep (h.ptr h.freep) h

def memory (h : Heap) : Set ℕ := {x | ∃ r ∈ h.obtained, r.1 ≤ x ∧ x < r.1 + 8 * r.2}

end Heap

structure State where
  heap : Heap := {}
  live : Finset ℕ := ∅
  asked : ℕ → ℕ := fun _ => 0

inductive Label
  | malloc (nbytes : ℕ) (rs : List (Option ℕ)) (fuel : ℕ)
  | free (ap : ℕ) (fuel : ℕ)

def State.step (base : ℕ) (s : State) : Label → Option State
  | .malloc nbytes rs fuel => (s.heap.malloc base fuel nbytes rs).map (fun x =>
      if x.2 = 0 then { s with heap := x.1 }
      else
        { heap := x.1, live := insert (x.2 - 8) s.live
          asked := Function.update s.asked (x.2 - 8) nbytes })
  | .free ap fuel =>
    if ap - 8 ∈ s.live then (s.heap.free fuel ap).map (fun h => { s with heap := h, live := s.live.erase (ap - 8) })
    else none

def machine (base : ℕ) : Machine State Label where
  initial s := 0 < base ∧ s = {}
  next s l := s.step base l

def Fresh (base : ℕ) (s : State) : Label → Prop
  | .malloc nbytes rs _ => ∀ r, rs.head? = some (some r) →
    ∀ x, r ≤ x → x < r + 8 * Heap.coreUnits (Heap.units nbytes) → x ∉ s.heap.memory ∧ ¬ (base ≤ x ∧ x < base + 8)
  | .free _ _ => True

def Clear (base : ℕ) : Label → Prop
  | .malloc nbytes rs _ => ∀ r, rs.head? = some (some r) → 0 < r ∧ r + 8 * Heap.coreUnits (Heap.units nbytes) ≠ base
  | .free _ _ => True

end EnhancedXv6.Umalloc
