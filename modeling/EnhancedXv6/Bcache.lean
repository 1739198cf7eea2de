import EnhancedXv6.Log
import Mathlib.Data.List.FinRange
import Mathlib.Logic.Function.Basic

namespace EnhancedXv6

def NBUF : ℕ := MAXOPBLOCKS * 3

def ROOTDEV : ℕ := 1

abbrev Block := Fin 128 → ℕ

structure Buf (P : Type*) where
  dev : ℕ := 0
  blockno : ℕ := 0
  valid : Bool := false
  dirty : Bool := false
  holder : Option P := none
  refcnt : ℕ := 0
  data : Block := fun _ => 0

structure Bcache (P : Type*) where
  disk : ℕ → Block
  buf : Fin NBUF → Buf P := fun _ => {}
  lru : List (Fin NBUF) := (List.finRange NBUF).reverse

namespace Bcache

variable {P : Type*}

def setBuf (c : Bcache P) (i : Fin NBUF) (f : Buf P) : Bcache P := { c with buf := Function.update c.buf i f }

def cached (c : Bcache P) (blockno : ℕ) : Option (Fin NBUF) :=
  c.lru.find? (fun i => (c.buf i).dev = ROOTDEV ∧ (c.buf i).blockno = blockno)

def unused (c : Bcache P) : Option (Fin NBUF) :=
  c.lru.reverse.find? (fun i => (c.buf i).refcnt = 0 ∧ (c.buf i).dirty = false)

/-- `bget` up to its `acquiresleep`; `none` is the panic for want of buffers. -/
def bget (c : Bcache P) (blockno : ℕ) : Option (Fin NBUF × Bcache P) :=
  match c.cached blockno with
  | some i => some (i, c.setBuf i { c.buf i with refcnt := (c.buf i).refcnt + 1 })
  | none => c.unused.map (fun i => (i, c.setBuf i { c.buf i with
      dev := ROOTDEV, blockno := blockno, valid := false, dirty := false, refcnt := 1 }))

def iderw (c : Bcache P) (i : Fin NBUF) : Bcache P :=
  if (c.buf i).dirty then
    { c with disk := Function.update c.disk (c.buf i).blockno (c.buf i).data }.setBuf i
      { c.buf i with dirty := false, valid := true }
  else c.setBuf i { c.buf i with data := c.disk (c.buf i).blockno, valid := true }

def fill (c : Bcache P) (i : Fin NBUF) : Bcache P := if (c.buf i).valid then c else c.iderw i

def acquiresleep (c : Bcache P) (i : Fin NBUF) (p : P) : Bcache P := c.setBuf i { c.buf i with holder := some p }

def setData (c : Bcache P) (i : Fin NBUF) (d : Block) : Bcache P := c.setBuf i { c.buf i with data := d }

def setDirty (c : Bcache P) (i : Fin NBUF) : Bcache P := c.setBuf i { c.buf i with dirty := true }

def bwrite (c : Bcache P) (i : Fin NBUF) : Bcache P := (c.setDirty i).iderw i

def brelse (c : Bcache P) (i : Fin NBUF) : Bcache P :=
  { c.setBuf i { c.buf i with holder := none, refcnt := (c.buf i).refcnt - 1 } with
    lru := if (c.buf i).refcnt - 1 = 0 then i :: c.lru.erase i else c.lru }

def bread (c : Bcache P) (blockno : ℕ) : Option (Fin NBUF × Bcache P) :=
  match c.bget blockno with
  | some (i, c) => if (c.buf i).holder.isNone then some (i, c.fill i) else none
  | none => none

end Bcache

end EnhancedXv6
