import EnhancedXv6.Bytes
import EnhancedXv6.Command
import Mathlib.Data.Int.Notation
import Mathlib.Logic.Function.Basic

namespace EnhancedXv6.Vm

open Command Bytes

abbrev PGSIZE : ℕ := 4096

abbrev EXTMEM : ℕ := 0x100000

abbrev PHYSTOP : ℕ := 0xE000000

abbrev DEVSPACE : ℕ := 0xFE000000

abbrev KERNBASE : ℕ := 0x80000000

def PTE_P : UInt32 := 1

def PTE_W : UInt32 := 2

def PTE_U : UInt32 := 4

def PDX (va : ℕ) : ℕ := va / 4194304 % 1024

def PTX (va : ℕ) : ℕ := va / 4096 % 1024

def PGROUNDUP (sz : ℕ) : ℕ := (sz + 4095) % 0x100000000 / 4096 * 4096

def PGROUNDDOWN (a : ℕ) : ℕ := a / 4096 * 4096

def frame (pte : UInt32) : ℕ := pte.toNat / 4096

def PTE_FLAGS (pte : UInt32) : UInt32 := pte &&& 0xFFF

structure Layout where
  data : ℕ
  kend : ℕ
  aligned : data % 4096 = 0
  text : EXTMEM < data
  order : data ≤ kend
  room : kend < PHYSTOP

/-- `freelist` are the pages in the list of `kmem`, and `denied` says which of the next calls of `kalloc` find no page although there is one. -/
structure Ram where
  page : ℕ → Mem := fun _ _ => 0
  freelist : List ℕ := []
  denied : List Bool := []

namespace Ram

def setPage (r : Ram) (f : ℕ) (d : Mem) : Ram := { r with page := Function.update r.page f d }

/-- What `kfree` does; the link to the next page, which is in the page itself, is left out. -/
def push (r : Ram) (f : ℕ) : Ram := { r.setPage f (fun _ => 1) with freelist := f :: r.freelist }

end Ram

inductive Stop
  | panic (msg : String)
  | null
  | fault
  | loop
  | bounds
  deriving DecidableEq

inductive Op
  | kalloc
  | kfree (f : ℕ)
  | word (f j : ℕ)
  | setWord (f j : ℕ) (v : UInt32)
  | memset (f : ℕ) (b : UInt8)
  | memmove (dst src : ℕ)
  | store (f off : ℕ) (bs : List UInt8)
  | stop (e : Stop)

def Op.Res : Op → Type
  | kalloc => Option ℕ
  | word .. => UInt32
  | _ => Unit

@[reducible] def sig : Sig := ⟨Op, Op.Res⟩

def overwrite (d : Mem) (off : ℕ) (bs : List UInt8) : Mem := fun k => if off ≤ k then (bs[k - off]?).getD (d k) else d k

def access {α : Type} (f : ℕ) (x : α) : Except Stop α := if f * 4096 < PHYSTOP then .ok x else .error .fault

def exec (L : Layout) : (o : Op) → Ram → Except Stop (o.Res × Ram)
  | .kalloc, r =>
    if r.denied.headD false then .ok (none, { r with denied := r.denied.tail })
    else match r.freelist with
      | [] => .ok (none, { r with denied := r.denied.tail })
      | f :: fs => .ok (some f, { r with freelist := fs, denied := r.denied.tail })
  | .kfree f, r =>
    if f * 4096 < L.kend ∨ PHYSTOP ≤ f * 4096 then .error (.panic "kfree")
    else .ok ((), r.push f)
  | .word f j, r => access f (Bytes.word (r.page f) j, r)
  | .setWord f j v, r => access f ((), r.setPage f (Bytes.setWord (r.page f) j v))
  | .memset f b, r => access f ((), r.setPage f (fun _ => b))
  | .memmove dst src, r => access (max dst src) ((), r.setPage dst (r.page src))
  | .store f off bs, r => access f ((), r.setPage f (overwrite (r.page f) off bs))
  | .stop e, _ => .error e

section Programs

abbrev Code (α : Type) := Prog sig α

def op (o : Op) : Code o.Res := .call (S := sig) o

def V2P (f : ℕ) : UInt32 := UInt32.ofNat (f * 4096)

def walkpgdir (pgdir va : ℕ) (alloc : Bool) : Code (Option (ℕ × ℕ)) := do
  let pde : UInt32 ← op (.word pgdir (PDX va))
  if pde &&& PTE_P ≠ 0 then pure (some (frame pde, PTX va))
  else if alloc then
    let pgtab : Option ℕ ← op .kalloc
    match pgtab with
    | none => pure none
    | some pgtab =>
      op (.memset pgtab 0)
      op (.setWord pgdir (PDX va) (V2P pgtab ||| PTE_P ||| PTE_W ||| PTE_U))
      pure (some (pgtab, PTX va))
  else pure none

/-- The loop of `mappages`. The page tables have `0x100000` entries, so it ends after so many turns. -/
def mappagesLoop (pgdir last : ℕ) (perm : UInt32) : ℕ → ℕ → ℕ → Code ℤ
  | 0, _, _ => do
    op (.stop .loop)
    pure (-1)
  | fuel + 1, a, pa => do
    let pte ← walkpgdir pgdir a true
    match pte with
    | none => pure (-1)
    | some (pgtab, j) =>
      let old : UInt32 ← op (.word pgtab j)
      if old &&& PTE_P ≠ 0 then
        op (.stop (.panic "remap"))
        pure (-1)
      else
        op (.setWord pgtab j (UInt32.ofNat pa ||| perm ||| PTE_P))
        if a = last then pure 0
        else mappagesLoop pgdir last perm fuel ((a + PGSIZE) % 0x100000000) ((pa + PGSIZE) % 0x100000000)

def mappages (pgdir va size pa : ℕ) (perm : UInt32) : Code ℤ :=
  mappagesLoop pgdir (PGROUNDDOWN ((va + size + 0xFFFFFFFF) % 0x100000000)) perm 0x100000 (PGROUNDDOWN va) pa

def deallocuvmLoop (pgdir oldsz : ℕ) : ℕ → ℕ → Code Unit
  | 0, _ => op (.stop .loop)
  | fuel + 1, a =>
    if a < oldsz then do
      let pte ← walkpgdir pgdir a false
      match pte with
      | none =>
        let a := ((PDX a + 1) * 4194304 % 0x100000000 + 0x100000000 - PGSIZE) % 0x100000000
        deallocuvmLoop pgdir oldsz fuel ((a + PGSIZE) % 0x100000000)
      | some (pgtab, j) =>
        let pte : UInt32 ← op (.word pgtab j)
        if pte &&& PTE_P ≠ 0 then
          if frame pte = 0 then op (.stop (.panic "kfree"))
          else
            op (.kfree (frame pte))
            op (.setWord pgtab j 0)
            deallocuvmLoop pgdir oldsz fuel ((a + PGSIZE) % 0x100000000)
        else deallocuvmLoop pgdir oldsz fuel ((a + PGSIZE) % 0x100000000)
    else pure ()

def deallocuvm (pgdir oldsz newsz : ℕ) : Code ℕ :=
  if newsz ≥ oldsz then pure oldsz
  else do
    deallocuvmLoop pgdir oldsz 0x100001 (PGROUNDUP newsz)
    pure newsz

def allocuvmLoop (pgdir oldsz newsz : ℕ) : ℕ → ℕ → Code ℕ
  | 0, _ => do
    op (.stop .loop)
    pure 0
  | fuel + 1, a =>
    if a < newsz then do
      let mem : Option ℕ ← op .kalloc
      match mem with
      | none =>
        let _ ← deallocuvm pgdir newsz oldsz
        pure 0
      | some mem =>
        op (.memset mem 0)
        let ret ← mappages pgdir a PGSIZE (mem * 4096) (PTE_W ||| PTE_U)
        if ret < 0 then
          let _ ← deallocuvm pgdir newsz oldsz
          op (.kfree mem)
          pure 0
        else allocuvmLoop pgdir oldsz newsz fuel ((a + PGSIZE) % 0x100000000)
    else pure newsz

def allocuvm (pgdir oldsz newsz : ℕ) : Code ℕ :=
  if newsz ≥ KERNBASE then pure 0
  else if newsz < oldsz then pure oldsz
  else allocuvmLoop pgdir oldsz newsz 0x100001 (PGROUNDUP oldsz)

def freeTables (pgdir : ℕ) : ℕ → ℕ → Code Unit
  | 0, _ => pure ()
  | n + 1, i => do
    let pde : UInt32 ← op (.word pgdir i)
    if pde &&& PTE_P ≠ 0 then
      op (.kfree (frame pde))
      freeTables pgdir n (i + 1)
    else freeTables pgdir n (i + 1)

def freevm (pgdir : ℕ) : Code Unit := do
  let _ ← deallocuvm pgdir KERNBASE 0
  freeTables pgdir 1024 0
  op (.kfree pgdir)

structure Kmap where
  virt : ℕ
  physStart : ℕ
  physEnd : ℕ
  perm : UInt32

def Kmap.size (k : Kmap) : ℕ := (k.physEnd + 0x100000000 - k.physStart) % 0x100000000

def kmap (L : Layout) : List Kmap :=
  [⟨KERNBASE, 0, EXTMEM, PTE_W⟩,
    ⟨KERNBASE + EXTMEM, EXTMEM, L.data, 0⟩,
    ⟨KERNBASE + L.data, L.data, PHYSTOP, PTE_W⟩,
    ⟨DEVSPACE, DEVSPACE, 0, PTE_W⟩]

def setupkvmLoop (pgdir : ℕ) : List Kmap → Code (Option ℕ)
  | [] => pure (some pgdir)
  | k :: ks => do
    let ret ← mappages pgdir k.virt k.size k.physStart k.perm
    if ret < 0 then
      freevm pgdir
      pure none
    else setupkvmLoop pgdir ks

/-- The test of `PHYSTOP` against `DEVSPACE` is left out, since both are constants. -/
def setupkvm (L : Layout) : Code (Option ℕ) := do
  let pgdir : Option ℕ ← op .kalloc
  match pgdir with
  | none => pure none
  | some pgdir =>
    op (.memset pgdir 0)
    setupkvmLoop pgdir (kmap L)

def clearpteu (pgdir uva : ℕ) : Code Unit := do
  let pte ← walkpgdir pgdir uva false
  match pte with
  | none => op (.stop (.panic "clearpteu"))
  | some (pgtab, j) =>
    let pte : UInt32 ← op (.word pgtab j)
    op (.setWord pgtab j (pte &&& ~~~ PTE_U))

def copyuvmLoop (d pgdir sz : ℕ) : ℕ → ℕ → Code Bool
  | 0, _ => do
    op (.stop .loop)
    pure false
  | fuel + 1, i =>
    if i < sz then do
      let pte ← walkpgdir pgdir i false
      match pte with
      | none =>
        op (.stop (.panic "copyuvm: pte should exist"))
        pure false
      | some (pgtab, j) =>
        let pte : UInt32 ← op (.word pgtab j)
        if pte &&& PTE_P = 0 then
          op (.stop (.panic "copyuvm: page not present"))
          pure false
        else
          let mem : Option ℕ ← op .kalloc
          match mem with
          | none => pure false
          | some mem =>
            op (.memmove mem (frame pte))
            let ret ← mappages d i PGSIZE (mem * 4096) (PTE_FLAGS pte)
            if ret < 0 then
              op (.kfree mem)
              pure false
            else copyuvmLoop d pgdir sz fuel ((i + PGSIZE) % 0x100000000)
    else pure true

def copyuvm (L : Layout) (pgdir sz : ℕ) : Code (Option ℕ) := do
  let d ← setupkvm L
  match d with
  | none => pure none
  | some d =>
    let ok ← copyuvmLoop d pgdir sz 0x100001 0
    if ok then pure (some d)
    else
      freevm d
      pure none

/-- The page of a user address; the entry is read also when `walkpgdir` returns 0. -/
def uva2ka (pgdir uva : ℕ) : Code (Option ℕ) := do
  let pte ← walkpgdir pgdir uva false
  match pte with
  | none =>
    op (.stop .null)
    pure none
  | some (pgtab, j) =>
    let pte : UInt32 ← op (.word pgtab j)
    if pte &&& PTE_P = 0 then pure none
    else if pte &&& PTE_U = 0 then pure none
    else pure (some (frame pte))

/-- The loop of `copyout`, with `buf` for the bytes that are left; every turn copies one at least. -/
def copyoutLoop (pgdir : ℕ) : ℕ → ℕ → List UInt8 → Code ℤ
  | 0, _, _ => pure 0
  | fuel + 1, va, buf =>
    if buf.length > 0 then do
      let va0 := PGROUNDDOWN va
      let pa0 ← uva2ka pgdir va0
      match pa0 with
      | none => pure (-1)
      | some pa0 =>
        let n := min (PGSIZE - (va - va0)) buf.length
        op (.store pa0 (va - va0) (buf.take n))
        copyoutLoop pgdir fuel ((va0 + PGSIZE) % 0x100000000) (buf.drop n)
    else pure 0

def copyout (pgdir va : ℕ) (buf : List UInt8) : Code ℤ := copyoutLoop pgdir buf.length va buf

structure Proc where
  sz : ℕ
  pgdir : ℕ

def addInt (sz : ℕ) (n : ℤ) : ℕ := ((sz + n) % 0x100000000).toNat

def growproc (p : Proc) (n : ℤ) : Code (ℤ × Proc) :=
  if n > 0 then do
    let sz ← allocuvm p.pgdir p.sz (addInt p.sz n)
    if sz = 0 then pure (-1, p) else pure (0, { p with sz := sz })
  else if n < 0 then do
    let sz ← deallocuvm p.pgdir p.sz (addInt p.sz n)
    if sz = 0 then pure (-1, p) else pure (0, { p with sz := sz })
  else pure (0, p)

end Programs

end EnhancedXv6.Vm
