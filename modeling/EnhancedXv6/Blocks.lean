import EnhancedXv6.Bytes
import EnhancedXv6.Fs
import EnhancedXv6.Interleaving

namespace EnhancedXv6.Blocks

open Command Bytes Fs

abbrev BSIZE : ℕ := 512

abbrev NDIRECT : ℕ := 12

abbrev NINDIRECT : ℕ := BSIZE / 4

abbrev MAXFILE : ℕ := NDIRECT + NINDIRECT

abbrev BPB : ℕ := BSIZE * 8

abbrev NDEV : ℤ := 10

structure Superblock where
  size : ℕ
  nblocks : ℕ
  ninodes : ℕ
  bmapstart : ℕ
  bmap_lt : ∀ b < size, b / BPB + bmapstart < size - nblocks
  size_lt : size < 2 ^ 31

def Superblock.nmeta (sb : Superblock) : ℕ := sb.size - sb.nblocks

def Superblock.bblock (sb : Superblock) (b : ℕ) : ℕ := b / BPB + sb.bmapstart

structure Inode where
  type : Ftype := .free
  major : ℤ := 0
  nlink : ℕ := 0
  size : UInt32 := 0
  addrs : ℕ → UInt32 := fun _ => 0

structure Dev where
  read : Option (UInt32 → ℤ × List UInt8)
  write : Option (Mem → UInt32 → ℤ)

structure State where
  block : ℕ → Mem
  dinode : ℕ → Inode
  mem : ℕ → Option Inode
  devsw : ℤ → Dev

namespace State

def setBlock (s : State) (b : ℕ) (d : Mem) : State := { s with block := Function.update s.block b d }

def setDinode (s : State) (i : ℕ) (ip : Inode) : State := { s with dinode := Function.update s.dinode i ip }

def setMem (s : State) (i : ℕ) (ip : Option Inode) : State := { s with mem := Function.update s.mem i ip }

@[simp] theorem setBlock_self (s : State) (b : ℕ) (d : Mem) : (s.setBlock b d).block b = d := Function.update_self ..

theorem setBlock_of_ne (s : State) {b c : ℕ} (d : Mem) (h : c ≠ b) : (s.setBlock b d).block c = s.block c :=
  Function.update_of_ne h ..

@[simp] theorem setMem_self (s : State) (i : ℕ) (ip : Option Inode) : (s.setMem i ip).mem i = ip := Function.update_self ..

theorem setMem_of_ne (s : State) {i j : ℕ} (ip : Option Inode) (h : j ≠ i) : (s.setMem i ip).mem j = s.mem j :=
  Function.update_of_ne h ..

def bit (s : State) (sb : Superblock) (b : ℕ) : Bool := Bytes.bit (s.block (sb.bblock b)) (b % BPB)

def scan (s : State) (sb : Superblock) (b : ℕ) : Option ℕ :=
  ((List.range BPB).find? (fun bi => decide (b + bi < sb.size) && !Bytes.bit (s.block (sb.bblock b)) bi)).map (b + ·)

def findFree (s : State) (sb : Superblock) : Option ℕ :=
  (List.range ((sb.size + BPB - 1) / BPB)).findSome? (fun k => s.scan sb (k * BPB))

def freeInode (s : State) (sb : Superblock) : Option ℕ :=
  (List.range sb.ninodes).find? (fun i => decide (i ≠ 0) && decide ((s.dinode i).type = .free))

end State

inductive Op
  | balloc
  | bzero (b : UInt32)
  | bfree (b : UInt32)
  | word (b : UInt32) (j : ℕ)
  | setWord (b : UInt32) (j : ℕ) (v : UInt32)
  | bytes (b : UInt32) (start m : ℕ)
  | setBytes (b : UInt32) (start m : ℕ) (src : Mem)
  | load (i : ℕ)
  | valid (i : ℕ)
  | inode (i : ℕ)
  | edit (i : ℕ) (f : Inode → Inode)
  | iupdate (i : ℕ)
  | invalidate (i : ℕ)
  | ialloc (type : Ftype)
  | devsw (major : ℤ)
  | panic (msg : String)
  | blocked

def Op.Res : Op → Type
  | balloc => UInt32
  | word .. => UInt32
  | bytes .. => List UInt8
  | valid _ => Bool
  | inode _ => Inode
  | ialloc _ => ℕ
  | devsw _ => Dev
  | _ => Unit

@[reducible] def sig : Sig := ⟨Op, Op.Res⟩

def exec (sb : Superblock) : (o : Op) → State → Except Stop (o.Res × State)
  | .balloc, s => match s.findFree sb with
    | some b => .ok (UInt32.ofNat b, s.setBlock (sb.bblock b) (setBit (s.block (sb.bblock b)) (b % BPB)))
    | none => .error (.panic "balloc: out of blocks")
  | .bzero b, s => .ok ((), s.setBlock b.toNat (fun _ => 0))
  | .bfree b, s =>
    if s.bit sb b.toNat then
      .ok ((), s.setBlock (sb.bblock b.toNat) (clearBit (s.block (sb.bblock b.toNat)) (b.toNat % BPB)))
    else .error (.panic "freeing free block")
  | .word b j, s => .ok (Bytes.word (s.block b.toNat) j, s)
  | .setWord b j v, s => .ok ((), s.setBlock b.toNat (Bytes.setWord (s.block b.toNat) j v))
  | .bytes b start m, s => .ok ((List.range m).map (fun k => s.block b.toNat (start + k)), s)
  | .setBytes b start m src, s => .ok ((), s.setBlock b.toNat (splice (s.block b.toNat) start m src))
  | .load i, s => match s.mem i with
    | some _ => .ok ((), s)
    | none => if (s.dinode i).type = .free then .error (.panic "ilock: no type") else .ok ((), s.setMem i (some (s.dinode i)))
  | .valid i, s => .ok ((s.mem i).isSome, s)
  | .inode i, s => match s.mem i with
    | some ip => .ok (ip, s)
    | none => .error .blocked
  | .edit i f, s => match s.mem i with
    | some ip => .ok ((), s.setMem i (some (f ip)))
    | none => .error .blocked
  | .iupdate i, s => match s.mem i with
    | some ip => .ok ((), s.setDinode i ip)
    | none => .error .blocked
  | .invalidate i, s => .ok ((), s.setMem i none)
  | .ialloc type, s => match s.freeInode sb with
    | some i => .ok (i, s.setDinode i { type := type })
    | none => .error (.panic "ialloc: no inodes")
  | .devsw major, s => .ok (s.devsw major, s)
  | .panic msg, _ => .error (.panic msg)
  | .blocked, _ => .error .blocked

section Programs

abbrev Code (α : Type) := Prog sig α

def op (o : Op) : Code o.Res := .call (S := sig) o

def Inode.setAddr (ip : Inode) (k : ℕ) (b : UInt32) : Inode := { ip with addrs := Function.update ip.addrs k b }

def balloc : Code UInt32 := do
  let b ← op .balloc
  op (.bzero b)
  pure b

def bmapSlot (i k : ℕ) : Code UInt32 := do
  let ip ← op (.inode i)
  if ip.addrs k = 0 then
    let addr ← balloc
    op (.edit i (fun ip => ip.setAddr k addr))
    pure addr
  else pure (ip.addrs k)

def bmap (i bn : ℕ) : Code UInt32 :=
  if bn < NDIRECT then bmapSlot i bn
  else if bn - NDIRECT < NINDIRECT then do
    let b ← bmapSlot i NDIRECT
    let addr : UInt32 ← op (.word b (bn - NDIRECT))
    if addr = 0 then
      let addr ← balloc
      op (.setWord b (bn - NDIRECT) addr)
      pure addr
    else pure addr
  else do
    op (.panic "bmap: out of range")
    pure 0

def itruncSlot (i k : ℕ) : Code Unit := do
  let ip ← op (.inode i)
  if ip.addrs k ≠ 0 then
    op (.bfree (ip.addrs k))
    op (.edit i (fun ip => ip.setAddr k 0))
  else pure ()

def itruncWord (b : UInt32) (j : ℕ) : Code Unit := do
  let a : UInt32 ← op (.word b j)
  if a ≠ 0 then op (.bfree a) else pure ()

def forEach (f : ℕ → Code Unit) : List ℕ → Code Unit
  | [] => pure ()
  | k :: ks => do
    f k
    forEach f ks

def itruncIndirect (i : ℕ) : Code Unit := do
  let ip ← op (.inode i)
  if ip.addrs NDIRECT ≠ 0 then
    forEach (itruncWord (ip.addrs NDIRECT)) (List.range NINDIRECT)
    op (.bfree (ip.addrs NDIRECT))
    op (.edit i (fun ip => ip.setAddr NDIRECT 0))
  else pure ()

def itrunc (i : ℕ) : Code Unit := do
  forEach (itruncSlot i) (List.range NDIRECT)
  itruncIndirect i
  op (.edit i (fun ip => { ip with size := 0 }))
  op (.iupdate i)

/-- The loop of `readi`, with `n` for the bytes that are left; as `m` is not 0, `n` steps are enough. -/
def readLoop (i : ℕ) : ℕ → ℕ → ℕ → Code (List UInt8)
  | 0, _, _ => pure []
  | fuel + 1, off, n =>
    if n = 0 then pure []
    else do
      let b ← bmap i (off / BSIZE)
      let m := min n (BSIZE - off % BSIZE)
      let bytes : List UInt8 ← op (.bytes b (off % BSIZE) m)
      let rest ← readLoop i fuel (off + m) (n - m)
      pure (bytes ++ rest)

def readi (i : ℕ) (off n : UInt32) : Code (ℤ × List UInt8) := do
  let ip ← op (.inode i)
  if ip.type = .dev then
    let dev ← op (.devsw ip.major)
    if ip.major < 0 ∨ ip.major ≥ NDEV then pure (-1, [])
    else match dev.read with
      | none => pure (-1, [])
      | some read => pure (read n)
  else if off > ip.size ∨ off + n < off then pure (-1, [])
  else do
    let n := if off + n > ip.size then ip.size - off else n
    let bytes ← readLoop i n.toNat off.toNat n.toNat
    pure (n.toBitVec.toInt, bytes)

def writeLoop (i : ℕ) : ℕ → ℕ → ℕ → Mem → Code Unit
  | 0, _, _, _ => pure ()
  | fuel + 1, off, n, src =>
    if n = 0 then pure ()
    else do
      let b ← bmap i (off / BSIZE)
      let m := min n (BSIZE - off % BSIZE)
      op (.setBytes b (off % BSIZE) m src)
      writeLoop i fuel (off + m) (n - m) (fun k => src (m + k))

def writeSize (i : ℕ) (off n : UInt32) : Code Unit := do
  let ip ← op (.inode i)
  if n > 0 ∧ off + n > ip.size then
    op (.edit i (fun ip => { ip with size := off + n }))
    op (.iupdate i)
  else pure ()

def writei (i : ℕ) (src : Mem) (off n : UInt32) : Code ℤ := do
  let ip ← op (.inode i)
  if ip.type = .dev then
    let dev ← op (.devsw ip.major)
    if ip.major < 0 ∨ ip.major ≥ NDEV then pure (-1)
    else match dev.write with
      | none => pure (-1)
      | some write => pure (write src n)
  else if off > ip.size ∨ off + n < off then pure (-1)
  else if (off + n).toNat > MAXFILE * BSIZE then pure (-1)
  else do
    writeLoop i n.toNat off.toNat n.toNat src
    writeSize i off n
    pure n.toBitVec.toInt

/-- What `iput` does to the inode; `last` is the test `r == 1` of the reference count. -/
def iput (i : ℕ) (last : Bool) : Code Unit := do
  let valid : Bool ← op (.valid i)
  if valid then
    let ip ← op (.inode i)
    if ip.nlink = 0 ∧ last then
      itrunc i
      op (.edit i (fun ip => { ip with type := .free }))
      op (.iupdate i)
      op (.invalidate i)
    else pure ()
  else pure ()

def update (i : ℕ) (major : ℤ) (nlink : ℕ) : Code Unit := do
  op (.edit i (fun ip => { ip with major := major, nlink := nlink }))
  op (.iupdate i)

end Programs

inductive Call
  | ialloc (type : Ftype)
  | ilock (i : ℕ)
  | update (i : ℕ) (major : ℤ) (nlink : ℕ)
  | readi (i : ℕ) (off n : UInt32)
  | writei (i : ℕ) (src : Mem) (off n : UInt32)
  | iput (i : ℕ) (last : Bool)
  | recycle (i : ℕ)

def Call.code : Call → Code Unit
  | ialloc type => do let _ ← op (.ialloc type)
  | ilock i => op (.load i)
  | update i major nlink => Blocks.update i major nlink
  | readi i off n => do let _ ← Blocks.readi i off n
  | writei i src off n => do let _ ← Blocks.writei i src off n
  | iput i last => Blocks.iput i last
  | recycle i => op (.invalidate i)

end EnhancedXv6.Blocks
