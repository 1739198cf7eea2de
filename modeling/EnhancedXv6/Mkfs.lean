import EnhancedXv6.Blocks
import EnhancedXv6.Dirs
import EnhancedXv6.Paths

namespace EnhancedXv6.Mkfs

open Bytes Fs Blocks

abbrev FSSIZE : ℕ := 1000

abbrev NINODES : ℕ := 200

abbrev IPB : ℕ := 8

abbrev nlog : ℕ := 30

abbrev ninodeblocks : ℕ := NINODES / IPB + 1

abbrev nbitmap : ℕ := FSSIZE / (BSIZE * 8) + 1

abbrev nmeta : ℕ := 2 + nlog + ninodeblocks + nbitmap

abbrev nblocks : ℕ := FSSIZE - nmeta

abbrev inodestart : ℕ := 2 + nlog

abbrev bmapstart : ℕ := 2 + nlog + ninodeblocks

def superblock (j : ℕ) : UInt32 := UInt32.ofNat ([FSSIZE, nblocks, NINODES, nlog, 2, inodestart, bmapstart].getD j 0)

section Inodes

def typeCode : Ftype → ℕ
  | .free => 0
  | .dir => 1
  | .file => 2
  | .dev => 3

def typeOf (n : ℕ) : Ftype := if n = 1 then .dir else if n = 2 then .file else if n = 3 then .dev else .free

def dinodeWord (ip : Inode) : ℕ → UInt32
  | 0 => UInt32.ofNat (typeCode ip.type + 65536 * (ip.major % 65536).toNat)
  | 1 => UInt32.ofNat (65536 * ip.nlink)
  | 2 => ip.size
  | k + 3 => ip.addrs k

def ofWords (w : ℕ → UInt32) : Inode where
  type := typeOf ((w 0).toNat % 65536)
  major := if (w 0).toNat / 65536 < 32768 then ((w 0).toNat / 65536 : ℕ) else ((w 0).toNat / 65536 : ℕ) - 65536
  nlink := (w 1).toNat / 65536
  size := w 2
  addrs k := if k ≤ NDIRECT then w (k + 3) else 0

def iblock (start inum : ℕ) : ℕ := inum / IPB + start

def dinodeIn (buf : Mem) (inum : ℕ) : Inode := ofWords (fun j => word buf (16 * (inum % IPB) + j))

end Inodes

structure State where
  img : ℕ → Mem
  freeinode : ℕ
  freeblock : ℕ

namespace State

/-- The image has `FSSIZE` blocks: past its end nothing is read, and `mkfs` exits. -/
def rsect (st : State) (sec : ℕ) : Option Mem := if sec < FSSIZE then some (st.img sec) else none

def wsect (st : State) (sec : ℕ) (buf : Mem) : State := { st with img := Function.update st.img sec buf }

def winode (st : State) (inum : ℕ) (ip : Inode) : Option State := do
  let buf ← st.rsect (iblock inodestart inum)
  pure (st.wsect (iblock inodestart inum) (setWords buf (16 * (inum % IPB)) (dinodeWord ip) 16))

def rinode (st : State) (inum : ℕ) : Option Inode := do
  let buf ← st.rsect (iblock inodestart inum)
  pure (dinodeIn buf inum)

def ialloc (st : State) (type : Ftype) : Option (ℕ × State) := do
  let inum := st.freeinode
  let st := { st with freeinode := inum + 1 }
  let st ← st.winode inum { type := type, nlink := 1, size := 0 }
  pure (inum, st)

def fillSlot (st : State) (din : Inode) (k : ℕ) : State × Inode :=
  if din.addrs k = 0 then ({ st with freeblock := st.freeblock + 1 }, din.setAddr k (UInt32.ofNat st.freeblock)) else (st, din)

def iappendBlock (st : State) (din : Inode) (fbn : ℕ) : Option (UInt32 × State × Inode) :=
  if fbn < NDIRECT then
    let (st, din) := st.fillSlot din fbn
    some (din.addrs fbn, st, din)
  else do
    let (st, din) := st.fillSlot din NDIRECT
    let indirect ← st.rsect (din.addrs NDIRECT).toNat
    if word indirect (fbn - NDIRECT) = 0 then
      let indirect := setWord indirect (fbn - NDIRECT) (UInt32.ofNat st.freeblock)
      let st := { st with freeblock := st.freeblock + 1 }
      let st := st.wsect (din.addrs NDIRECT).toNat indirect
      some (word indirect (fbn - NDIRECT), st, din)
    else some (word indirect (fbn - NDIRECT), st, din)

/-- The loop of `iappend`, with `n` bytes left; as `n1` is not 0, `n + 1` turns are enough. -/
def iappendLoop : ℕ → State → Inode → ℕ → ℕ → Mem → Option (State × Inode × ℕ)
  | 0, _, _, _, _, _ => none
  | fuel + 1, st, din, off, n, p =>
    if n = 0 then some (st, din, off)
    else
      let fbn := off / BSIZE
      -- `assert(fbn < MAXFILE)`
      if MAXFILE ≤ fbn then none
      else do
        let (x, st, din) ← st.iappendBlock din fbn
        let n1 := min n ((fbn + 1) * BSIZE - off)
        let buf ← st.rsect x.toNat
        let st := st.wsect x.toNat (splice buf (off - fbn * BSIZE) n1 p)
        iappendLoop fuel st din (off + n1) (n - n1) (fun k => p (n1 + k))

def iappend (st : State) (inum : ℕ) (p : Mem) (n : ℕ) : Option State := do
  let din ← st.rinode inum
  let (st, din, off) ← iappendLoop (n + 1) st din din.size.toNat n p
  st.winode inum { din with size := UInt32.ofNat off }

end State

def bitmap : ℕ → Mem
  | 0 => fun _ => 0
  | i + 1 => setBit (bitmap i) i

def State.balloc (st : State) (used : ℕ) : Option State :=
  if used < BSIZE * 8 then some (st.wsect bmapstart (bitmap used)) else none

/-- A file of the host: its name, and what `read` returns of it before it returns 0. -/
structure HostFile where
  name : List UInt8
  reads : List (List UInt8)
  no_zero : 0 ∉ name
  some_bytes : ∀ r ∈ reads, r ≠ [] ∧ r.length ≤ BSIZE

namespace HostFile

def bytes (f : HostFile) : List UInt8 := f.reads.flatten

def fsName (f : HostFile) : List UInt8 := if f.name.head? = some 95 then f.name.tail else f.name

end HostFile

def str (name : List UInt8) : Mem := fun k => name.getD k 0

namespace State

def iappendAll (st : State) (inum : ℕ) : List (List UInt8) → Option State
  | [] => some st
  | r :: reads => do
    let st ← st.iappend inum (str r) r.length
    st.iappendAll inum reads

def addFile (st : State) (f : HostFile) : Option State :=
  -- `assert(index(argv[i], '/') == 0)`
  if 47 ∈ f.name then none
  else do
    let (inum, st) ← st.ialloc .file
    let st ← st.iappend Names.ROOTINO (Names.dirent (str f.fsName) inum) 16
    st.iappendAll inum f.reads

def addFiles (st : State) : List HostFile → Option State
  | [] => some st
  | f :: files => do
    let st ← st.addFile f
    st.addFiles files

def blank : State where
  img := Function.update (fun _ _ => 0) 1 (setWords (fun _ => 0) 0 superblock 7)
  freeinode := 1
  freeblock := nmeta

def root : Option State := do
  let (rootino, st) ← blank.ialloc .dir
  if rootino = Names.ROOTINO then
    let st ← st.iappend rootino (Names.dirent Names.dot rootino) 16
    st.iappend rootino (Names.dirent Names.dotdot rootino) 16
  else none

def fixSize (st : State) : Option State := do
  let din ← st.rinode Names.ROOTINO
  let off := din.size
  let off := (off / UInt32.ofNat BSIZE + 1) * UInt32.ofNat BSIZE
  st.winode Names.ROOTINO { din with size := off }

end State

/-- The globals at the end, if `mkfs` exits with 0. -/
def main (files : List HostFile) : Option State := do
  let st ← State.root
  let st ← st.addFiles files
  let st ← st.fixSize
  st.balloc st.freeblock

end EnhancedXv6.Mkfs
