import EnhancedXv6.Command
import Mathlib.Algebra.GroupWithZero.Nat
import Mathlib.Data.Int.Notation
import Mathlib.Data.List.FinRange
import Mathlib.Logic.Function.Basic

namespace EnhancedXv6.Fs

def NFILE : ℕ := 100

def NOFILE : ℕ := 16

def NINODE : ℕ := 50

inductive Ftype
  | free
  | dir
  | file
  | dev
  deriving DecidableEq, Repr

structure Dirent (N : ℕ) where
  inum : Fin N
  name : String
  deriving DecidableEq, Repr

structure Inode (N : ℕ) where
  type : Ftype := .free
  nlink : ℕ := 0
  entries : List (Dirent N) := []
  deriving DecidableEq, Repr

abbrev Ip := Fin NINODE

inductive FileKind
  | none
  | pipe
  | inode (ip : Ip)
  deriving DecidableEq, Repr

structure File where
  ref : ℕ := 0
  kind : FileKind := .none
  deriving DecidableEq, Repr

structure State (P : Type) (N : ℕ) where
  inode : Fin N → Inode N
  inum : Ip → Fin N
  ref : Ip → ℕ
  valid : Ip → Bool
  lock : Ip → Option P
  file : Fin NFILE → File
  cwd : P → Option Ip
  ofile : P → Fin NOFILE → Option (Fin NFILE)
  outstanding : ℤ

inductive Stop
  | panic (msg : String)
  | blocked
  deriving DecidableEq, Repr

/-- What a sleep-lock is taken for: by `ilock`, by `ilock` of the inode that `create` has allocated, by `iput`, or by the `iput` of the parent that `create` and `sys_unlink` make while they hold the child. -/
inductive Tag
  | lock
  | new
  | put
  | putParent
  deriving DecidableEq, Repr

inductive Op (P : Type)
  | beginOp
  | endOp
  | acquire (ip : Ip) (tag : Tag)
  | release (ip : Ip)
  | load (ip : Ip)
  | reap (ip : Ip)
  | deref (ip : Ip)
  | igetRoot
  | idupCwd
  | type (ip : Ip)
  | nlink (ip : Ip)
  | isdirempty (ip : Ip)
  | dirlookup (dp : Ip) (name : String)
  | dirwrite (dp : Ip) (name : String) (ip : Ip)
  | dirclear (dp : Ip) (name : String)
  | addlink (ip : Ip)
  | droplink (ip : Ip)
  | ialloc (type : Ftype)
  | firstlink (ip : Ip)
  | getCwd
  | setCwd (ip : Ip)
  | clearCwd
  | filealloc
  | filedup (f : Fin NFILE)
  | fileput (f : Fin NFILE)
  | setFile (f : Fin NFILE) (kind : FileKind)
  | fdalloc (f : Fin NFILE)
  | fdget (fd : Fin NOFILE)
  | fdclear (fd : Fin NOFILE)
  | fork (q : P)
  | panic (msg : String)

@[reducible] def Op.Res {P : Type} : Op P → Type
  | igetRoot => Ip
  | idupCwd => Ip
  | type _ => Ftype
  | nlink _ => ℕ
  | isdirempty _ => Bool
  | dirlookup _ _ => Option Ip
  | ialloc _ => Ip
  | getCwd => Ip
  | filealloc => Option (Fin NFILE)
  | fileput _ => FileKind
  | fdalloc _ => Option (Fin NOFILE)
  | fdget _ => Option (Fin NFILE)
  | _ => Unit

abbrev sig (P : Type) : Command.Sig := ⟨Op P, Op.Res⟩

def freeFd (ofile : Fin NOFILE → Option (Fin NFILE)) : Option (Fin NOFILE) :=
  (List.finRange NOFILE).find? (fun fd => ofile fd = none)

def freeFile (file : Fin NFILE → File) : Option (Fin NFILE) :=
  (List.finRange NFILE).find? (fun f => (file f).ref = 0)

def File.put (f : File) : FileKind × File :=
  if 1 < f.ref then (.none, { f with ref := f.ref - 1 }) else (f.kind, {})

section Slots

variable {N : ℕ} [NeZero N]

def lookup (name : String) : List (Dirent N) → Option (Fin N)
  | [] => none
  | e :: es => if e.inum ≠ 0 ∧ e.name = name then some e.inum else lookup name es

def addEntry (new : Dirent N) : List (Dirent N) → List (Dirent N)
  | [] => [new]
  | e :: es => if e.inum = 0 then new :: es else e :: addEntry new es

def clearEntry (name : String) : List (Dirent N) → List (Dirent N)
  | [] => []
  | e :: es => if e.inum ≠ 0 ∧ e.name = name then ⟨0, ""⟩ :: es else e :: clearEntry name es

def isdirempty (es : List (Dirent N)) : Bool := (es.drop 2).all (fun e => e.inum = 0)

def Inode.dirwrite (ip : Inode N) (name : String) (inum : Fin N) : Inode N :=
  { ip with entries := addEntry ⟨inum, name⟩ ip.entries }

def Inode.dirclear (ip : Inode N) (name : String) : Inode N := { ip with entries := clearEntry name ip.entries }

def Inode.setNlink (ip : Inode N) (n : ℕ) : Inode N := { ip with nlink := n }

def ROOTINO : Fin N := Fin.ofNat N 1

end Slots

namespace State

variable {P : Type} {N : ℕ}

def dinode (s : State P N) (ip : Ip) : Inode N := s.inode (s.inum ip)

def setInode (s : State P N) (i : Fin N) (new : Inode N) : State P N :=
  { s with inode := Function.update s.inode i new }

def setDinode (s : State P N) (ip : Ip) (new : Inode N) : State P N := s.setInode (s.inum ip) new

def cached (s : State P N) (i : Fin N) : Option Ip :=
  (List.finRange NINODE).find? (fun ip => 0 < s.ref ip ∧ s.inum ip = i)

def emptySlot (s : State P N) : Option Ip := (List.finRange NINODE).find? (fun ip => s.ref ip = 0)

def idup (s : State P N) (ip : Ip) : State P N := { s with ref := Function.update s.ref ip (s.ref ip + 1) }

def recycle (s : State P N) (ip : Ip) (i : Fin N) : State P N :=
  { s with
    inum := Function.update s.inum ip i
    ref := Function.update s.ref ip 1
    valid := Function.update s.valid ip false }

def iget (s : State P N) (i : Fin N) : Except Stop (Ip × State P N) :=
  match s.cached i with
  | some ip => .ok (ip, s.idup ip)
  | none => match s.emptySlot with
    | some ip => .ok (ip, s.recycle ip i)
    | none => .error (.panic "iget: no inodes")

def setLock (s : State P N) (ip : Ip) (holder : Option P) : State P N :=
  { s with lock := Function.update s.lock ip holder }

def acquire (s : State P N) (p : P) (ip : Ip) (tag : Tag) : Except Stop (State P N) :=
  if (tag = .lock ∨ tag = .new) ∧ s.ref ip < 1 then .error (.panic "ilock")
  else if s.lock ip = none then .ok (s.setLock ip (some p))
  else .error .blocked

def load (s : State P N) (ip : Ip) : Except Stop (State P N) :=
  if s.valid ip then .ok s
  else if (s.dinode ip).type = .free then .error (.panic "ilock: no type")
  else .ok { s with valid := Function.update s.valid ip true }

def reap (s : State P N) (ip : Ip) : State P N :=
  if s.valid ip ∧ (s.dinode ip).nlink = 0 ∧ s.ref ip = 1 then
    { s.setDinode ip {} with valid := Function.update s.valid ip false }
  else s

def deref (s : State P N) (ip : Ip) : State P N := { s with ref := Function.update s.ref ip (s.ref ip - 1) }

def setFile (s : State P N) (f : Fin NFILE) (new : File) : State P N := { s with file := Function.update s.file f new }

def setCwd (s : State P N) (p : P) [DecidableEq P] (cwd : Option Ip) : State P N :=
  { s with cwd := Function.update s.cwd p cwd }

def setFd (s : State P N) (p : P) [DecidableEq P] (fd : Fin NOFILE) (f : Option (Fin NFILE)) : State P N :=
  { s with ofile := Function.update s.ofile p (Function.update (s.ofile p) fd f) }

/-- The end of `fork`, with the descriptors and the directory that were duplicated before. -/
def fork (s : State P N) (p q : P) [DecidableEq P] (cwd : Ip) : State P N :=
  { s with
    cwd := Function.update s.cwd q (some cwd)
    ofile := Function.update s.ofile q (s.ofile p) }

variable [NeZero N]

def freeInode (s : State P N) : Option (Fin N) :=
  (List.finRange N).find? (fun i => i ≠ 0 ∧ (s.inode i).type = .free)

variable [DecidableEq P]

def exec (p : P) (o : Op P) (s : State P N) : Except Stop (o.Res × State P N) :=
  match o with
  | .beginOp => .ok ((), { s with outstanding := s.outstanding + 1 })
  | .endOp => .ok ((), { s with outstanding := s.outstanding - 1 })
  | .acquire ip tag => (s.acquire p ip tag).map (fun t => ((), t))
  | .release ip => if s.lock ip = some p ∧ 1 ≤ s.ref ip then .ok ((), s.setLock ip none)
    else .error (.panic "iunlock")
  | .load ip => (s.load ip).map (fun t => ((), t))
  | .reap ip => .ok ((), s.reap ip)
  | .deref ip => .ok ((), s.deref ip)
  | .igetRoot => s.iget ROOTINO
  | .idupCwd => match s.cwd p with
    | some ip => .ok (ip, s.idup ip)
    | none => .error (.panic "idup")
  | .type ip => .ok ((s.dinode ip).type, s)
  | .nlink ip => .ok ((s.dinode ip).nlink, s)
  | .isdirempty ip => .ok (isdirempty (s.dinode ip).entries, s)
  | .dirlookup dp name =>
    if (s.dinode dp).type = .dir then match lookup name (s.dinode dp).entries with
      | some i => (s.iget i).map (fun r => (some r.1, r.2))
      | none => .ok (none, s)
    else .error (.panic "dirlookup not DIR")
  | .dirwrite dp name ip => .ok ((), s.setDinode dp ((s.dinode dp).dirwrite name (s.inum ip)))
  | .dirclear dp name => .ok ((), s.setDinode dp ((s.dinode dp).dirclear name))
  | .addlink ip => .ok ((), s.setDinode ip ((s.dinode ip).setNlink ((s.dinode ip).nlink + 1)))
  | .droplink ip => .ok ((), s.setDinode ip ((s.dinode ip).setNlink ((s.dinode ip).nlink - 1)))
  | .ialloc type => match s.freeInode with
    | some i => (s.setInode i { type := type }).iget i
    | none => .error (.panic "ialloc: no inodes")
  | .firstlink ip => .ok ((), s.setDinode ip ((s.dinode ip).setNlink 1))
  | .getCwd => match s.cwd p with
    | some ip => .ok (ip, s)
    | none => .error (.panic "iput")
  | .setCwd ip => .ok ((), s.setCwd p (some ip))
  | .clearCwd => .ok ((), s.setCwd p none)
  | .filealloc => match freeFile s.file with
    | some f => .ok (some f, s.setFile f { s.file f with ref := 1 })
    | none => .ok (none, s)
  | .filedup f =>
    if (s.file f).ref < 1 then .error (.panic "filedup")
    else .ok ((), s.setFile f { s.file f with ref := (s.file f).ref + 1 })
  | .fileput f =>
    if (s.file f).ref < 1 then .error (.panic "fileclose")
    else .ok ((s.file f).put.1, s.setFile f (s.file f).put.2)
  | .setFile f kind => .ok ((), s.setFile f { s.file f with kind := kind })
  | .fdalloc f => match freeFd (s.ofile p) with
    | some fd => .ok (some fd, s.setFd p fd (some f))
    | none => .ok (none, s)
  | .fdget fd => .ok (s.ofile p fd, s)
  | .fdclear fd => .ok ((), s.setFd p fd none)
  | .fork q => match s.cwd p, s.cwd q with
    | some cwd, none => .ok ((), s.fork p q cwd)
    | _, _ => .error .blocked
  | .panic msg => .error (.panic msg)

end State

end EnhancedXv6.Fs
