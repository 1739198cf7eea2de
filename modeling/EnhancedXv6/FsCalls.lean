import EnhancedXv6.Fs

namespace EnhancedXv6.Fs

open Command

structure Path where
  absolute : Bool
  elems : List String
  deriving DecidableEq, Repr

section Programs

variable {P : Type}

abbrev Code (P α : Type) := Prog (sig P) α

def op (o : Op P) : Code P o.Res := .call (S := sig P) o

theorem wp_op {σ : Type} {Φ : Spec (sig P) σ} {o : Op P} {s : σ} {Q : o.Res → σ → Prop} (h : Φ o s Q) :
    wp Φ (op o) s Q := h

def beginOp : Code P Unit := op .beginOp

def endOp : Code P Unit := op .endOp

def iunlock (i : Ip) : Code P Unit := op (.release i)

def lockAs (tag : Tag) (i : Ip) : Code P Unit := do
  op (.acquire i tag)
  op (.load i)

def ilock (i : Ip) : Code P Unit := lockAs .lock i

def putAs (tag : Tag) (i : Ip) : Code P Unit := do
  op (.acquire i tag)
  op (.reap i)
  iunlock i
  op (.deref i)

def iput (i : Ip) : Code P Unit := putAs .put i

def iunlockput (i : Ip) : Code P Unit := do
  iunlock i
  iput i

def iunlockputParent (i : Ip) : Code P Unit := do
  iunlock i
  putAs .putParent i

def typeOf (i : Ip) : Code P Ftype := op (.type i)

def nlinkOf (i : Ip) : Code P ℕ := op (.nlink i)

def emptyDir (i : Ip) : Code P Bool := op (.isdirempty i)

def dirlookup (d : Ip) (name : String) : Code P (Option Ip) := op (.dirlookup d name)

def walk (parent : Bool) (ip : Ip) : List String → Code P (Option (Ip × String))
  | [] =>
    if parent then do
      iput ip
      return none
    else return some (ip, "")
  | name :: rest => do
    ilock ip
    if (← typeOf ip) ≠ .dir then
      iunlockput ip
      return none
    else if parent ∧ rest = [] then
      iunlock ip
      return some (ip, name)
    else match ← dirlookup ip name with
      | none =>
        iunlockput ip
        return none
      | some next =>
        iunlockput ip
        walk parent next rest

def namex (parent : Bool) (path : Path) : Code P (Option (Ip × String)) :=
  if path.absolute then do
    let ip ← op .igetRoot
    walk parent ip path.elems
  else do
    let ip ← op .idupCwd
    walk parent ip path.elems

/-- `dirlink`; `false` is its error return for a name that is there. -/
def dirlink (d : Ip) (name : String) (ip : Ip) : Code P Bool := do
  match ← dirlookup d name with
  | some found =>
    iput found
    return false
  | none =>
    op (.dirwrite d name ip)
    return true

def panic (msg : String) : Code P Unit := op (.panic msg)

def linkBad (ip : Ip) : Code P ℤ := do
  ilock ip
  op (.droplink ip)
  iunlockput ip
  endOp
  return -1

def linkTo (ip : Ip) (new : Path) : Code P ℤ := do
  match ← namex true new with
  | none => linkBad ip
  | some (dp, name) =>
    ilock dp
    if ← dirlink dp name ip then
      iunlockput dp
      iput ip
      endOp
      return 0
    else
      iunlockput dp
      linkBad ip

def sysLink : Option Path → Option Path → Code P ℤ
  | some old, some new => do
    beginOp
    match ← namex false old with
    | none =>
      endOp
      return -1
    | some (ip, _) =>
      ilock ip
      if (← typeOf ip) = .dir then
        iunlockput ip
        endOp
        return -1
      else
        op (.addlink ip)
        iunlock ip
        linkTo ip new
  | _, _ => return -1

def dropParent (dp ip : Ip) : Code P Unit := do
  if (← typeOf ip) = .dir then op (.droplink dp)
  else return

def unlinkBad (dp : Ip) : Code P ℤ := do
  iunlockput dp
  endOp
  return -1

def unlinkChild (dp ip : Ip) (name : String) : Code P ℤ := do
  if (← nlinkOf ip) < 1 then
    panic "unlink: nlink < 1"
    return -1
  else if (← typeOf ip) = .dir ∧ ¬ (← emptyDir ip) then
    iunlockput ip
    unlinkBad dp
  else
    op (.dirclear dp name)
    dropParent dp ip
    iunlockputParent dp
    op (.droplink ip)
    iunlockput ip
    endOp
    return 0

def sysUnlink : Option Path → Code P ℤ
  | none => return -1
  | some path => do
    beginOp
    match ← namex true path with
    | none =>
      endOp
      return -1
    | some (dp, name) =>
      ilock dp
      if name = "." ∨ name = ".." then unlinkBad dp
      else match ← dirlookup dp name with
        | none => unlinkBad dp
        | some ip =>
          ilock ip
          unlinkChild dp ip name

def dirlinkOrPanic (d : Ip) (name : String) (ip : Ip) (msg : String) : Code P Unit := do
  if ← dirlink d name ip then return
  else panic msg

def createDots (type : Ftype) (dp ip : Ip) : Code P Unit := do
  if type = .dir then
    op (.addlink dp)
    dirlinkOrPanic ip "." ip "create dots"
    dirlinkOrPanic ip ".." dp "create dots"
  else return

def createNew (dp : Ip) (name : String) (type : Ftype) : Code P Ip := do
  let ip ← op (.ialloc type)
  lockAs .new ip
  op (.firstlink ip)
  createDots type dp ip
  dirlinkOrPanic dp name ip "create: dirlink"
  iunlockputParent dp
  return ip

def create (path : Path) (type : Ftype) : Code P (Option Ip) := do
  match ← namex true path with
  | none => return none
  | some (dp, name) =>
    ilock dp
    match ← dirlookup dp name with
    | some ip =>
      iunlockput dp
      ilock ip
      if type = .file ∧ (← typeOf ip) = .file then return some ip
      else
        iunlockput ip
        return none
    | none =>
      let ip ← createNew dp name type
      return some ip

def filealloc : Code P (Option (Fin NFILE)) := op .filealloc

def fdalloc (f : Fin NFILE) : Code P (Option (Fin NOFILE)) := op (.fdalloc f)

def fileclose (f : Fin NFILE) : Code P Unit := do
  match ← op (.fileput f) with
  | .inode ip =>
    beginOp
    iput ip
    endOp
  | _ => return

def openBad (ip : Ip) : Code P ℤ := do
  iunlockput ip
  endOp
  return -1

def openInode (ip : Ip) : Code P ℤ := do
  match ← filealloc with
  | none => openBad ip
  | some f =>
    match ← fdalloc f with
    | none =>
      fileclose f
      openBad ip
    | some fd =>
      iunlock ip
      endOp
      op (.setFile f (.inode ip))
      return fd.val

/-- `rdonly` is `omode == O_RDONLY`. -/
def sysOpen (path : Option Path) (ocreate rdonly : Bool) : Code P ℤ :=
  match path with
  | none => return -1
  | some path => do
    beginOp
    if ocreate then
      match ← create path .file with
      | none =>
        endOp
        return -1
      | some ip => openInode ip
    else
      match ← namex false path with
      | none =>
        endOp
        return -1
      | some (ip, _) =>
        ilock ip
        if (← typeOf ip) = .dir ∧ ¬ rdonly then openBad ip
        else openInode ip

/-- `sys_mkdir` and `sys_mknod`, which fetch their arguments inside the transaction. -/
def sysMake (path : Option Path) (type : Ftype) : Code P ℤ := do
  beginOp
  match path with
  | none =>
    endOp
    return -1
  | some path =>
    match ← create path type with
    | none =>
      endOp
      return -1
    | some ip =>
      iunlockput ip
      endOp
      return 0

def sysChdir (path : Option Path) : Code P ℤ := do
  beginOp
  match path with
  | none =>
    endOp
    return -1
  | some path =>
    match ← namex false path with
    | none =>
      endOp
      return -1
    | some (ip, _) =>
      ilock ip
      if (← typeOf ip) ≠ .dir then
        iunlockput ip
        endOp
        return -1
      else
        iunlock ip
        let old ← op .getCwd
        iput old
        endOp
        op (.setCwd ip)
        return 0

/-- The inode of the program is locked while `exec` reads it; `loaded` and `pushed` are the two parts of `exec` that can fail. -/
def sysExec (path : Option Path) (loaded pushed : Bool) : Code P ℤ :=
  match path with
  | none => return -1
  | some path => do
    beginOp
    match ← namex false path with
    | none =>
      endOp
      return -1
    | some (ip, _) =>
      ilock ip
      iunlockput ip
      endOp
      return if loaded ∧ pushed then 0 else -1

def argfd (fd : ℤ) : Code P (Option (Fin NOFILE × Fin NFILE)) :=
  if h : 0 ≤ fd ∧ fd.toNat < NOFILE then do
    let f ← op (.fdget ⟨fd.toNat, h.2⟩)
    return f.map (fun f => (⟨fd.toNat, h.2⟩, f))
  else return none

def sysClose (fd : ℤ) : Code P ℤ := do
  match ← argfd fd with
  | none => return -1
  | some (fd, f) =>
    op (.fdclear fd)
    fileclose f
    return 0

def sysDup (fd : ℤ) : Code P ℤ := do
  match ← argfd fd with
  | none => return -1
  | some (_, f) =>
    match ← fdalloc f with
    | none => return -1
    | some new =>
      op (.filedup f)
      return new.val

/-- `page` tells whether `kalloc` finds one for the pipe. -/
def pipealloc (page : Bool) : Code P (Option (Fin NFILE × Fin NFILE)) := do
  match ← filealloc with
  | none => return none
  | some f0 =>
    match ← filealloc with
    | none =>
      fileclose f0
      return none
    | some f1 =>
      if page then
        op (.setFile f0 .pipe)
        op (.setFile f1 .pipe)
        return some (f0, f1)
      else
        fileclose f0
        fileclose f1
        return none

/-- `args` tells whether the place for the descriptors can be used. -/
def sysPipe (args page : Bool) : Code P ℤ :=
  if args then do
    match ← pipealloc page with
    | none => return -1
    | some (rf, wf) =>
      match ← fdalloc rf with
      | none =>
        fileclose rf
        fileclose wf
        return -1
      | some fd0 =>
        match ← fdalloc wf with
        | none =>
          op (.fdclear fd0)
          fileclose rf
          fileclose wf
          return -1
        | some _ => return 0
  else return -1

def closeFiles : List (Fin NOFILE) → Code P Unit
  | [] => return
  | fd :: fds => do
    match ← op (.fdget fd) with
    | none => closeFiles fds
    | some f =>
      fileclose f
      op (.fdclear fd)
      closeFiles fds

def sysExit : Code P ℤ := do
  closeFiles (List.finRange NOFILE)
  beginOp
  let cwd ← op .getCwd
  iput cwd
  endOp
  op .clearCwd
  return 0

def dupFiles : List (Fin NOFILE) → Code P Unit
  | [] => return
  | fd :: fds => do
    match ← op (.fdget fd) with
    | none => dupFiles fds
    | some f =>
      op (.filedup f)
      dupFiles fds

/-- `q` is the slot that `allocproc` finds, and `mem` tells whether there is one and memory for the child. -/
def sysFork (q : P) (mem : Bool) : Code P ℤ :=
  if mem then do
    dupFiles (List.finRange NOFILE)
    let _ ← op .idupCwd
    op (.fork q)
    return 0
  else return -1

end Programs

inductive Call (P : Type)
  | openFile (path : Option Path) (ocreate rdonly : Bool)
  | mkdir (path : Option Path)
  | mknod (path : Option Path)
  | link (old new : Option Path)
  | unlink (path : Option Path)
  | chdir (path : Option Path)
  | exec (path : Option Path) (loaded pushed : Bool)
  | close (fd : ℤ)
  | dup (fd : ℤ)
  | pipe (args page : Bool)
  | fork (q : P) (mem : Bool)
  | exit

def Call.code {P : Type} : Call P → Code P ℤ
  | openFile path ocreate rdonly => sysOpen path ocreate rdonly
  | mkdir path => sysMake path .dir
  | mknod path => sysMake path .dev
  | link old new => sysLink old new
  | unlink path => sysUnlink path
  | chdir path => sysChdir path
  | exec path loaded pushed => sysExec path loaded pushed
  | close fd => sysClose fd
  | dup fd => sysDup fd
  | pipe args page => sysPipe args page
  | fork q mem => sysFork q mem
  | exit => sysExit

end EnhancedXv6.Fs
