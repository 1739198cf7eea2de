import EnhancedXv6.PageTables
import EnhancedXv6.Tasks

namespace EnhancedXv6.Vm

open Command Bytes
open ProcTable (Slot)

abbrev MAXARG : ℕ := 32

def ELF_MAGIC : UInt32 := 0x464C457F

def ELF_PROG_LOAD : UInt32 := 1

def readi (file : List UInt8) (off n : ℕ) : Option (List UInt8) :=
  if off > file.length ∨ (off + n) % 0x100000000 < off then none else some ((file.drop off).take n)

def readStruct (file : List UInt8) (off n : ℕ) : Option Mem :=
  match readi file off n with
  | none => none
  | some bs => if bs.length ≠ n then none else some (fun k => bs.getD k 0)

structure Elfhdr where
  magic : UInt32
  entry : UInt32
  phoff : ℕ
  phnum : ℕ
  deriving DecidableEq

def Elfhdr.ofBytes (d : Mem) : Elfhdr := ⟨word d 0, word d 6, (word d 7).toNat, (word d 11).toNat % 0x10000⟩

def elfhdr (file : List UInt8) : Option Elfhdr := (readStruct file 0 52).map Elfhdr.ofBytes

structure Proghdr where
  type : UInt32
  off : ℕ
  vaddr : ℕ
  filesz : ℕ
  memsz : ℕ
  deriving DecidableEq

def Proghdr.ofBytes (d : Mem) : Proghdr := ⟨word d 0, (word d 1).toNat, (word d 2).toNat, (word d 4).toNat, (word d 5).toNat⟩

def header (file : List UInt8) (off : ℕ) : Option Proghdr := (readStruct file off 32).map Proghdr.ofBytes

def loaduvmLoop (pgdir addr : ℕ) (file : List UInt8) (offset sz : ℕ) : ℕ → ℕ → Code ℤ
  | 0, _ => do
    op (.stop .loop)
    pure (-1)
  | fuel + 1, i =>
    if i < sz then do
      let pte ← walkpgdir pgdir ((addr + i) % 0x100000000) false
      match pte with
      | none =>
        op (.stop (.panic "loaduvm: address should exist"))
        pure (-1)
      | some (pgtab, j) =>
        let pte : UInt32 ← op (.word pgtab j)
        let n := if sz - i < PGSIZE then sz - i else PGSIZE
        match readi file ((offset + i) % 0x100000000) n with
        | none => pure (-1)
        | some bs =>
          op (.store (frame pte) 0 bs)
          if bs.length ≠ n then pure (-1)
          else loaduvmLoop pgdir addr file offset sz fuel ((i + PGSIZE) % 0x100000000)
    else pure 0

def loaduvm (pgdir addr : ℕ) (file : List UInt8) (offset sz : ℕ) : Code ℤ :=
  if addr % PGSIZE ≠ 0 then do
    op (.stop (.panic "loaduvm: addr must be page aligned"))
    pure (-1)
  else loaduvmLoop pgdir addr file offset sz 0x100001 0

/-- The loop of `exec` over `n` program headers from `off` on; `none` is the jump to `bad`. -/
def load (pgdir : ℕ) (file : List UInt8) : ℕ → ℕ → ℕ → Code (Option ℕ)
  | 0, _, sz => pure (some sz)
  | n + 1, off, sz => match header file off with
    | none => pure none
    | some ph =>
      if ph.type ≠ ELF_PROG_LOAD then load pgdir file n ((off + 32) % 0x100000000) sz
      else if ph.memsz < ph.filesz then pure none
      else if (ph.vaddr + ph.memsz) % 0x100000000 < ph.vaddr then pure none
      else do
        let sz ← allocuvm pgdir sz ((ph.vaddr + ph.memsz) % 0x100000000)
        if sz = 0 then pure none
        else if ph.vaddr % PGSIZE ≠ 0 then pure none
        else
          let ret ← loaduvm pgdir ph.vaddr file ph.off ph.filesz
          if ret < 0 then pure none
          else load pgdir file n ((off + 32) % 0x100000000) sz

def put {α : Type} (a : List α) (i : ℕ) (x : α) : Code (List α) :=
  if i < a.length then pure (a.set i x)
  else do
    op (.stop .bounds)
    pure a

abbrev Argv := List (Option (List UInt8))

def pushArgs (pgdir : ℕ) : Argv → ℕ → ℕ → List UInt32 → Code (Option (ℕ × ℕ × List UInt32))
  | [], _, _, _ => do
    op (.stop .bounds)
    pure none
  | none :: _, argc, sp, ustack => pure (some (argc, sp, ustack))
  | some s :: argv, argc, sp, ustack =>
    if argc ≥ MAXARG then pure none
    else do
      let sp := (sp + 0x100000000 - (s.length + 1)) % 0x100000000 / 4 * 4
      let ret ← copyout pgdir sp (s ++ [0])
      if ret < 0 then pure none
      else
        let ustack ← put ustack (3 + argc) (UInt32.ofNat sp)
        pushArgs pgdir argv (argc + 1) sp ustack

def wordBytes (w : UInt32) : List UInt8 :=
  [UInt8.ofNat w.toNat, UInt8.ofNat (w.toNat / 256), UInt8.ofNat (w.toNat / 65536), UInt8.ofNat (w.toNat / 16777216)]

/-- The arguments on the stack, and the stack pointer. The first contents of `ustack` are not read. -/
def pushStack (pgdir sz : ℕ) (argv : Argv) : Code (Option ℕ) := do
  let x ← pushArgs pgdir argv 0 sz (List.replicate (3 + MAXARG + 1) 0)
  match x with
  | none => pure none
  | some (argc, sp, ustack) =>
    let ustack ← put ustack (3 + argc) 0
    let ustack ← put ustack 0 0xFFFFFFFF
    let ustack ← put ustack 1 (UInt32.ofNat argc)
    let ustack ← put ustack 2 (UInt32.ofNat ((sp + 0x100000000 - (argc + 1) * 4) % 0x100000000))
    let sp := (sp + 0x100000000 - (3 + argc + 1) * 4) % 0x100000000
    let ret ← copyout pgdir sp ((ustack.take (3 + argc + 1)).flatMap wordBytes)
    if ret < 0 then pure none else pure (some sp)

def build (pgdir : ℕ) (file : List UInt8) (elf : Elfhdr) (argv : Argv) : Code (Option (ℕ × ℕ)) := do
  let sz ← load pgdir file elf.phnum elf.phoff 0
  match sz with
  | none => pure none
  | some sz =>
    let sz ← allocuvm pgdir (PGROUNDUP sz) ((PGROUNDUP sz + 2 * PGSIZE) % 0x100000000)
    if sz = 0 then pure none
    else
      clearpteu pgdir ((sz + 0x100000000 - 2 * PGSIZE) % 0x100000000)
      let sp ← pushStack pgdir sz argv
      match sp with
      | none => pure none
      | some sp => pure (some (sz, sp))

structure Image where
  pgdir : ℕ
  sz : ℕ
  sp : ℕ
  entry : UInt32

def image (L : Layout) (file : List UInt8) (argv : Argv) : Code (Option Image) :=
  match elfhdr file with
  | none => pure none
  | some elf =>
    if elf.magic ≠ ELF_MAGIC then pure none
    else do
      let pgdir ← setupkvm L
      match pgdir with
      | none => pure none
      | some pgdir =>
        let x ← build pgdir file elf argv
        match x with
        | none =>
          freevm pgdir
          pure none
        | some (sz, sp) => pure (some ⟨pgdir, sz, sp, elf.entry⟩)

def commit (kstack oldpgdir : ℕ) (im : Image) : Code Unit := do
  op (.setWord kstack 1019 im.entry)
  op (.setWord kstack 1022 (UInt32.ofNat im.sp))
  freevm oldpgdir

def lastElem : List UInt8 → List UInt8 → List UInt8
  | [], last => last
  | c :: s, last => if c = 47 then lastElem s s else lastElem s last

def fetchint (d : Mem) (sz addr : ℕ) : Option ℕ :=
  if addr ≥ sz ∨ (addr + 4) % 0x100000000 > sz then none
  else some ((d addr).toNat + 256 * ((d (addr + 1)).toNat + 256 * ((d (addr + 2)).toNat + 256 * (d (addr + 3)).toNat)))

def scanstr (d : Mem) : ℕ → ℕ → Option (List UInt8)
  | 0, _ => none
  | n + 1, s => if d s = 0 then some [] else (scanstr d n (s + 1)).map (d s :: ·)

def fetchstr (d : Mem) (sz addr : ℕ) : Option (List UInt8) := if addr ≥ sz then none else scanstr d (sz - addr) addr

def fetchArgs (d : Mem) (sz uargv : ℕ) : ℕ → ℕ → Argv → Code (Option Argv)
  | 0, _, _ => do
    op (.stop .loop)
    pure none
  | fuel + 1, i, argv =>
    if i ≥ argv.length then pure none
    else match fetchint d sz ((uargv + 4 * i) % 0x100000000) with
      | none => pure none
      | some uarg =>
        if uarg = 0 then do
          let argv ← put argv i none
          pure (some argv)
        else match fetchstr d sz uarg with
          | none => pure none
          | some s => do
            let argv ← put argv i (some s)
            fetchArgs d sz uargv fuel (i + 1) argv

def Ram.byte (r : Ram) (d a : ℕ) : Option UInt8 := (r.user d (a / 4096)).map (fun x => x.2 (a % 4096))

namespace Kernel

/-- `file` are the contents of the file at `path`, if there is one. -/
def exec (L : Layout) (k : Kernel) (curproc : Slot) (path : List UInt8) (file : Option (List UInt8)) (argv : Argv) :
    Except Stop (ℤ × Kernel) :=
  match file with
  | none => .ok (-1, k)
  | some file => do
    let x ← k.call L (image L file argv)
    match x.1 with
    | none => pure (-1, x.2)
    | some im =>
      let p := x.2.task curproc
      let k := x.2.setTask curproc (fun t => { t with name := safestrcpy (lastElem path path) 16, pgdir := im.pgdir, sz := im.sz })
      let x ← k.call L (commit p.kstack p.pgdir im)
      pure (0, x.2)

def sysExec (L : Layout) (k : Kernel) (curproc : Slot) (namei : List UInt8 → Option (List UInt8)) : Except Stop (ℤ × Kernel) := do
  let p := k.task curproc
  let d : Mem := fun a => (k.ram.byte p.pgdir a).getD 0
  let x ← k.call L (op (.word p.kstack 1022) : Code UInt32)
  match (fetchint d p.sz ((x.1.toNat + 4) % 0x100000000)).bind (fetchstr d p.sz) with
  | none => pure (-1, k)
  | some path => match fetchint d p.sz ((x.1.toNat + 8) % 0x100000000) with
    | none => pure (-1, k)
    | some uargv =>
      let x ← k.call L (fetchArgs d p.sz uargv 33 0 (List.replicate MAXARG none))
      match x.1 with
      | none => pure (-1, x.2)
      | some argv => x.2.exec L curproc path (namei path) argv

end Kernel

end EnhancedXv6.Vm
