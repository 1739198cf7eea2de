import EnhancedXv6.TableSpecs
import EnhancedXv6.Vm

namespace EnhancedXv6.Vm

open Command Bytes
open ProcTable (Slot)

abbrev NOFILE : ℕ := 16

structure Task extends Proc where
  kstack : ℕ
  ofile : Fin NOFILE → Option ℕ
  cwd : ℕ
  name : List UInt8

/-- `fileRef` and `inodeRef` are the reference counts of the files and of the inodes in memory. -/
structure Kernel where
  table : ProcTable.Table
  task : Slot → Task
  ram : Ram
  fileRef : ℕ → ℤ
  inodeRef : ℕ → ℤ

structure Symbols where
  trapret : UInt32
  forkret : UInt32

def safestrcpy (t : List UInt8) (n : ℕ) : List UInt8 := t.take (n - 1)

def initStack (y : Symbols) (kstack : ℕ) : Code Unit := do
  op (.setWord kstack 1004 y.trapret)
  op (.store kstack 3996 (List.replicate 20 0))
  op (.setWord kstack 1003 y.forkret)

def copyTrapframe (src dst : ℕ) : ℕ → Code Unit
  | 0 => pure ()
  | n + 1 => do
    let w : UInt32 ← op (.word src (1023 - n))
    op (.setWord dst (1023 - n) w)
    copyTrapframe src dst n

namespace Kernel

def setTask (k : Kernel) (p : Slot) (f : Task → Task) : Kernel := { k with task := Function.update k.task p (f (k.task p)) }

def setTable (k : Kernel) (t : ProcTable.Table) : Kernel := { k with table := t }

def call {α : Type} (L : Layout) (k : Kernel) (m : Code α) : Except Stop (α × Kernel) :=
  (run (exec L) m k.ram).map (fun x => (x.1, { k with ram := x.2 }))

def allocproc (L : Layout) (b : ProcTable.Build) (y : Symbols) (k : Kernel) : Except Stop (Option Slot × Kernel) :=
  match k.table.allocproc with
  | none => .ok (none, k)
  | some (t, p) => do
    let x ← (k.setTable t).call L (op .kalloc : Code (Option ℕ))
    let k := x.2.setTask p (fun t => { t with kstack := x.1.getD 0 })
    match x.1 with
    | none => pure (none, k.setTable (k.table.freeEmbryo p))
    | some kstack =>
      let x ← k.call L (initStack y kstack)
      pure (some p, x.2.setTable (x.2.table.allocprocTail b p))

def filedup (k : Kernel) (f : ℕ) : Except Stop Kernel :=
  if k.fileRef f < 1 then .error (.panic "filedup") else .ok { k with fileRef := Function.update k.fileRef f (k.fileRef f + 1) }

def idup (k : Kernel) (ip : ℕ) : Kernel := { k with inodeRef := Function.update k.inodeRef ip (k.inodeRef ip + 1) }

def dupFiles (curproc np : Slot) : List (Fin NOFILE) → Kernel → Except Stop Kernel
  | [], k => .ok k
  | i :: is, k => match (k.task curproc).ofile i with
    | none => dupFiles curproc np is k
    | some f => do
      let k ← k.filedup f
      dupFiles curproc np is (k.setTask np (fun t => { t with ofile := Function.update t.ofile i (some f) }))

def inherit (L : Layout) (b : ProcTable.Build) (k : Kernel) (curproc np : Slot) : Except Stop (ℤ × Kernel) := do
  let p := k.task curproc
  let k := (k.setTask np (fun t => { t with sz := p.sz })).setTable (k.table.setProc np (fun q => { q with parent := some curproc }))
  let x ← k.call L (copyTrapframe p.kstack (k.task np).kstack 19)
  -- the register `eax`
  let x ← x.2.call L (op (.setWord (k.task np).kstack 1012 0) : Code Unit)
  let k ← dupFiles curproc np (List.finRange NOFILE) x.2
  let k := k.idup p.cwd
  let k := k.setTask np (fun t => { t with cwd := p.cwd, name := safestrcpy p.name 16 })
  pure ((k.table.proc np).pid, k.setTable (k.table.makeRunnable b np))

def fork (L : Layout) (b : ProcTable.Build) (y : Symbols) (k : Kernel) (curproc : Slot) : Except Stop (ℤ × Kernel) := do
  let x ← k.allocproc L b y
  match x.1 with
  | none => pure (-1, x.2)
  | some np =>
    let x ← x.2.call L (copyuvm L (x.2.task curproc).pgdir (x.2.task curproc).sz)
    let k := x.2.setTask np (fun t => { t with pgdir := x.1.getD 0 })
    if x.1 = none then
      let x ← k.call L (op (.kfree (k.task np).kstack) : Code Unit)
      let k := x.2.setTask np (fun t => { t with kstack := 0 })
      pure (-1, k.setTable (k.table.freeEmbryo np))
    else k.inherit L b curproc np

end Kernel

end EnhancedXv6.Vm
