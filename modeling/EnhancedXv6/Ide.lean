import EnhancedXv6.Bcache
import EnhancedXv6.Fifo
import EnhancedXv6.Transition

namespace EnhancedXv6.Ide

open Transition Machine LinkedQueue

def SECTOR_SIZE : ℕ := 512

def sectorPerBlock : ℕ := 512 / SECTOR_SIZE

structure Command where
  sectors : ℕ
  lba0 : ℕ
  lba1 : ℕ
  lba2 : ℕ
  device : ℕ
  write : Option Block

namespace Command

def ofBuf {P : Type*} (b : Buf P) : Command :=
  let sector := b.blockno * sectorPerBlock
  { sectors := sectorPerBlock
    lba0 := sector % 256
    lba1 := sector / 0x100 % 256
    lba2 := sector / 0x10000 % 256
    device := 0xe0 + b.dev % 2 * 16 + sector / 0x1000000 % 16
    write := if b.dirty then some b.data else none }

def drive (c : Command) : ℕ := c.device / 16 % 2

def lba (c : Command) : ℕ := c.lba0 + c.lba1 * 0x100 + c.lba2 * 0x10000 + c.device % 16 * 0x1000000

variable {P : Type*}

theorem lba_ofBuf {b : Buf P} (h : b.blockno < FSSIZE) : (ofBuf b).lba = b.blockno := by
  simp only [ofBuf, lba, sectorPerBlock, SECTOR_SIZE, FSSIZE] at h ⊢
  omega

theorem drive_ofBuf (b : Buf P) : (ofBuf b).drive = b.dev % 2 := by
  simp only [ofBuf, drive]
  omega

end Command

inductive Drive
  | idle
  | busy (c : Command)
  | done (data : Option Block)

inductive Proc
  | idle
  | sleep (i : Fin NBUF)
  | woken (i : Fin NBUF)
  deriving DecidableEq, Repr

namespace Proc

def wakeup (i : Fin NBUF) (c : Proc) : Proc := if c = sleep i then woken i else c

def Waits (c : Proc) (i : Fin NBUF) : Prop := c = sleep i ∨ c = woken i

theorem waits_wakeup {c : Proc} {i j : Fin NBUF} : (c.wakeup i).Waits j ↔ c.Waits j := by
  unfold wakeup Waits
  split_ifs with h
  · subst h
    simp
  · rfl

end Proc

structure State (P : Type*) where
  disk : ℕ → ℕ → Block
  havedisk1 : Bool := true
  drive : Drive := .idle
  buf : Fin NBUF → Buf P := fun _ => {}
  idequeue : Queue (Fin NBUF) := {}
  proc : P → Proc := fun _ => .idle
  panic : Option String := none

inductive Label (P : Type*)
  | iderw (p : P) (i : Fin NBUF)
  | edit (i : Fin NBUF) (b : Buf P)
  | complete
  | ideintr
  | kill (p : P)
  | resume (p : P)

def synced {P : Type*} (b : Buf P) : Bool := b.valid && !b.dirty

namespace State

variable {P : Type*} [DecidableEq P]

def fail (s : State P) (e : String) : State P := { s with panic := some e }

def setProc (s : State P) (p : P) (c : Proc) : State P := { s with proc := Function.update s.proc p c }

omit [DecidableEq P] in
def setBuf (s : State P) (i : Fin NBUF) (b : Buf P) : State P := { s with buf := Function.update s.buf i b }

omit [DecidableEq P] in
def idestart (s : State P) : Option (Fin NBUF) → State P
  | none => s.fail "idestart"
  | some i =>
    if FSSIZE ≤ (s.buf i).blockno then s.fail "incorrect blockno"
    else if 7 < sectorPerBlock then s.fail "idestart"
    else { s with drive := .busy (.ofBuf (s.buf i)) }

def await (s : State P) (p : P) (i : Fin NBUF) : State P := s.setProc p (if synced (s.buf i) then .idle else .sleep i)

/-- `iderw` up to its first sleep; `none` when the loop through the queue does not end. -/
def iderw (s : State P) (p : P) (i : Fin NBUF) : Option (State P) :=
  if (s.buf i).holder ≠ some p then some (s.fail "iderw: buf not locked")
  else if synced (s.buf i) then some (s.fail "iderw: nothing to do")
  else if (s.buf i).dev ≠ 0 ∧ s.havedisk1 = false then some (s.fail "iderw: ide disk 1 not present")
  else (s.idequeue.append (NBUF + 1) i).map (fun q =>
    let s := { s with idequeue := q }
    (if q.head = some i then s.idestart (some i) else s).await p i)

omit [DecidableEq P] in
def complete (s : State P) (c : Command) : State P :=
  match c.write with
  | some d => { s with
      disk := Function.update s.disk c.drive (Function.update (s.disk c.drive) c.lba d), drive := .done none }
  | none => { s with drive := .done (some (s.disk c.drive c.lba)) }

/-- What `insl` reads; a drive that has nothing to offer leaves the buffer as it is. -/
def insl (d : Drive) (old : Block) : Block :=
  match d with
  | .done (some data) => data
  | _ => old

omit [DecidableEq P] in
def serve (s : State P) (i : Fin NBUF) : State P :=
  let b := s.buf i
  let data := if b.dirty then b.data else insl s.drive b.data
  { s with
    idequeue := { s.idequeue with head := s.idequeue.next i }
    drive := .idle
    buf := Function.update s.buf i { b with valid := true, dirty := false, data := data }
    proc := fun p => (s.proc p).wakeup i }

omit [DecidableEq P] in
def ideintr (s : State P) : State P :=
  match s.idequeue.head with
  | none => s
  | some i =>
    let t := s.serve i
    if t.idequeue.head ≠ none then t.idestart t.idequeue.head else t

def Free (s : State P) (i : Fin NBUF) : Prop := ∀ q, (s.buf i).holder = some q → s.proc q = .idle

omit [DecidableEq P] in
instance (s : State P) (i : Fin NBUF) : Decidable (s.Free i) :=
  match h : (s.buf i).holder with
  | none => .isTrue (by intro q hq; rw [h] at hq; cases hq)
  | some q =>
    if hq : s.proc q = .idle then .isTrue (by intro r hr; rw [h] at hr; cases hr; exact hq)
    else .isFalse (fun hf => hq (hf q h))

def step (s : State P) (l : Label P) : Option (State P) :=
  if s.panic.isSome then none
  else match l with
    | .iderw p i => if s.proc p = .idle then s.iderw p i else none
    | .edit i b => if s.Free i then some (s.setBuf i b) else none
    | .complete => match s.drive with
      | .busy c => some (s.complete c)
      | _ => none
    | .ideintr => match s.drive with
      | .done _ => some s.ideintr
      | _ => if s.idequeue.head = none then some s.ideintr else none
    | .kill p => match s.proc p with
      | .sleep i => some (s.setProc p (.woken i))
      | _ => none
    | .resume p => match s.proc p with
      | .woken i => some (s.await p i)
      | _ => none

end State

inductive Steps {P : Type*} [DecidableEq P] (s : State P) : Label P → State P → Prop
  | iderw {p i t} (hp : s.proc p = .idle) (ht : s.iderw p i = some t) : Steps s (.iderw p i) t
  | edit {i b} (hf : s.Free i) : Steps s (.edit i b) (s.setBuf i b)
  | complete {c} (hd : s.drive = .busy c) : Steps s .complete (s.complete c)
  | ideintr {r} (hd : s.drive = .done r) : Steps s .ideintr s.ideintr
  | spurious (hq : s.idequeue.head = none) : Steps s .ideintr s.ideintr
  | kill {p i} (hp : s.proc p = .sleep i) : Steps s (.kill p) (s.setProc p (.woken i))
  | resume {p i} (hp : s.proc p = .woken i) : Steps s (.resume p) (s.await p i)

theorem step_cases {P : Type*} [DecidableEq P] {s t : State P} {l : Label P} (h : s.step l = some t) :
    s.panic.isSome = false ∧ Steps s l t := by
  unfold State.step at h
  by_cases hn : s.panic.isSome = true
  · rw [if_pos hn] at h
    cases h
  rw [if_neg hn] at h
  refine ⟨by simpa using hn, ?_⟩
  cases l with
  | iderw p i =>
    by_cases hp : s.proc p = .idle
    · exact .iderw hp (by simpa [hp] using h)
    · simp [hp] at h
  | edit i b =>
    by_cases hf : s.Free i
    · simp only [hf, if_true] at h
      cases h
      exact .edit hf
    · simp [hf] at h
  | complete =>
    cases hd : s.drive with
    | busy c =>
      simp only [hd] at h
      cases h
      exact .complete hd
    | _ => simp [hd] at h
  | ideintr =>
    cases hd : s.drive with
    | done r =>
      simp only [hd] at h
      cases h
      exact .ideintr hd
    | _ =>
      by_cases hq : s.idequeue.head = none
      · simp only [hd, hq, if_true] at h
        cases h
        exact .spurious hq
      · simp [hd, hq] at h
  | kill p =>
    cases hp : s.proc p with
    | sleep i =>
      simp only [hp] at h
      cases h
      exact .kill hp
    | _ => simp [hp] at h
  | resume p =>
    cases hp : s.proc p with
    | woken i =>
      simp only [hp] at h
      cases h
      exact .resume hp
    | _ => simp [hp] at h

def machine (P : Type*) [DecidableEq P] : Machine (State P) (Label P) where
  initial s := ∃ disk buf, s = { disk := disk, buf := buf }
  next := State.step

structure Mem (P : Type*) where
  memdisk : ℕ → Block
  buf : Fin NBUF → Buf P
  panic : Option String := none

inductive Mem.Label (P : Type*)
  | iderw (p : P) (i : Fin NBUF)
  | edit (i : Fin NBUF) (b : Buf P)

namespace Mem

variable {P : Type*}

def fail (m : Mem P) (e : String) : Mem P := { m with panic := some e }

def setBuf (m : Mem P) (i : Fin NBUF) (b : Buf P) : Mem P := { m with buf := Function.update m.buf i b }

def sync (m : Mem P) (i : Fin NBUF) : Mem P :=
  if (m.buf i).dirty then
    { m with memdisk := Function.update m.memdisk (m.buf i).blockno (m.buf i).data }.setBuf i
      { m.buf i with dirty := false, valid := true }
  else m.setBuf i { m.buf i with data := m.memdisk (m.buf i).blockno, valid := true }

variable [DecidableEq P]

def iderw (disksize : ℕ) (m : Mem P) (p : P) (i : Fin NBUF) : Mem P :=
  if (m.buf i).holder ≠ some p then m.fail "iderw: buf not locked"
  else if synced (m.buf i) then m.fail "iderw: nothing to do"
  else if (m.buf i).dev ≠ 1 then m.fail "iderw: request not for disk 1"
  else if disksize ≤ (m.buf i).blockno then m.fail "iderw: block out of range"
  else m.sync i

def step (disksize : ℕ) (m : Mem P) (l : Label P) : Option (Mem P) :=
  if m.panic.isSome then none
  else match l with
    | .iderw p i => some (m.iderw disksize p i)
    | .edit i b => some (m.setBuf i b)

def machine (P : Type*) [DecidableEq P] (disksize : ℕ) : Machine (Mem P) (Mem.Label P) where
  initial m := m.panic = none
  next := step disksize

end Mem

def Label.mem {P : Type*} : Label P → Option (Mem.Label P)
  | .iderw p i => some (.iderw p i)
  | .edit i b => some (.edit i b)
  | _ => none

def InRange {P : Type*} (disksize : ℕ) (s : State P) : Label P → Prop
  | .iderw _ i => (s.buf i).dev = 1 ∧ (s.buf i).blockno < FSSIZE ∧ (s.buf i).blockno < disksize
  | _ => True

instance {P : Type*} (disksize : ℕ) (s : State P) : (l : Label P) → Decidable (InRange disksize s l)
  | .iderw _ _ => inferInstanceAs (Decidable (_ ∧ _ ∧ _))
  | .edit _ _ => .isTrue trivial
  | .complete => .isTrue trivial
  | .ideintr => .isTrue trivial
  | .kill _ => .isTrue trivial
  | .resume _ => .isTrue trivial

end EnhancedXv6.Ide
