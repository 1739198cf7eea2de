import EnhancedXv6.FsCalls
import Mathlib.Algebra.BigOperators.Fin
import Mathlib.Algebra.Order.Group.Multiset
import Mathlib.Data.Fintype.Basic

namespace EnhancedXv6.Fs

open Command Finset

variable {ofile : Fin NOFILE → Option (Fin NFILE)} {fd : Fin NOFILE}

def single {α : Type} : Option α → Multiset α
  | none => 0
  | some a => {a}

@[simp] theorem single_none {α : Type} : single (none : Option α) = 0 := rfl

@[simp] theorem single_some {α : Type} (a : α) : single (some a) = {a} := rfl

def fds (ofile : Fin NOFILE → Option (Fin NFILE)) : Multiset (Fin NFILE) := ∑ fd, single (ofile fd)

theorem fds_update (ofile : Fin NOFILE → Option (Fin NFILE)) (fd : Fin NOFILE) (f : Option (Fin NFILE)) :
    fds (Function.update ofile fd f) + single (ofile fd) = fds ofile + single f := by
  have hnew := add_sum_erase univ (fun x => single (Function.update ofile fd f x)) (mem_univ fd)
  have hold := add_sum_erase univ (fun x => single (ofile x)) (mem_univ fd)
  have hrest : ∑ x ∈ univ.erase fd, single (Function.update ofile fd f x) = ∑ x ∈ univ.erase fd, single (ofile x) := by
    refine sum_congr rfl (fun x hx => ?_)
    rw [Function.update_of_ne (ne_of_mem_erase hx)]
  rw [hrest, Function.update_self] at hnew
  rw [fds, fds, ← hnew, ← hold]
  ac_rfl

theorem fds_alloc (h : ofile fd = none) (f : Fin NFILE) :
    fds (Function.update ofile fd (some f)) = f ::ₘ fds ofile := by
  have hu := fds_update ofile fd (some f)
  rw [h] at hu
  simpa [add_comm] using hu

theorem fds_clear {f : Fin NFILE} (h : ofile fd = some f) :
    f ::ₘ fds (Function.update ofile fd none) = fds ofile := by
  have hu := fds_update ofile fd none
  rw [h] at hu
  simpa [add_comm] using hu

theorem mem_fds {f : Fin NFILE} (h : ofile fd = some f) :
    f ∈ fds ofile := fds_clear h ▸ Multiset.mem_cons_self f _

structure Hand where
  cwd : Option Ip
  ofile : Fin NOFILE → Option (Fin NFILE)
  inodes : Multiset Ip
  files : Multiset (Fin NFILE)
  fresh : Finset (Fin NFILE) := ∅
  ops : ℕ := 0

namespace Hand

def take (g : Hand) (ip : Ip) : Hand := { g with inodes := ip ::ₘ g.inodes }

def drop (g : Hand) (ip : Ip) : Hand := { g with inodes := g.inodes.erase ip }

def enter (g : Hand) : Hand := { g with ops := g.ops + 1 }

def leave (g : Hand) : Hand := { g with ops := g.ops - 1 }

def alloc (g : Hand) (f : Fin NFILE) : Hand := { g with files := f ::ₘ g.files, fresh := insert f g.fresh }

def dup (g : Hand) (f : Fin NFILE) : Hand := { g with files := f ::ₘ g.files }

def put (g : Hand) (f : Fin NFILE) : Hand := { g with files := g.files.erase f, fresh := g.fresh.erase f }

def fill (g : Hand) (f : Fin NFILE) : Hand := { g with fresh := g.fresh.erase f }

def setCwd (g : Hand) (cwd : Option Ip) : Hand := { g with cwd := cwd }

def setFd (g : Hand) (fd : Fin NOFILE) (f : Option (Fin NFILE)) : Hand :=
  { g with ofile := Function.update g.ofile fd f }

def rest (cwd : Option Ip) (ofile : Fin NOFILE → Option (Fin NFILE)) : Hand :=
  { cwd := cwd, ofile := ofile, inodes := single cwd, files := fds ofile }

structure Idle (g : Hand) : Prop where
  inodes : g.inodes = single g.cwd
  files : g.files = fds g.ofile
  fresh : g.fresh = ∅
  ops : g.ops = 0

def Gone (g : Hand) : Prop := g.cwd = none

def Homed (g : Hand) : Prop := ∀ ip, g.cwd = some ip → ip ∈ g.inodes

end Hand

def Op.uses {P : Type} : Op P → List Ip
  | .acquire ip _ => [ip]
  | .release ip => [ip]
  | .load ip => [ip]
  | .reap ip => [ip]
  | .deref ip => [ip]
  | .type ip => [ip]
  | .nlink ip => [ip]
  | .isdirempty ip => [ip]
  | .dirlookup dp _ => [dp]
  | .dirwrite dp _ ip => [dp, ip]
  | .dirclear dp _ => [dp]
  | .addlink ip => [ip]
  | .droplink ip => [ip]
  | .firstlink ip => [ip]
  | .setFile _ (.inode ip) => [ip]
  | _ => []

def Op.passive {P : Type} : Op P → Bool
  | .acquire .. | .release _ | .load _ | .reap _ | .type _ | .nlink _ | .isdirempty _ => true
  | .dirwrite .. | .dirclear .. | .addlink _ | .droplink _ | .firstlink _ => true
  | _ => false

@[reducible] def hands (P : Type) : Spec (sig P) Hand := fun o g Q => g.cwd ≠ none ∧ (∀ ip ∈ o.uses, ip ∈ g.inodes) ∧
  match o, Q with
  | .beginOp, Q => Q () g.enter
  | .endOp, Q => 0 < g.ops ∧ Q () g.leave
  | .deref ip, Q => Q () (g.drop ip)
  | .igetRoot, Q => ∀ ip, Q ip (g.take ip)
  | .idupCwd, Q => ∀ ip, g.cwd = some ip → ip ∈ g.inodes ∧ Q ip (g.take ip)
  | .dirlookup _ _, Q => Q none g ∧ ∀ ip, Q (some ip) (g.take ip)
  | .ialloc _, Q => ∀ ip, Q ip (g.take ip)
  | .getCwd, Q => ∀ ip, g.cwd = some ip → Q ip g
  | .setCwd ip, Q => Q () (g.setCwd (some ip))
  | .clearCwd, Q => (g.setCwd none).Idle ∧ g.files = 0 ∧ Q () (g.setCwd none)
  | .filealloc, Q => Q none g ∧ ∀ f, f ∉ g.files → Q (some f) (g.alloc f)
  | .filedup f, Q => f ∈ g.files ∧ Q () (g.dup f)
  | .fileput f, Q => f ∈ g.files ∧ Q .none (g.put f) ∧ Q .pipe (g.put f) ∧
      (f ∉ g.fresh → ∀ ip, Q (.inode ip) ((g.put f).take ip))
  | .setFile f kind, Q => f ∈ g.fresh ∧ match kind with
    | .inode ip => Q () ((g.fill f).drop ip)
    | _ => Q () (g.fill f)
  | .fdalloc f, Q => Q none g ∧ ∀ fd, g.ofile fd = none → Q (some fd) (g.setFd fd (some f))
  | .fdget fd, Q => Q (g.ofile fd) g
  | .fdclear fd, Q => Q () (g.setFd fd none)
  | .fork _, Q => g.inodes = single g.cwd + single g.cwd ∧ g.files = fds g.ofile + fds g.ofile ∧ g.fresh = ∅ ∧
      g.ops = 0 ∧ Q () (.rest g.cwd g.ofile)
  | .panic _, _ => True
  | _, Q => ∀ r, Q r g

namespace Hand

variable {g : Hand} {ip jp : Ip} {f f' : Fin NFILE} {fd : Fin NOFILE}

@[simp] theorem drop_take : (g.take ip).drop ip = g := by simp [take, drop]

@[simp] theorem drop_take_take : ((g.take ip).take jp).drop ip = g.take jp := by
  by_cases h : jp = ip
  · simp [take, drop, h]
  · simp [take, drop, h]

@[simp] theorem enter_take : (g.take ip).enter = g.enter.take ip := rfl

theorem put_alloc (h : f ∉ g.fresh) : (g.alloc f).put f = g := by simp [alloc, put, h]

theorem put_put_dup (h : g.fresh = ∅) : (((g.dup f).dup f').put f).put f' = g := by
  have hfiles : (f' ::ₘ f ::ₘ g.files).erase f = f' ::ₘ g.files := by
    rw [Multiset.erase_cons_tail_of_mem (Multiset.mem_cons_self f _), Multiset.erase_cons_head]
  obtain ⟨cwd, ofile, inodes, files, fresh, ops⟩ := g
  subst h
  simp [dup, put, hfiles]

theorem erase_pair (f f' : Fin NFILE) : (({f', f} : Finset (Fin NFILE)).erase f).erase f' = ∅ := by
  ext x
  simp only [mem_erase, mem_insert, mem_singleton, notMem_empty]
  tauto

theorem put_put_alloc (h : g.fresh = ∅) : (((g.alloc f).alloc f').put f).put f' = g := by
  calc (((g.alloc f).alloc f').put f).put f' = (((g.dup f).dup f').put f).put f' := by
        simp [alloc, dup, put, h, erase_pair]
    _ = g := put_put_dup h

theorem fill_fill_alloc (h : g.fresh = ∅) :
    (((g.alloc f).alloc f').fill f).fill f' = (g.dup f).dup f' := by
  simp [alloc, dup, fill, h, erase_pair]

theorem setFd_setFd {f : Option (Fin NFILE)} (h : g.ofile fd = none) :
    (g.setFd fd f).setFd fd none = g := by
  simp [setFd, ← h]

theorem Idle.openFd (h : g.Idle) (hfd : g.ofile fd = none) :
    ((g.dup f).setFd fd (some f)).Idle :=
  ⟨h.inodes, by simp [dup, setFd, fds_alloc hfd, h.files], h.fresh, h.ops⟩

theorem Idle.closeFd (h : g.Idle) (hfd : g.ofile fd = some f) :
    ((g.setFd fd none).put f).Idle :=
  ⟨h.inodes, by simp [put, setFd, h.files, ← fds_clear hfd], by simp [put, setFd, h.fresh], h.ops⟩

theorem Idle.mem_files (h : g.Idle) (hfd : g.ofile fd = some f) : f ∈ g.files :=
  h.files ▸ mem_fds hfd

theorem mem_take : ip ∈ (g.take ip).inodes := Multiset.mem_cons_self ip _

theorem Homed.take (h : g.Homed) : (g.take ip).Homed := fun c hc => Multiset.mem_cons_of_mem (h c hc)

theorem Idle.homed (h : g.Idle) : g.Homed := fun ip hip => by simp [h.inodes, hip, single]

theorem mem_take_of_mem (h : ip ∈ g.inodes) : ip ∈ (g.take jp).inodes := Multiset.mem_cons_of_mem h

end Hand

section Rules

variable {P : Type} {g : Hand} {ip dp : Ip} {f : Fin NFILE} {Q : Unit → Hand → Prop} {name : String} {path : Option Path} {type : Ftype} {fd : ℤ}

theorem used (h : ip ∈ g.inodes) : ∀ x ∈ [ip], x ∈ g.inodes := List.forall_mem_singleton.mpr h

theorem unused : ∀ x ∈ ([] : List Ip), x ∈ g.inodes := List.forall_mem_nil _

theorem hands_passive {o : Op P} {Q : o.Res → Hand → Prop} (ho : o.passive) (hc : g.cwd ≠ none)
    (hu : ∀ x ∈ o.uses, x ∈ g.inodes) (hQ : ∀ r, Q r g) : wp (hands P) (op o) g Q := by
  refine wp_op ⟨hc, hu, ?_⟩
  cases o <;> first | exact hQ | cases ho

theorem hands_beginOp (hc : g.cwd ≠ none) (hQ : Q () g.enter) : wp (hands P) beginOp g Q :=
  wp_op ⟨hc, unused, hQ⟩

theorem hands_endOp (hc : g.cwd ≠ none) (ho : 0 < g.ops) (hQ : Q () g.leave) :
    wp (hands P) endOp g Q := wp_op ⟨hc, unused, ho, hQ⟩

theorem hands_iunlock (hc : g.cwd ≠ none) (hi : ip ∈ g.inodes) (hQ : Q () g) :
    wp (hands P) (iunlock ip) g Q := hands_passive rfl hc (used hi) (fun _ => hQ)

theorem hands_dirlookup {Q : Option Ip → Hand → Prop} (hc : g.cwd ≠ none) (hd : dp ∈ g.inodes)
    (hnone : Q none g) (hsome : ∀ ip, Q (some ip) (g.take ip)) : wp (hands P) (dirlookup dp name) g Q :=
  wp_op ⟨hc, used hd, hnone, hsome⟩

theorem hands_lockAs {tag : Tag} (hc : g.cwd ≠ none) (hi : ip ∈ g.inodes) (hQ : Q () g) :
    wp (hands P) (lockAs tag ip) g Q := by
  rw [lockAs, wp_bind]
  exact hands_passive rfl hc (used hi) (fun _ => hands_passive rfl hc (used hi) (fun _ => hQ))

theorem hands_putAs {tag : Tag} (hc : g.cwd ≠ none) (hi : ip ∈ g.inodes)
    (hQ : Q () (g.drop ip)) : wp (hands P) (putAs tag ip) g Q := by
  rw [putAs, wp_bind]
  refine hands_passive rfl hc (used hi) (fun _ => ?_)
  refine wp_seq (hands_passive rfl hc (used hi) (fun _ => ?_))
  exact wp_seq (hands_iunlock hc hi (wp_op ⟨hc, used hi, hQ⟩))

theorem hands_iunlockput (hc : g.cwd ≠ none) (hi : ip ∈ g.inodes) (hQ : Q () (g.drop ip)) :
    wp (hands P) (iunlockput ip) g Q := by
  rw [iunlockput, wp_bind]
  exact hands_iunlock hc hi (hands_putAs hc hi hQ)

theorem hands_walk {parent : Bool} {elems : List String} {Q : Option (Ip × String) → Hand → Prop}
    (hc : g.cwd ≠ none) (hnone : Q none g) (hsome : ∀ ip name, Q (some (ip, name)) (g.take ip)) :
    wp (hands P) (walk parent ip elems) (g.take ip) Q := by
  induction elems generalizing ip with
  | nil =>
    cases parent with
    | true =>
      simp only [walk, if_true, wp_bind]
      exact hands_putAs hc Hand.mem_take (by simpa using hnone)
    | false => exact hsome ip ""
  | cons name rest ih =>
    have hput : wp (hands P) (do iunlockput ip; return none) (g.take ip) Q := by
      exact wp_seq (hands_iunlockput hc Hand.mem_take (by simpa using hnone))
    rw [walk, wp_bind]
    refine hands_lockAs hc Hand.mem_take ?_
    refine wp_seq (hands_passive rfl hc (used Hand.mem_take) (fun type => ?_))
    split_ifs
    · exact hput
    · exact wp_seq (hands_iunlock hc Hand.mem_take (hsome ip name))
    · refine wp_seq (hands_dirlookup hc Hand.mem_take hput (fun next => ?_))
      dsimp only
      exact wp_seq (hands_iunlockput hc (Hand.mem_take_of_mem Hand.mem_take) (by simpa using ih))

theorem hands_namex {parent : Bool} {path : Path} {Q : Option (Ip × String) → Hand → Prop} (hc : g.cwd ≠ none) (hh : g.Homed)
    (hnone : Q none g) (hsome : ∀ ip name, Q (some (ip, name)) (g.take ip)) :
    wp (hands P) (namex parent path) g Q := by
  rw [namex]
  split_ifs
  · exact wp_seq (wp_op ⟨hc, unused, fun ip => hands_walk hc hnone hsome⟩)
  · exact wp_seq (wp_op ⟨hc, unused, fun ip hip => ⟨hh ip hip, hands_walk hc hnone hsome⟩⟩)

theorem hands_dirlink {Q : Bool → Hand → Prop} (hc : g.cwd ≠ none) (hd : dp ∈ g.inodes)
    (hi : ip ∈ g.inodes) (hQ : ∀ b, Q b g) : wp (hands P) (dirlink dp name ip) g Q := by
  rw [dirlink, wp_bind]
  refine hands_dirlookup hc hd ?_ (fun found => ?_)
  · dsimp only
    exact wp_seq (hands_passive rfl hc (by simp [Op.uses, hd, hi]) (fun _ => hQ true))
  · dsimp only
    exact wp_seq (hands_putAs hc Hand.mem_take (by simpa using hQ false))

theorem hands_panic {msg : String} (hc : g.cwd ≠ none) : wp (hands P) (panic msg) g Q :=
  wp_op ⟨hc, unused, trivial⟩

theorem hands_dirlinkOrPanic {msg : String} (hc : g.cwd ≠ none) (hd : dp ∈ g.inodes)
    (hi : ip ∈ g.inodes) (hQ : Q () g) : wp (hands P) (dirlinkOrPanic dp name ip msg) g Q := by
  rw [dirlinkOrPanic, wp_bind]
  refine hands_dirlink hc hd hi (fun b => ?_)
  split_ifs
  · exact hQ
  · exact hands_panic hc

theorem hands_linkBad {Q : ℤ → Hand → Prop} (hc : g.cwd ≠ none) (hQ : Q (-1) g) :
    wp (hands P) (linkBad ip) (g.enter.take ip) Q := by
  rw [linkBad, wp_bind]
  refine hands_lockAs hc Hand.mem_take ?_
  refine wp_seq (hands_passive rfl hc (used Hand.mem_take) (fun _ => ?_))
  refine wp_seq (hands_iunlockput hc Hand.mem_take ?_)
  rw [wp_bind, Hand.drop_take]
  exact hands_endOp hc (Nat.succ_pos _) hQ

theorem hands_linkTo {new : Path} {Q : ℤ → Hand → Prop} (hc : g.cwd ≠ none) (hh : g.Homed) (hQ : ∀ r, Q r g) :
    wp (hands P) (linkTo ip new) (g.enter.take ip) Q := by
  rw [linkTo, wp_bind]
  refine hands_namex hc hh.take (hands_linkBad hc (hQ _)) (fun dp name => ?_)
  dsimp only
  refine wp_seq (hands_lockAs hc Hand.mem_take ?_)
  refine wp_seq (hands_dirlink hc Hand.mem_take (Hand.mem_take_of_mem Hand.mem_take) (fun b => ?_))
  split_ifs
  · refine wp_seq (hands_iunlockput hc Hand.mem_take ?_)
    rw [wp_bind, Hand.drop_take]
    refine hands_putAs hc Hand.mem_take ?_
    rw [wp_bind, Hand.drop_take]
    exact hands_endOp hc (Nat.succ_pos _) (hQ _)
  · refine wp_seq (hands_iunlockput hc Hand.mem_take ?_)
    rw [Hand.drop_take]
    exact hands_linkBad hc (hQ _)

theorem hands_sysLink {old new : Option Path} {Q : ℤ → Hand → Prop} (hc : g.cwd ≠ none) (hh : g.Homed) (hQ : ∀ r, Q r g) :
    wp (hands P) (sysLink old new) g Q := by
  match old, new with
  | none, _ => exact hQ _
  | some _, none => exact hQ _
  | some old, some new =>
    rw [sysLink, wp_bind]
    refine hands_beginOp hc ?_
    refine wp_seq (hands_namex hc hh ?_ (fun ip _ => ?_))
    · dsimp only
      exact wp_seq (hands_endOp hc (Nat.succ_pos _) (hQ _))
    · dsimp only
      refine wp_seq (hands_lockAs hc Hand.mem_take ?_)
      refine wp_seq (hands_passive rfl hc (used Hand.mem_take) (fun type => ?_))
      split_ifs
      · refine wp_seq (hands_iunlockput hc Hand.mem_take ?_)
        rw [wp_bind, Hand.drop_take]
        exact hands_endOp hc (Nat.succ_pos _) (hQ _)
      · refine wp_seq (hands_passive rfl hc (used Hand.mem_take) (fun _ => ?_))
        exact wp_seq (hands_iunlock hc Hand.mem_take (hands_linkTo hc hh hQ))

theorem hands_putEnd {r : ℤ} {Q : ℤ → Hand → Prop} (hc : g.cwd ≠ none) (hQ : Q r g) :
    wp (hands P) (do iunlockput ip; endOp; return r) (g.enter.take ip) Q := by
  refine wp_seq (hands_iunlockput hc Hand.mem_take ?_)
  rw [wp_bind, Hand.drop_take]
  exact hands_endOp hc (Nat.succ_pos _) hQ

theorem hands_dropParent (hc : g.cwd ≠ none) (hd : dp ∈ g.inodes) (hi : ip ∈ g.inodes)
    (hQ : Q () g) : wp (hands P) (dropParent dp ip) g Q := by
  rw [dropParent, wp_bind]
  refine hands_passive rfl hc (used hi) (fun type => ?_)
  split_ifs
  · exact hands_passive rfl hc (used hd) (fun _ => hQ)
  · exact hQ

theorem hands_unlinkChild {Q : ℤ → Hand → Prop} (hc : g.cwd ≠ none) (hQ : ∀ r, Q r g) :
    wp (hands P) (unlinkChild dp ip name) ((g.enter.take dp).take ip) Q := by
  have hi : ip ∈ ((g.enter.take dp).take ip).inodes := Hand.mem_take
  have hd : dp ∈ ((g.enter.take dp).take ip).inodes := Hand.mem_take_of_mem Hand.mem_take
  rw [unlinkChild, wp_bind]
  refine hands_passive rfl hc (used hi) (fun nlink => ?_)
  split_ifs
  · exact wp_seq (hands_panic hc)
  refine wp_seq (hands_passive rfl hc (used hi) (fun type => ?_))
  refine wp_seq (hands_passive rfl hc (used hi) (fun empty => ?_))
  split_ifs
  · refine wp_seq (hands_iunlockput hc hi ?_)
    rw [Hand.drop_take]
    exact hands_putEnd hc (hQ _)
  · refine wp_seq (hands_passive rfl hc (used hd) (fun _ => ?_))
    refine wp_seq (hands_dropParent hc hd hi ?_)
    rw [wp_bind, iunlockputParent, wp_bind]
    refine hands_iunlock hc hd (hands_putAs hc hd ?_)
    rw [wp_bind, Hand.drop_take_take]
    exact hands_passive rfl hc (used Hand.mem_take) (fun _ => hands_putEnd hc (hQ _))

theorem hands_sysUnlink {Q : ℤ → Hand → Prop} (hc : g.cwd ≠ none) (hh : g.Homed) (hQ : ∀ r, Q r g) :
    wp (hands P) (sysUnlink path) g Q := by
  match path with
  | none => exact hQ _
  | some path =>
    rw [sysUnlink, wp_bind]
    refine hands_beginOp hc ?_
    refine wp_seq (hands_namex hc hh ?_ (fun dp name => ?_))
    · dsimp only
      exact wp_seq (hands_endOp hc (Nat.succ_pos _) (hQ _))
    · dsimp only
      refine wp_seq (hands_lockAs hc Hand.mem_take ?_)
      split_ifs
      · exact hands_putEnd hc (hQ _)
      · refine wp_seq (hands_dirlookup hc Hand.mem_take (hands_putEnd hc (hQ _)) (fun ip => ?_))
        dsimp only
        exact wp_seq (hands_lockAs hc Hand.mem_take (hands_unlinkChild hc hQ))

theorem hands_createDots (hc : g.cwd ≠ none) (hd : dp ∈ g.inodes)
    (hi : ip ∈ g.inodes) (hQ : Q () g) : wp (hands P) (createDots type dp ip) g Q := by
  rw [createDots]
  split_ifs
  · refine wp_seq (hands_passive rfl hc (used hd) (fun _ => ?_))
    exact wp_seq (hands_dirlinkOrPanic hc hi hi (hands_dirlinkOrPanic hc hi hd hQ))
  · exact hQ

theorem hands_createNew {Q : Ip → Hand → Prop} (hc : g.cwd ≠ none)
    (hQ : ∀ ip, Q ip (g.take ip)) : wp (hands P) (createNew dp name type) (g.take dp) Q := by
  rw [createNew, wp_bind]
  refine wp_op ⟨hc, unused, fun ip => ?_⟩
  dsimp only
  have hi : ip ∈ ((g.take dp).take ip).inodes := Hand.mem_take
  have hd : dp ∈ ((g.take dp).take ip).inodes := Hand.mem_take_of_mem Hand.mem_take
  refine wp_seq (hands_lockAs hc hi ?_)
  refine wp_seq (hands_passive rfl hc (used hi) (fun _ => ?_))
  refine wp_seq (hands_createDots hc hd hi ?_)
  refine wp_seq (hands_dirlinkOrPanic hc hd hi ?_)
  rw [wp_bind, iunlockputParent, wp_bind]
  exact hands_iunlock hc hd (hands_putAs hc hd (by simpa using hQ ip))

theorem hands_create {path : Path} {Q : Option Ip → Hand → Prop} (hc : g.cwd ≠ none) (hh : g.Homed)
    (hnone : Q none g) (hsome : ∀ ip, Q (some ip) (g.take ip)) : wp (hands P) (create path type) g Q := by
  rw [create, wp_bind]
  refine hands_namex hc hh hnone (fun dp name => ?_)
  dsimp only
  refine wp_seq (hands_lockAs hc Hand.mem_take ?_)
  refine wp_seq (hands_dirlookup hc Hand.mem_take ?_ (fun ip => ?_))
  · dsimp only
    exact wp_seq (hands_createNew hc hsome)
  · dsimp only
    refine wp_seq (hands_iunlockput hc (Hand.mem_take_of_mem Hand.mem_take) ?_)
    rw [wp_bind, Hand.drop_take_take]
    refine hands_lockAs hc Hand.mem_take ?_
    refine wp_seq (hands_passive rfl hc (used Hand.mem_take) (fun found => ?_))
    split_ifs
    · exact hsome ip
    · exact wp_seq (hands_iunlockput hc Hand.mem_take (by simpa using hnone))

theorem hands_fileclose (hc : g.cwd ≠ none) (hf : f ∈ g.files) (hQ : Q () (g.put f)) :
    wp (hands P) (fileclose f) g Q := by
  rw [fileclose, wp_bind]
  refine wp_op ⟨hc, unused, hf, hQ, hQ, fun _ ip => ?_⟩
  dsimp only
  refine wp_seq (hands_beginOp hc ?_)
  refine wp_seq (hands_putAs hc Hand.mem_take ?_)
  rw [Hand.enter_take, Hand.drop_take]
  exact hands_endOp hc (Nat.succ_pos _) hQ

theorem hands_openInode {Q : ℤ → Hand → Prop} (hc : g.cwd ≠ none) (hfresh : g.fresh = ∅) (hbad : Q (-1) g)
    (hQ : ∀ f fd, g.ofile fd = none → Q fd.val ((g.dup f).setFd fd (some f))) :
    wp (hands P) (openInode ip) (g.enter.take ip) Q := by
  rw [openInode, wp_bind]
  refine wp_op ⟨hc, unused, hands_putEnd hc hbad, fun f _ => ?_⟩
  dsimp only
  refine wp_seq (wp_op ⟨hc, unused, ?_, fun fd hfd => ?_⟩)
  · dsimp only
    refine wp_seq (hands_fileclose hc (Multiset.mem_cons_self f _) ?_)
    rw [Hand.put_alloc (by simp [Hand.take, Hand.enter, hfresh])]
    exact hands_putEnd hc hbad
  · dsimp only
    refine wp_seq (hands_iunlock hc Hand.mem_take ?_)
    refine wp_seq (hands_endOp hc (Nat.succ_pos _) ?_)
    refine wp_seq (wp_op ⟨hc, used Hand.mem_take, Finset.mem_insert_self f _, ?_⟩)
    convert hQ f fd hfd using 1
    simp [Hand.setFd, Hand.alloc, Hand.take, Hand.enter, Hand.leave, Hand.fill, Hand.drop, Hand.dup, hfresh]

theorem hands_sysOpen {ocreate rdonly : Bool} (hi : g.Idle) (hc : g.cwd ≠ none) :
    wp (hands P) (sysOpen path ocreate rdonly) g (fun _ => Hand.Idle) := by
  have hfresh := hi.fresh
  have hopen (ip : Ip) : wp (hands P) (openInode ip) (g.enter.take ip) (fun _ => Hand.Idle) :=
    hands_openInode hc hfresh hi (fun f fd hfd => hi.openFd hfd)
  match path with
  | none => exact hi
  | some path =>
    rw [sysOpen, wp_bind]
    refine hands_beginOp hc ?_
    split_ifs
    · refine wp_seq (hands_create hc hi.homed ?_ hopen)
      dsimp only
      exact wp_seq (hands_endOp hc (Nat.succ_pos _) hi)
    · refine wp_seq (hands_namex hc hi.homed ?_ (fun ip _ => ?_))
      · dsimp only
        exact wp_seq (hands_endOp hc (Nat.succ_pos _) hi)
      · dsimp only
        refine wp_seq (hands_lockAs hc Hand.mem_take ?_)
        refine wp_seq (hands_passive rfl hc (used Hand.mem_take) (fun type => ?_))
        split_ifs
        · exact hands_putEnd hc hi
        · exact hopen ip

theorem hands_sysMake {Q : ℤ → Hand → Prop} (hc : g.cwd ≠ none) (hh : g.Homed)
    (hQ : ∀ r, Q r g) :
    wp (hands P) (sysMake path type) g Q := by
  unfold sysMake
  refine wp_seq (hands_beginOp hc ?_)
  match path with
  | none =>
    dsimp only
    exact wp_seq (hands_endOp hc (Nat.succ_pos _) (hQ _))
  | some path =>
    dsimp only
    refine wp_seq (hands_create hc hh ?_ (fun ip => hands_putEnd hc (hQ _)))
    dsimp only
    exact wp_seq (hands_endOp hc (Nat.succ_pos _) (hQ _))

theorem hands_sysExec {loaded pushed : Bool} {Q : ℤ → Hand → Prop} (hc : g.cwd ≠ none) (hh : g.Homed)
    (hQ : ∀ r, Q r g) : wp (hands P) (sysExec path loaded pushed) g Q := by
  match path with
  | none => exact hQ _
  | some path =>
    rw [sysExec, wp_bind]
    refine hands_beginOp hc ?_
    refine wp_seq (hands_namex hc hh ?_ (fun ip _ => ?_))
    · dsimp only
      exact wp_seq (hands_endOp hc (Nat.succ_pos _) (hQ _))
    · dsimp only
      exact wp_seq (hands_lockAs hc Hand.mem_take (hands_putEnd hc (hQ _)))

theorem hands_sysChdir (hi : g.Idle) (hc : g.cwd ≠ none) :
    wp (hands P) (sysChdir path) g (fun _ => Hand.Idle) := by
  unfold sysChdir
  refine wp_seq (hands_beginOp hc ?_)
  match path with
  | none =>
    dsimp only
    exact wp_seq (hands_endOp hc (Nat.succ_pos _) hi)
  | some path =>
    dsimp only
    refine wp_seq (hands_namex hc hi.homed ?_ (fun ip _ => ?_))
    · dsimp only
      exact wp_seq (hands_endOp hc (Nat.succ_pos _) hi)
    · dsimp only
      refine wp_seq (hands_lockAs hc Hand.mem_take ?_)
      refine wp_seq (hands_passive rfl hc (used Hand.mem_take) (fun type => ?_))
      split_ifs
      · exact hands_putEnd hc hi
      · refine wp_seq (hands_iunlock hc Hand.mem_take ?_)
        refine wp_seq (wp_op ⟨hc, unused, fun old hold => ?_⟩)
        have hin : g.inodes = {old} := by
          rw [hi.inodes]
          exact congrArg single hold
        dsimp only
        refine wp_seq (hands_putAs hc (Hand.mem_take_of_mem (by simp [Hand.enter, hin])) ?_)
        refine wp_seq (hands_endOp hc (Nat.succ_pos _) ?_)
        refine wp_seq (wp_op ⟨hc, unused, ⟨?_, hi.files, hi.fresh, hi.ops⟩⟩)
        change (ip ::ₘ g.inodes).erase old = {ip}
        rw [hin, Multiset.erase_cons_tail_of_mem (Multiset.mem_singleton_self old), Multiset.erase_singleton]
        rfl

theorem hands_argfd {Q : Option (Fin NOFILE × Fin NFILE) → Hand → Prop} (hc : g.cwd ≠ none)
    (hnone : Q none g) (hsome : ∀ fd f, g.ofile fd = some f → Q (some (fd, f)) g) : wp (hands P) (argfd fd) g Q := by
  rw [argfd]
  split_ifs with h
  · refine wp_seq (wp_op ⟨hc, unused, ?_⟩)
    cases hf : g.ofile ⟨fd.toNat, h.2⟩ with
    | none => simpa [hf] using hnone
    | some f => simpa [hf] using hsome _ f hf
  · exact hnone

theorem hands_sysClose (hi : g.Idle) (hc : g.cwd ≠ none) :
    wp (hands P) (sysClose fd) g (fun _ => Hand.Idle) := by
  rw [sysClose, wp_bind]
  refine hands_argfd hc hi (fun fd f hf => ?_)
  dsimp only
  refine wp_seq (wp_op ⟨hc, unused, ?_⟩)
  dsimp only
  exact wp_seq (hands_fileclose hc (hi.mem_files hf) (hi.closeFd hf))

theorem hands_sysDup (hi : g.Idle) (hc : g.cwd ≠ none) :
    wp (hands P) (sysDup fd) g (fun _ => Hand.Idle) := by
  rw [sysDup, wp_bind]
  refine hands_argfd hc hi (fun fd f hf => ?_)
  dsimp only
  refine wp_seq (wp_op ⟨hc, unused, hi, fun fd' hfd' => ?_⟩)
  dsimp only
  exact wp_seq (wp_op ⟨hc, unused, hi.mem_files hf, hi.openFd hfd'⟩)

theorem hands_pipealloc {page : Bool} {Q : Option (Fin NFILE × Fin NFILE) → Hand → Prop} (hc : g.cwd ≠ none)
    (hfresh : g.fresh = ∅) (hnone : Q none g) (hsome : ∀ f0 f1, Q (some (f0, f1)) ((g.dup f0).dup f1)) :
    wp (hands P) (pipealloc page) g Q := by
  rw [pipealloc, wp_bind]
  refine wp_op ⟨hc, unused, hnone, fun f0 _ => ?_⟩
  dsimp only
  refine wp_seq (wp_op ⟨hc, unused, ?_, fun f1 h1 => ?_⟩)
  · dsimp only
    refine wp_seq (hands_fileclose hc (Multiset.mem_cons_self f0 _) ?_)
    rw [Hand.put_alloc (by simp [hfresh])]
    exact hnone
  · have hne : f1 ≠ f0 := by
      rintro rfl
      exact h1 (Multiset.mem_cons_self f1 _)
    dsimp only
    split_ifs
    · refine wp_seq (wp_op ⟨hc, unused, by simp [Hand.alloc], ?_⟩)
      dsimp only
      refine wp_seq (wp_op ⟨hc, unused, by simp [Hand.alloc, Hand.fill, hne], ?_⟩)
      dsimp only
      rw [Hand.fill_fill_alloc hfresh]
      exact hsome f0 f1
    · refine wp_seq (hands_fileclose hc (Multiset.mem_cons_of_mem (Multiset.mem_cons_self f0 _)) ?_)
      refine wp_seq (hands_fileclose hc ?_ ?_)
      · exact (Multiset.mem_erase_of_ne hne).mpr (Multiset.mem_cons_self f1 _)
      · rw [Hand.put_put_alloc hfresh]
        exact hnone

theorem hands_pipeBad {rf wf : Fin NFILE} {Q : ℤ → Hand → Prop} (hc : g.cwd ≠ none) (hfresh : g.fresh = ∅)
    (hQ : Q (-1) g) : wp (hands P) (do fileclose rf; fileclose wf; return -1) ((g.dup rf).dup wf) Q := by
  refine wp_seq (hands_fileclose hc (Multiset.mem_cons_of_mem (Multiset.mem_cons_self rf _)) ?_)
  refine wp_seq (hands_fileclose hc ?_ ?_)
  · change wf ∈ (wf ::ₘ rf ::ₘ g.files).erase rf
    rw [Multiset.erase_cons_tail_of_mem (Multiset.mem_cons_self rf _)]
    exact Multiset.mem_cons_self wf _
  · rw [Hand.put_put_dup hfresh]
    exact hQ

theorem hands_sysPipe {args page : Bool} (hi : g.Idle) (hc : g.cwd ≠ none) :
    wp (hands P) (sysPipe args page) g (fun _ => Hand.Idle) := by
  rw [sysPipe]
  split_ifs
  · refine wp_seq (hands_pipealloc hc hi.fresh hi (fun rf wf => ?_))
    dsimp only
    refine wp_seq (wp_op ⟨hc, unused, hands_pipeBad hc hi.fresh hi, fun fd0 h0 => ?_⟩)
    dsimp only
    refine wp_seq (wp_op ⟨hc, unused, ?_, fun fd1 h1 => ?_⟩)
    · dsimp only
      refine wp_seq (wp_op ⟨hc, unused, ?_⟩)
      dsimp only
      rw [Hand.setFd_setFd h0]
      exact hands_pipeBad hc hi.fresh hi
    · exact (hi.openFd h0).openFd h1
  · exact hi

theorem hands_closeFiles {fs : List (Fin NOFILE)} (hi : g.Idle) (hc : g.cwd ≠ none)
    (hQ : ∀ g', g'.Idle → g'.cwd = g.cwd → (∀ fd, fd ∈ fs ∨ g.ofile fd = none → g'.ofile fd = none) → Q () g') :
    wp (hands P) (closeFiles fs) g Q := by
  induction fs generalizing g with
  | nil => exact hQ g hi rfl (fun fd hfd => hfd.resolve_left List.not_mem_nil)
  | cons fd fs ih =>
    rw [closeFiles, wp_bind]
    refine wp_op ⟨hc, unused, ?_⟩
    dsimp only
    cases hf : g.ofile fd with
    | none =>
      refine ih hi hc (fun g' hi' hc' ho => hQ g' hi' hc' (fun x hx => ?_))
      rcases hx with hx | hx
      · rcases List.mem_cons.mp hx with rfl | hx
        · exact ho x (.inr hf)
        · exact ho x (.inl hx)
      · exact ho x (.inr hx)
    | some f =>
      dsimp only
      refine wp_seq (hands_fileclose hc (hi.mem_files hf) ?_)
      refine wp_seq (wp_op ⟨hc, unused, ih (hi.closeFd hf) hc (fun g' hi' hc' ho => hQ g' hi' hc' (fun x hx => ho x ?_))⟩)
      by_cases hxf : x = fd
      · exact .inr (by simp [hxf, Hand.put, Hand.setFd])
      · rcases hx with hx | hx
        · exact .inl ((List.mem_cons.mp hx).resolve_left hxf)
        · exact .inr (by simp [hxf, Hand.put, Hand.setFd, hx])

theorem hands_sysExit (hi : g.Idle) (hc : g.cwd ≠ none) : wp (hands P) (sysExit) g (fun _ => Hand.Idle) := by
  rw [sysExit, wp_bind]
  refine hands_closeFiles hi hc (fun g' hi' hc' ho => ?_)
  rw [← hc'] at hc
  have hfiles : g'.files = 0 := by
    rw [hi'.files, fds]
    exact sum_eq_zero (fun fd _ => by rw [ho fd (.inl (List.mem_finRange fd))]; rfl)
  refine wp_seq (hands_beginOp hc ?_)
  refine wp_seq (wp_op ⟨hc, unused, fun cwd hcwd => ?_⟩)
  have hin : g'.inodes = {cwd} := by
    rw [hi'.inodes]
    exact congrArg single hcwd
  dsimp only
  refine wp_seq (hands_putAs hc (by simp [Hand.enter, hin]) ?_)
  refine wp_seq (hands_endOp hc (Nat.succ_pos _) ?_)
  rw [wp_bind]
  have hidle : ((g'.enter.drop cwd).leave.setCwd none).Idle :=
    ⟨by simp [Hand.enter, Hand.drop, Hand.leave, Hand.setCwd, hin, single], hi'.files, hi'.fresh, hi'.ops⟩
  exact wp_op ⟨hc, unused, hidle, hfiles, hidle⟩

theorem hands_dupFiles {fs : List (Fin NOFILE)} (hc : g.cwd ≠ none)
    (hf : ∀ fd f, g.ofile fd = some f → f ∈ g.files)
    (hQ : Q () { g with files := g.files + (fs.map (fun fd => single (g.ofile fd))).sum }) :
    wp (hands P) (dupFiles fs) g Q := by
  induction fs generalizing g with
  | nil => exact (by simpa using hQ : Q () g)
  | cons fd fs ih =>
    rw [dupFiles, wp_bind]
    refine wp_op ⟨hc, unused, ?_⟩
    dsimp only
    cases ho : g.ofile fd with
    | none => exact ih hc hf (by simpa [ho, single] using hQ)
    | some f =>
      dsimp only
      refine wp_seq (wp_op ⟨hc, unused, hf fd f ho, ih hc (fun fd' f' h' => Multiset.mem_cons_of_mem (hf fd' f' h')) ?_⟩)
      simpa [ho, single, Hand.dup, ← Multiset.singleton_add, add_assoc, add_comm, add_left_comm] using hQ

theorem hands_sysFork {q : P} {mem : Bool} (hi : g.Idle) (hc : g.cwd ≠ none) :
    wp (hands P) (sysFork q mem) g (fun _ => Hand.Idle) := by
  rw [sysFork]
  split_ifs
  · refine wp_seq (hands_dupFiles hc (fun fd f hf => hi.mem_files hf) ?_)
    refine wp_seq (wp_op ⟨hc, unused, fun cwd hcwd => ⟨hi.homed cwd hcwd, ?_⟩⟩)
    dsimp only
    refine wp_seq (wp_op ⟨hc, unused, ?_, ?_, hi.fresh, hi.ops, ⟨rfl, rfl, rfl, rfl⟩⟩)
    · change cwd ::ₘ g.inodes = single g.cwd + single g.cwd
      rw [hi.inodes, hcwd]
      rfl
    · change g.files + _ = fds g.ofile + fds g.ofile
      rw [hi.files, fds, Fin.sum_univ_def]
  · exact hi

theorem hands_code (c : Call P) (hi : g.Idle) (hc : g.cwd ≠ none) : wp (hands P) c.code g (fun _ => Hand.Idle) := by
  cases c with
  | openFile path ocreate rdonly => exact hands_sysOpen hi hc
  | mkdir path => exact hands_sysMake hc hi.homed (fun _ => hi)
  | mknod path => exact hands_sysMake hc hi.homed (fun _ => hi)
  | link old new => exact hands_sysLink hc hi.homed (fun _ => hi)
  | unlink path => exact hands_sysUnlink hc hi.homed (fun _ => hi)
  | chdir path => exact hands_sysChdir hi hc
  | exec path loaded pushed => exact hands_sysExec hc hi.homed (fun _ => hi)
  | close fd => exact hands_sysClose hi hc
  | dup fd => exact hands_sysDup hi hc
  | pipe args page => exact hands_sysPipe hi hc
  | fork q mem => exact hands_sysFork hi hc
  | exit => exact hands_sysExit hi hc

end Rules

section After

variable {P : Type}

def Op.after (o : Op P) (r : o.Res) (g : Hand) : Multiset Ip := match o, r with
  | .deref ip, _ => g.inodes.erase ip
  | .igetRoot, ip => ip ::ₘ g.inodes
  | .idupCwd, ip => ip ::ₘ g.inodes
  | .ialloc _, ip => ip ::ₘ g.inodes
  | .dirlookup _ _, some ip => ip ::ₘ g.inodes
  | .fileput _, .inode ip => ip ::ₘ g.inodes
  | .setFile _ (.inode ip), _ => g.inodes.erase ip
  | .fork _, _ => single g.cwd
  | _, _ => g.inodes

theorem hands_after {o : Op P} {g : Hand} {Q Q' : o.Res → Hand → Prop} (h : hands P o g Q)
    (hQ : ∀ r g', Q r g' → g'.inodes = o.after r g → Q' r g') : hands P o g Q' := by
  obtain ⟨hc, hu, h⟩ := h
  refine ⟨hc, hu, ?_⟩
  cases o with
  | igetRoot | ialloc => exact fun ip => hQ _ _ (h ip) rfl
  | idupCwd => exact fun ip hip => ⟨(h ip hip).1, hQ _ _ (h ip hip).2 rfl⟩
  | dirlookup => exact ⟨hQ _ _ h.1 rfl, fun ip => hQ _ _ (h.2 ip) rfl⟩
  | getCwd => exact fun ip hip => hQ _ _ (h ip hip) rfl
  | beginOp | deref | setCwd | fdget | fdclear => exact hQ _ _ h rfl
  | endOp => exact ⟨h.1, hQ _ _ h.2 rfl⟩
  | filedup => exact ⟨h.1, hQ _ _ h.2 rfl⟩
  | clearCwd => exact ⟨h.1, h.2.1, hQ _ _ h.2.2 rfl⟩
  | filealloc => exact ⟨hQ _ _ h.1 rfl, fun f hf => hQ _ _ (h.2 f hf) rfl⟩
  | fdalloc => exact ⟨hQ _ _ h.1 rfl, fun fd hfd => hQ _ _ (h.2 fd hfd) rfl⟩
  | fileput =>
    obtain ⟨hf, hnone, hpipe, hinode⟩ := h
    exact ⟨hf, hQ _ _ hnone rfl, hQ _ _ hpipe rfl, fun hx ip => hQ _ _ (hinode hx ip) rfl⟩
  | setFile f kind => cases kind <;> exact ⟨h.1, hQ _ _ h.2 rfl⟩
  | fork =>
    obtain ⟨hi, hf, hx, ho, h⟩ := h
    exact ⟨hi, hf, hx, ho, hQ _ _ h rfl⟩
  | panic => trivial
  | _ => exact fun r => hQ _ _ (h r) rfl

end After

end EnhancedXv6.Fs
