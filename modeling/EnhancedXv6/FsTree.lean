import EnhancedXv6.FsCalls
import EnhancedXv6.Interleaving

namespace EnhancedXv6.Fs

open Function (update update_of_ne update_self)
open Counting

abbrev Table (N : ℕ) := Fin N → Inode N

variable {N : ℕ} [NeZero N]

def count (i : Fin N) (es : List (Dirent N)) : ℕ := es.countP (fun e => e.inum ≠ 0 ∧ e.inum = i)

namespace Inode

def parent (ip : Inode N) : Fin N := match ip.entries with
  | _ :: e :: _ => e.inum
  | _ => 0

def slots (ip : Inode N) : List (Dirent N) := ip.entries.drop 2

def IsDir (ip : Inode N) (d : Fin N) : Prop :=
  ip.entries = ⟨d, "."⟩ :: ⟨ip.parent, ".."⟩ :: ip.slots ∧ ip.parent ≠ 0 ∧
    ∀ e ∈ ip.slots, e.inum ≠ 0 → e.name ≠ "." ∧ e.name ≠ ".."

structure Formed (ip : Inode N) (i : Fin N) : Prop where
  free : ip.type = .free → ip.nlink = 0
  dir : ip.type = .dir → ip.IsDir i
  plain : ip.type ≠ .dir → ip.entries = []
  zero : ip.type ≠ .free → i ≠ 0

def Live (ip : Inode N) : Prop := ip.type = .dir ∧ 0 < ip.nlink

instance (ip : Inode N) : Decidable ip.Live := inferInstanceAs (Decidable (_ ∧ _))

def gives (ip : Inode N) (i : Fin N) : ℕ :=
  if ip.type = .dir then count i ip.slots + (if 0 < ip.nlink ∧ ip.parent = i then 1 else 0) else 0

end Inode

def links (T : Table N) (i : Fin N) : ℕ := total (fun ip => ip.gives i) T

structure Tree (T : Table N) : Prop where
  formed : ∀ i, (T i).Formed i
  root : (T ROOTINO).Live ∧ (T ROOTINO).parent = ROOTINO
  up : ∀ c, (T c).Live → (T (T c).parent).type = .dir
  down : ∀ c d, (T c).type = .dir → (T d).type = .dir →
    count c (T d).slots = if 0 < (T c).nlink ∧ c ≠ ROOTINO ∧ (T c).parent = d then 1 else 0
  links_le : ∀ i, links T i ≤ (T i).nlink
  links_dir : ∀ i, (T i).type = .dir → (T i).nlink = links T i
  rank : ∃ depth : Fin N → ℕ, ∀ c, (T c).Live → c ≠ ROOTINO → depth (T c).parent < depth c

section Slots

variable {es : List (Dirent N)} {i j : Fin N} {name : String}

theorem count_nil (i : Fin N) : count i [] = 0 := rfl

theorem count_cons (e : Dirent N) (es : List (Dirent N)) (i : Fin N) :
    count i (e :: es) = count i es + if e.inum ≠ 0 ∧ e.inum = i then 1 else 0 := by
  simp [count, List.countP_cons]

theorem count_addEntry (es : List (Dirent N)) (name : String) (hi : i ≠ 0) (j : Fin N) :
    count j (addEntry ⟨i, name⟩ es) = count j es + if i = j then 1 else 0 := by
  induction es with
  | nil => simp [addEntry, count_cons, hi]
  | cons e es ih =>
    by_cases he : e.inum = 0
    · simp [addEntry, count_cons, he, hi]
    · simp only [addEntry, he, if_false, count_cons, ih]
      omega

theorem count_clearEntry (h : lookup name es = some i) (j : Fin N) :
    count j (clearEntry name es) + (if i = j then 1 else 0) = count j es := by
  induction es with
  | nil => cases h
  | cons e es ih =>
    by_cases he : e.inum ≠ 0 ∧ e.name = name
    · obtain rfl : e.inum = i := by simpa [lookup, he] using h
      simp [clearEntry, count_cons, he]
    · simp only [lookup, he, if_false] at h
      simp only [clearEntry, he, if_false, count_cons]
      have := ih h
      omega

theorem lookup_mem (h : lookup name es = some i) : ⟨i, name⟩ ∈ es ∧ i ≠ 0 := by
  induction es with
  | nil => cases h
  | cons e es ih =>
    by_cases he : e.inum ≠ 0 ∧ e.name = name
    · obtain rfl : e.inum = i := by simpa [lookup, he] using h
      obtain ⟨h0, rfl⟩ := he
      exact ⟨List.mem_cons_self, h0⟩
    · simp only [lookup, he, if_false] at h
      exact ⟨List.mem_cons_of_mem _ (ih h).1, (ih h).2⟩

theorem count_pos_iff : 0 < count i es ↔ i ≠ 0 ∧ ∃ e ∈ es, e.inum = i := by
  simp only [count, List.countP_pos_iff, decide_eq_true_eq]
  constructor
  · rintro ⟨e, he, h0, rfl⟩
    exact ⟨h0, e, he, rfl⟩
  · rintro ⟨h0, e, he, rfl⟩
    exact ⟨e, he, h0, rfl⟩

theorem count_lookup (h : lookup name es = some i) : 0 < count i es :=
  count_pos_iff.mpr ⟨(lookup_mem h).2, _, (lookup_mem h).1, rfl⟩

theorem mem_addEntry {e new : Dirent N} (h : e ∈ addEntry new es) : e = new ∨ e ∈ es := by
  induction es with
  | nil => simpa [addEntry] using h
  | cons f es ih =>
    by_cases hf : f.inum = 0
    · simp only [addEntry, hf, if_true, List.mem_cons] at h ⊢
      tauto
    · simp only [addEntry, hf, if_false, List.mem_cons] at h ⊢
      tauto

theorem mem_clearEntry {e : Dirent N} (h : e ∈ clearEntry name es) (h0 : e.inum ≠ 0) : e ∈ es := by
  induction es with
  | nil => simp [clearEntry] at h
  | cons f es ih =>
    by_cases hf : f.inum ≠ 0 ∧ f.name = name
    · rw [clearEntry, if_pos hf] at h
      rcases List.mem_cons.mp h with rfl | h
      · exact absurd rfl h0
      · exact List.mem_cons_of_mem _ h
    · simp only [clearEntry, hf, if_false] at h
      rcases List.mem_cons.mp h with rfl | h
      · exact List.mem_cons_self
      · exact List.mem_cons_of_mem _ (ih h)

end Slots

namespace Inode

variable {ip : Inode N} {d i : Fin N} {name : String}

theorem IsDir.lookup_of_ne (h : ip.IsDir d) (h1 : name ≠ ".") (h2 : name ≠ "..") :
    lookup name ip.entries = lookup name ip.slots := by
  rw [h.1]
  simp [lookup, h1.symm, h2.symm, slots]

theorem IsDir.lookup_dot (h : ip.IsDir d) (hd : d ≠ 0) : lookup "." ip.entries = some d := by
  rw [h.1]
  simp [lookup, hd]

theorem IsDir.lookup_dotdot (h : ip.IsDir d) : lookup ".." ip.entries = some ip.parent := by
  rw [h.1]
  simp [lookup, h.2.1]

theorem IsDir.not_dots (h : ip.IsDir d) (hd : d ≠ 0) (hn : lookup name ip.entries = none) :
    name ≠ "." ∧ name ≠ ".." := by
  constructor
  · rintro rfl
    simp [h.lookup_dot hd] at hn
  · rintro rfl
    simp [h.lookup_dotdot] at hn

theorem count_of_isdirempty (he : isdirempty ip.entries) (i : Fin N) : count i ip.slots = 0 := by
  have hfree : ∀ e ∈ ip.slots, e.inum = 0 := by simpa [Fs.isdirempty, slots] using he
  by_contra hc
  obtain ⟨h0, e, hm, rfl⟩ := count_pos_iff.mp (Nat.pos_of_ne_zero hc)
  exact h0 (hfree e hm)

omit [NeZero N] in
@[simp] theorem setNlink_type (ip : Inode N) (n : ℕ) : (ip.setNlink n).type = ip.type := rfl

omit [NeZero N] in
@[simp] theorem setNlink_nlink (ip : Inode N) (n : ℕ) : (ip.setNlink n).nlink = n := rfl

omit [NeZero N] in
@[simp] theorem setNlink_entries (ip : Inode N) (n : ℕ) : (ip.setNlink n).entries = ip.entries := rfl

@[simp] theorem setNlink_parent (ip : Inode N) (n : ℕ) : (ip.setNlink n).parent = ip.parent := rfl

omit [NeZero N] in
@[simp] theorem setNlink_slots (ip : Inode N) (n : ℕ) : (ip.setNlink n).slots = ip.slots := rfl

@[simp] theorem dirwrite_type (ip : Inode N) (name : String) (i : Fin N) : (ip.dirwrite name i).type = ip.type := rfl

@[simp] theorem dirwrite_nlink (ip : Inode N) (name : String) (i : Fin N) : (ip.dirwrite name i).nlink = ip.nlink := rfl

@[simp] theorem dirclear_type (ip : Inode N) (name : String) : (ip.dirclear name).type = ip.type := rfl

@[simp] theorem dirclear_nlink (ip : Inode N) (name : String) : (ip.dirclear name).nlink = ip.nlink := rfl

theorem dirwrite_entries (h : ip.IsDir d) (hd : d ≠ 0) (name : String) (i : Fin N) :
    (ip.dirwrite name i).entries = ⟨d, "."⟩ :: ⟨ip.parent, ".."⟩ :: addEntry ⟨i, name⟩ ip.slots := by
  rw [dirwrite, h.1]
  simp [addEntry, hd, h.2.1, slots]

theorem dirwrite_parent (h : ip.IsDir d) (hd : d ≠ 0) (name : String) (i : Fin N) :
    (ip.dirwrite name i).parent = ip.parent := by rw [parent, dirwrite_entries h hd]

theorem dirwrite_slots (h : ip.IsDir d) (hd : d ≠ 0) (name : String) (i : Fin N) :
    (ip.dirwrite name i).slots = addEntry ⟨i, name⟩ ip.slots := by
  rw [slots, dirwrite_entries h hd]
  rfl

theorem dirclear_entries (h : ip.IsDir d) (h1 : name ≠ ".") (h2 : name ≠ "..") :
    (ip.dirclear name).entries = ⟨d, "."⟩ :: ⟨ip.parent, ".."⟩ :: clearEntry name ip.slots := by
  rw [dirclear, h.1]
  simp [clearEntry, h1.symm, h2.symm, slots]

theorem dirclear_parent (h : ip.IsDir d) (h1 : name ≠ ".") (h2 : name ≠ "..") :
    (ip.dirclear name).parent = ip.parent := by rw [parent, dirclear_entries h h1 h2]

theorem dirclear_slots (h : ip.IsDir d) (h1 : name ≠ ".") (h2 : name ≠ "..") :
    (ip.dirclear name).slots = clearEntry name ip.slots := by
  rw [slots, dirclear_entries h h1 h2]
  rfl

theorem gives_of_type_ne (h : ip.type ≠ .dir) (j : Fin N) : ip.gives j = 0 := if_neg h

theorem gives_of_not_live (h : ip.nlink = 0) (hc : count i ip.slots = 0) : ip.gives i = 0 := by simp [gives, h, hc]

theorem gives_parent (h : ip.Live) : 0 < ip.gives ip.parent := by simp [gives, h.1, h.2]

theorem count_le_gives (h : ip.type = .dir) (j : Fin N) : count j ip.slots ≤ ip.gives j := by simp [gives, h]

end Inode

open Inode

theorem links_update (T : Table N) (i : Fin N) (ip : Inode N) (j : Fin N) :
    links (update T i ip) j + (T i).gives j = links T j + ip.gives j := total_update _ T i ip

theorem links_free (T : Table N) (i j : Fin N) : links (update T i {}) j + (T i).gives j = links T j :=
  links_update T i {} j

theorem gives_le_links (T : Table N) (d i : Fin N) : (T d).gives i ≤ links T i :=
  le_total (fun ip => ip.gives i) T d

namespace Tree

variable {T : Table N} {c d i : Fin N}

theorem type_of_nlink (h : Tree T) (hi : 0 < (T i).nlink) : (T i).type ≠ .free := by
  intro hf
  rw [(h.formed i).free hf] at hi
  exact absurd hi (lt_irrefl 0)

theorem parent_live (h : Tree T) (hc : (T c).Live) : (T (T c).parent).Live := by
  refine ⟨h.up c hc, ?_⟩
  have h1 := gives_parent hc
  have h2 := gives_le_links T c (T c).parent
  have h3 := h.links_le (T c).parent
  omega

theorem nlink_of_count (h : Tree T) (hd : (T d).type = .dir) (hi : 0 < count i (T d).slots) : 0 < (T i).nlink := by
  have h1 := count_le_gives hd i
  have h2 := gives_le_links T d i
  have h3 := h.links_le i
  omega

theorem child (h : Tree T) (hd : (T d).type = .dir) (hc : (T c).type = .dir) (hn : 0 < count c (T d).slots) :
    (T c).Live ∧ c ≠ ROOTINO ∧ (T c).parent = d ∧ count c (T d).slots = 1 := by
  have hdown := h.down c d hc hd
  split_ifs at hdown with hlive
  · exact ⟨⟨hc, hlive.1⟩, hlive.2.1, hlive.2.2, hdown⟩
  · omega

theorem parent_ne (h : Tree T) (hi : (T i).nlink = 0) (hc : (T c).Live) : (T c).parent ≠ i := by
  rintro rfl
  have := (h.parent_live hc).2
  omega

theorem count_of_nlink (h : Tree T) (hi : (T i).nlink = 0) (hd : (T d).type = .dir) : count i (T d).slots = 0 := by
  by_contra hne
  have := h.nlink_of_count hd (Nat.pos_of_ne_zero hne)
  omega

theorem count_dir_of_nlink (h : Tree T) (hi : (T i).nlink = 0) (hd : (T i).type = .dir) (hc : (T c).type = .dir) :
    count c (T i).slots = 0 := by
  by_contra hne
  obtain ⟨hlive, -, hp, -⟩ := h.child hd hc (Nat.pos_of_ne_zero hne)
  exact h.parent_ne hi hlive hp

theorem free (h : Tree T) (hi : (T i).nlink = 0) : Tree (update T i {}) := by
  have hroot : ROOTINO ≠ i := by
    rintro rfl
    have := h.root.1.2
    omega
  have hlive : ∀ c, (update T i {} c).Live → c ≠ i := by
    rintro c hc rfl
    simp [Live] at hc
  have hdir : ∀ c, (update T i {} c).type = .dir → c ≠ i := by
    rintro c hc rfl
    simp at hc
  constructor
  case formed =>
    intro j
    by_cases hj : j = i
    · subst hj
      simpa using ⟨by simp, by simp, by simp, by simp⟩
    · simpa [hj] using h.formed j
  case root => simpa [hroot] using h.root
  case up =>
    intro c hc
    have hne := hlive c hc
    rw [update_of_ne hne] at hc ⊢
    rw [update_of_ne (h.parent_ne hi hc)]
    exact h.up c hc
  case down =>
    intro c d hc hd
    have hc' := hdir c hc
    have hd' := hdir d hd
    simp only [update_of_ne hc', update_of_ne hd'] at hc hd ⊢
    exact h.down c d hc hd
  case links_le =>
    intro j
    have h1 := links_free T i j
    have h2 := h.links_le j
    by_cases hj : j = i
    · subst hj
      simp only [update_self]
      omega
    · rw [update_of_ne hj]
      omega
  case links_dir =>
    intro j hj
    have hne := hdir j hj
    rw [update_of_ne hne] at hj ⊢
    have hzero : (T i).gives j = 0 := by
      by_cases ht : (T i).type = .dir
      · exact gives_of_not_live hi (h.count_dir_of_nlink hi ht hj)
      · exact gives_of_type_ne ht j
    have h1 := links_free T i j
    have h2 := h.links_dir j hj
    omega
  case rank =>
    obtain ⟨depth, hdepth⟩ := h.rank
    refine ⟨depth, fun c hc hne => ?_⟩
    have hci := hlive c hc
    rw [update_of_ne hci] at hc ⊢
    exact hdepth c hc hne

end Tree

end EnhancedXv6.Fs
