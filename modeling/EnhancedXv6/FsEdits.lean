
import EnhancedXv6.FsTree

namespace EnhancedXv6.Fs

open Function (update update_of_ne update_self)
open Inode

variable {N : ℕ} [NeZero N]

def createIn (T : Table N) (d i : Fin N) (name : String) (type : Ftype) : Table N :=
  Function.update
    (Function.update T i
      { type := type, nlink := 1, entries := if type = .dir then [⟨i, "."⟩, ⟨d, ".."⟩] else [] }) d
    (((T d).setNlink (if type = .dir then (T d).nlink + 1 else (T d).nlink)).dirwrite name i)

def linkIn (T : Table N) (d i : Fin N) (name : String) : Table N :=
  Function.update (Function.update T i ((T i).setNlink ((T i).nlink + 1))) d ((T d).dirwrite name i)

def unlinkIn (T : Table N) (d i : Fin N) (name : String) : Table N :=
  Function.update
    (Function.update T d
      (((T d).dirclear name).setNlink (if (T i).type = .dir then (T d).nlink - 1 else (T d).nlink))) i
    ((T i).setNlink ((T i).nlink - 1))

section Edits

variable {T : Table N} {d i j : Fin N} {name : String} {type : Ftype}

theorem createIn_parent : createIn T d i name type d =
    ((T d).setNlink (if type = .dir then (T d).nlink + 1 else (T d).nlink)).dirwrite name i :=
  update_self ..

theorem createIn_child (h : d ≠ i) : createIn T d i name type i =
    { type := type, nlink := 1, entries := if type = .dir then [⟨i, "."⟩, ⟨d, ".."⟩] else [] } := by
  rw [createIn, update_of_ne h.symm, update_self]

theorem createIn_of_ne (hd : j ≠ d) (hi : j ≠ i) : createIn T d i name type j = T j := by
  rw [createIn, update_of_ne hd, update_of_ne hi]

theorem linkIn_parent : linkIn T d i name d = (T d).dirwrite name i := update_self ..

theorem linkIn_child (h : d ≠ i) : linkIn T d i name i = (T i).setNlink ((T i).nlink + 1) := by
  rw [linkIn, update_of_ne h.symm, update_self]

theorem linkIn_of_ne (hd : j ≠ d) (hi : j ≠ i) : linkIn T d i name j = T j := by
  rw [linkIn, update_of_ne hd, update_of_ne hi]

theorem unlinkIn_parent (h : d ≠ i) : unlinkIn T d i name d =
    ((T d).dirclear name).setNlink (if (T i).type = .dir then (T d).nlink - 1 else (T d).nlink) := by
  rw [unlinkIn, update_of_ne h, update_self]

theorem unlinkIn_child : unlinkIn T d i name i = (T i).setNlink ((T i).nlink - 1) := update_self ..

theorem unlinkIn_of_ne (hd : j ≠ d) (hi : j ≠ i) : unlinkIn T d i name j = T j := by
  rw [unlinkIn, update_of_ne hi, update_of_ne hd]

theorem linkIn_type (T : Table N) (d i : Fin N) (name : String) (j : Fin N) : (linkIn T d i name j).type = (T j).type := by
  by_cases hd : j = d
  · subst hd
    rw [linkIn_parent]
    rfl
  · by_cases hi : j = i
    · subst hi
      rw [linkIn_child (Ne.symm hd)]
      rfl
    · rw [linkIn_of_ne hd hi]

theorem unlinkIn_type (T : Table N) (d i : Fin N) (name : String) (j : Fin N) :
    (unlinkIn T d i name j).type = (T j).type := by
  by_cases hi : j = i
  · subst hi
    rw [unlinkIn_child]
    rfl
  · by_cases hd : j = d
    · subst hd
      rw [unlinkIn_parent hi]
      rfl
    · rw [unlinkIn_of_ne hd hi]

end Edits

namespace Inode

variable {ip : Inode N} {d i : Fin N} {name : String} {n : ℕ}

theorem gives_setNlink (ip : Inode N) (hn : 0 < n ↔ 0 < ip.nlink) (j : Fin N) :
    (ip.setNlink n).gives j = ip.gives j := by
  simp only [gives, setNlink_type, setNlink_nlink, setNlink_parent, setNlink_slots]
  by_cases h : 0 < n
  · simp [h, hn.mp h]
  · simp [h, (not_congr hn).mp h]

theorem formed_setNlink (h : ip.Formed d) (ht : ip.type ≠ .free) : (ip.setNlink n).Formed d :=
  ⟨fun hf => absurd hf ht, h.dir, h.plain, h.zero⟩

theorem IsDir.setNlink (h : ip.IsDir d) (n : ℕ) : (ip.setNlink n).IsDir d := h

theorem gives_dirwrite (h : ip.IsDir d) (ht : ip.type = .dir) (hd : d ≠ 0) (hi : i ≠ 0) (j : Fin N) :
    (ip.dirwrite name i).gives j = ip.gives j + if i = j then 1 else 0 := by
  have hc := count_addEntry ip.slots name hi j
  simp only [gives, dirwrite_type, ht, if_true, dirwrite_nlink, dirwrite_parent h hd, dirwrite_slots h hd]
  omega

theorem formed_dirwrite (h : ip.Formed d) (ht : ip.type = .dir) (h1 : name ≠ ".") (h2 : name ≠ "..") :
    (ip.dirwrite name i).Formed d := by
  have hdir := h.dir ht
  have hd := h.zero (by simp [ht])
  refine ⟨by simp [ht], fun _ => ⟨?_, ?_, ?_⟩, by simp [ht], h.zero⟩
  · rw [dirwrite_parent hdir hd, dirwrite_slots hdir hd, dirwrite_entries hdir hd]
  · rw [dirwrite_parent hdir hd]
    exact hdir.2.1
  · intro e he h0
    rw [dirwrite_slots hdir hd] at he
    rcases mem_addEntry he with rfl | he
    · exact ⟨h1, h2⟩
    · exact hdir.2.2 e he h0

theorem gives_dirclear (h : ip.IsDir d) (ht : ip.type = .dir) (h1 : name ≠ ".") (h2 : name ≠ "..")
    (hi : lookup name ip.slots = some i) (j : Fin N) :
    (ip.dirclear name).gives j + (if i = j then 1 else 0) = ip.gives j := by
  have hc := count_clearEntry hi j
  simp only [gives, dirclear_type, ht, if_true, dirclear_nlink, dirclear_parent h h1 h2, dirclear_slots h h1 h2]
  omega

theorem formed_dirclear (h : ip.Formed d) (ht : ip.type = .dir) (h1 : name ≠ ".") (h2 : name ≠ "..") :
    (ip.dirclear name).Formed d := by
  have hdir := h.dir ht
  refine ⟨by simp [ht], fun _ => ⟨?_, ?_, ?_⟩, by simp [ht], h.zero⟩
  · rw [dirclear_parent hdir h1 h2, dirclear_slots hdir h1 h2, dirclear_entries hdir h1 h2]
  · rw [dirclear_parent hdir h1 h2]
    exact hdir.2.1
  · intro e he h0
    rw [dirclear_slots hdir h1 h2] at he
    exact hdir.2.2 e (mem_clearEntry he h0) h0

end Inode

structure SameDirs (T T' : Table N) : Prop where
  type : ∀ j, (T' j).type = .dir ↔ (T j).type = .dir
  nlink : ∀ j, (T j).type = .dir → (T' j).nlink = (T j).nlink
  parent : ∀ j, (T j).type = .dir → (T' j).parent = (T j).parent
  count : ∀ j c, (T j).type = .dir → (T c).type = .dir → count c (T' j).slots = count c (T j).slots

namespace SameDirs

variable {T T' : Table N}

theorem trans {T'' : Table N} (h : SameDirs T T') (h' : SameDirs T' T'') : SameDirs T T'' where
  type j := (h'.type j).trans (h.type j)
  nlink j hj := (h'.nlink j ((h.type j).mpr hj)).trans (h.nlink j hj)
  parent j hj := (h'.parent j ((h.type j).mpr hj)).trans (h.parent j hj)
  count j c hj hc := (h'.count j c ((h.type j).mpr hj) ((h.type c).mpr hc)).trans (h.count j c hj hc)

theorem live (h : SameDirs T T') (c : Fin N) : (T' c).Live ↔ (T c).Live := by
  constructor
  · rintro ⟨ht, hn⟩
    have ht' := (h.type c).mp ht
    exact ⟨ht', h.nlink c ht' ▸ hn⟩
  · rintro ⟨ht, hn⟩
    exact ⟨(h.type c).mpr ht, (h.nlink c ht).symm ▸ hn⟩

theorem tree (h : SameDirs T T') (ht : Tree T) (hformed : ∀ i, (T' i).Formed i)
    (hle : ∀ i, (T' i).type ≠ .dir → links T' i ≤ (T' i).nlink)
    (hdir : ∀ i, (T i).type = .dir → links T' i = links T i) : Tree T' := by
  have hexact : ∀ i, (T' i).type = .dir → (T' i).nlink = links T' i := by
    intro i hi
    have hi' := (h.type i).mp hi
    rw [h.nlink i hi', hdir i hi']
    exact ht.links_dir i hi'
  constructor
  case formed => exact hformed
  case root =>
    refine ⟨(h.live _).mpr ht.root.1, ?_⟩
    rw [h.parent _ ht.root.1.1]
    exact ht.root.2
  case up =>
    intro c hc
    have hc' := (h.live c).mp hc
    rw [h.type, h.parent c hc'.1]
    exact ht.up c hc'
  case down =>
    intro c d hc hd
    have hc' := (h.type c).mp hc
    have hd' := (h.type d).mp hd
    rw [h.count d c hd' hc', h.nlink c hc', h.parent c hc']
    exact ht.down c d hc' hd'
  case links_le =>
    intro i
    by_cases hi : (T' i).type = .dir
    · exact (hexact i hi).ge
    · exact hle i hi
  case links_dir => exact hexact
  case rank =>
    obtain ⟨depth, hdepth⟩ := ht.rank
    refine ⟨depth, fun c hc hne => ?_⟩
    have hc' := (h.live c).mp hc
    rw [h.parent c hc'.1]
    exact hdepth c hc' hne

theorem of_pair {d i : Fin N} (hi : (T i).type ≠ .dir) (hi' : (T' i).type ≠ .dir)
    (hother : ∀ j, j ≠ d → j ≠ i → T' j = T j) (htype : (T' d).type = (T d).type) (hnlink : (T' d).nlink = (T d).nlink)
    (hparent : (T' d).parent = (T d).parent)
    (hcount : ∀ c, (T c).type = .dir → Fs.count c (T' d).slots = Fs.count c (T d).slots) : SameDirs T T' := by
  have hcases : ∀ j, j = i ∨ j = d ∨ T' j = T j := by
    intro j
    by_cases hji : j = i
    · exact .inl hji
    · by_cases hjd : j = d
      · exact .inr (.inl hjd)
      · exact .inr (.inr (hother j hjd hji))
  constructor
  · intro j
    rcases hcases j with rfl | rfl | hj
    · simp [hi, hi']
    · rw [htype]
    · rw [hj]
  · intro j ht
    rcases hcases j with rfl | rfl | hj
    · exact absurd ht hi
    · exact hnlink
    · rw [hj]
  · intro j ht
    rcases hcases j with rfl | rfl | hj
    · exact absurd ht hi
    · exact hparent
    · rw [hj]
  · intro j c ht hc
    rcases hcases j with rfl | rfl | hj
    · exact absurd ht hi
    · exact hcount c hc
    · rw [hj]

end SameDirs

namespace Tree

variable {T : Table N} {d i : Fin N} {name : String} {type : Ftype}

theorem isDir (h : Tree T) (hd : (T d).type = .dir) : (T d).IsDir d := (h.formed d).dir hd

theorem ne_zero (h : Tree T) (hd : (T d).type = .dir) : d ≠ 0 := (h.formed d).zero (by simp [hd])

theorem links_linkIn (h : Tree T) (hd : (T d).type = .dir) (hi : (T i).type ≠ .dir) (hi0 : i ≠ 0) (j : Fin N) :
    links (linkIn T d i name) j = links T j + if i = j then 1 else 0 := by
  have hne : d ≠ i := by rintro rfl; exact hi hd
  have h1 := links_update T i ((T i).setNlink ((T i).nlink + 1)) j
  have h2 := links_update (update T i ((T i).setNlink ((T i).nlink + 1))) d ((T d).dirwrite name i) j
  rw [gives_of_type_ne hi, gives_of_type_ne (by exact hi)] at h1
  rw [update_of_ne hne, gives_dirwrite (h.isDir hd) hd (h.ne_zero hd) hi0] at h2
  unfold linkIn
  omega

theorem count_dirwrite (h : Tree T) (hd : (T d).type = .dir) (hi : i ≠ 0) (name : String) (c : Fin N) :
    count c ((T d).dirwrite name i).slots = count c (T d).slots + if i = c then 1 else 0 := by
  rw [dirwrite_slots (h.isDir hd) (h.ne_zero hd)]
  exact count_addEntry (T d).slots name hi c

theorem sameDirs_linkIn (h : Tree T) (hd : (T d).type = .dir) (hi : (T i).type ≠ .dir) (hi0 : i ≠ 0) :
    SameDirs T (Fs.linkIn T d i name) := by
  have hne : d ≠ i := by rintro rfl; exact hi hd
  refine .of_pair hi ?_ (fun j => linkIn_of_ne) ?_ ?_ ?_ (fun c hc => ?_)
  · rwa [linkIn_child hne]
  · rw [linkIn_parent, dirwrite_type]
  · rw [linkIn_parent, dirwrite_nlink]
  · rw [linkIn_parent, dirwrite_parent (h.isDir hd) (h.ne_zero hd)]
  · rw [linkIn_parent, h.count_dirwrite hd hi0, if_neg (by rintro rfl; exact hi hc), add_zero]

theorem linkIn (h : Tree T) (hd : (T d).type = .dir) (hi : (T i).type ≠ .dir) (hf : (T i).type ≠ .free)
    (h1 : name ≠ ".") (h2 : name ≠ "..") : Tree (linkIn T d i name) := by
  have hne : d ≠ i := by rintro rfl; exact hi hd
  have hi0 := (h.formed i).zero hf
  have hlinks : ∀ j, links (Fs.linkIn T d i name) j = _ := h.links_linkIn hd hi hi0
  apply (h.sameDirs_linkIn hd hi hi0).tree h
  · intro j
    by_cases hjd : j = d
    · subst hjd
      rw [linkIn_parent]
      exact formed_dirwrite (h.formed j) hd h1 h2
    · by_cases hji : j = i
      · subst hji
        rw [linkIn_child hne]
        exact formed_setNlink (h.formed j) hf
      · rw [linkIn_of_ne hjd hji]
        exact h.formed j
  · intro j hj
    have hle := h.links_le j
    rw [hlinks]
    by_cases hij : i = j
    · subst hij
      rw [linkIn_child hne, setNlink_nlink, if_pos rfl]
      omega
    · have hjd : j ≠ d := by
        rintro rfl
        exact hj (by rwa [linkIn_parent])
      rw [linkIn_of_ne hjd (Ne.symm hij), if_neg hij]
      exact hle
  · intro j hj
    rw [hlinks, if_neg (by rintro rfl; exact hi hj), add_zero]

theorem sameDirs_alloc (h : Tree T) (hf : (T i).type = .free) (ht : type ≠ .dir) :
    SameDirs T (update T i { type := type }) := by
  have hroot : ROOTINO ≠ i := by
    rintro rfl
    simp [h.root.1.1] at hf
  refine .of_pair (d := ROOTINO) (i := i) (by simp [hf]) (by simpa using ht) ?_ ?_ ?_ ?_ ?_
  · intro j _ hj
    exact update_of_ne hj ..
  all_goals simp [hroot]

theorem alloc (h : Tree T) (hf : (T i).type = .free) (hi : i ≠ 0) (ht : type ≠ .dir) (hfree : type ≠ .free) :
    Tree (update T i { type := type }) ∧
      ∀ j, links (update T i { type := type }) j = links T j := by
  have hlinks : ∀ j, links (update T i { type := type }) j = links T j := by
    intro j
    have hl := links_update T i { type := type } j
    rwa [gives_of_type_ne (by simp [hf]), gives_of_type_ne ht] at hl
  refine ⟨(h.sameDirs_alloc hf ht).tree h ?_ ?_ (fun j _ => hlinks j), hlinks⟩
  · intro j
    by_cases hj : j = i
    · subst hj
      rw [update_self]
      exact ⟨fun hf => absurd hf hfree, fun hd => absurd hd ht, fun _ => rfl, fun _ => hi⟩
    · rw [update_of_ne hj]
      exact h.formed j
  · intro j _
    rw [hlinks]
    have hle := h.links_le j
    by_cases hj : j = i
    · subst hj
      rw [(h.formed j).free hf] at hle
      omega
    · rwa [update_of_ne hj]

theorem createIn_eq_linkIn (hne : d ≠ i) (ht : type ≠ .dir) :
    createIn T d i name type = Fs.linkIn (update T i { type := type }) d i name := by
  simp [createIn, Fs.linkIn, hne, ht, setNlink]

theorem createIn (h : Tree T) (hd : (T d).type = .dir) (hf : (T i).type = .free) (hi : i ≠ 0) (ht : type ≠ .dir)
    (hfree : type ≠ .free) (h1 : name ≠ ".") (h2 : name ≠ "..") : Tree (createIn T d i name type) := by
  have hne : d ≠ i := by rintro rfl; simp [hd] at hf
  rw [createIn_eq_linkIn hne ht]
  exact (h.alloc hf hi ht hfree).1.linkIn (by simpa [hne] using hd) (by simpa using ht) (by simpa using hfree) h1 h2

theorem sameDirs_createIn (h : Tree T) (hd : (T d).type = .dir) (hf : (T i).type = .free) (hi : i ≠ 0)
    (ht : type ≠ .dir) (hfree : type ≠ .free) : SameDirs T (Fs.createIn T d i name type) := by
  have hne : d ≠ i := by rintro rfl; simp [hd] at hf
  rw [createIn_eq_linkIn hne ht]
  exact (h.sameDirs_alloc hf ht).trans
    ((h.alloc hf hi ht hfree).1.sameDirs_linkIn (by simpa [hne] using hd) (by simpa using ht) hi)

theorem lookup_slots (h : Tree T) (hd : (T d).type = .dir) (h1 : name ≠ ".") (h2 : name ≠ "..")
    (hl : lookup name (T d).entries = some i) : lookup name (T d).slots = some i :=
  (h.isDir hd).lookup_of_ne h1 h2 ▸ hl

theorem count_dirclear (h : Tree T) (hd : (T d).type = .dir) (h1 : name ≠ ".") (h2 : name ≠ "..")
    (hl : lookup name (T d).entries = some i) (c : Fin N) :
    count c ((T d).dirclear name).slots + (if i = c then 1 else 0) = count c (T d).slots := by
  rw [dirclear_slots (h.isDir hd) h1 h2]
  exact count_clearEntry (h.lookup_slots hd h1 h2 hl) c

theorem links_unlinkIn (h : Tree T) (hd : (T d).type = .dir) (hi : (T i).type ≠ .dir) (h1 : name ≠ ".")
    (h2 : name ≠ "..") (hl : lookup name (T d).entries = some i) (j : Fin N) :
    links (unlinkIn T d i name) j + (if i = j then 1 else 0) = links T j := by
  have hne : d ≠ i := by rintro rfl; exact hi hd
  have hg := gives_dirclear (h.isDir hd) hd h1 h2 (h.lookup_slots hd h1 h2 hl) j
  have hu := links_update T d (((T d).dirclear name).setNlink (if (T i).type = .dir then (T d).nlink - 1 else (T d).nlink)) j
  have hv := links_update (update T d (((T d).dirclear name).setNlink
    (if (T i).type = .dir then (T d).nlink - 1 else (T d).nlink))) i ((T i).setNlink ((T i).nlink - 1)) j
  rw [gives_setNlink _ (by simp [hi])] at hu
  rw [update_of_ne hne.symm, gives_of_type_ne hi, gives_of_type_ne (by exact hi)] at hv
  unfold unlinkIn
  omega

theorem sameDirs_unlinkIn (h : Tree T) (hd : (T d).type = .dir) (hi : (T i).type ≠ .dir) (h1 : name ≠ ".")
    (h2 : name ≠ "..") (hl : lookup name (T d).entries = some i) : SameDirs T (Fs.unlinkIn T d i name) := by
  have hne : d ≠ i := by rintro rfl; exact hi hd
  refine .of_pair hi ?_ (fun j => unlinkIn_of_ne) ?_ ?_ ?_ (fun c hc => ?_)
  · rwa [unlinkIn_child]
  · rw [unlinkIn_parent hne, setNlink_type, dirclear_type]
  · rw [unlinkIn_parent hne, setNlink_nlink, if_neg hi]
  · rw [unlinkIn_parent hne, setNlink_parent, dirclear_parent (h.isDir hd) h1 h2]
  · have hic : i ≠ c := by rintro rfl; exact hi hc
    rw [unlinkIn_parent hne, setNlink_slots]
    simpa [hic] using h.count_dirclear hd h1 h2 hl c

theorem unlinkIn (h : Tree T) (hd : (T d).type = .dir) (hi : (T i).type ≠ .dir) (h1 : name ≠ ".") (h2 : name ≠ "..")
    (hl : lookup name (T d).entries = some i) : Tree (unlinkIn T d i name) := by
  have hne : d ≠ i := by rintro rfl; exact hi hd
  have hlinks := h.links_unlinkIn hd hi h1 h2 hl
  have hn := h.nlink_of_count hd (count_lookup (h.lookup_slots hd h1 h2 hl))
  apply (h.sameDirs_unlinkIn hd hi h1 h2 hl).tree h
  · intro j
    by_cases hjd : j = d
    · subst hjd
      rw [unlinkIn_parent hne]
      exact formed_setNlink (formed_dirclear (h.formed j) hd h1 h2) (by simp [hd])
    · by_cases hji : j = i
      · subst hji
        rw [unlinkIn_child]
        exact formed_setNlink (h.formed j) (h.type_of_nlink hn)
      · rw [unlinkIn_of_ne hjd hji]
        exact h.formed j
  · intro j hj
    have hle := h.links_le j
    have hj' := hlinks j
    by_cases hij : i = j
    · subst hij
      rw [unlinkIn_child, setNlink_nlink]
      rw [if_pos rfl] at hj'
      omega
    · have hjd : j ≠ d := by
        rintro rfl
        exact hj (by rwa [unlinkIn_parent hne])
      rw [unlinkIn_of_ne hjd (Ne.symm hij)]
      omega
  · intro j hj
    have hij : i ≠ j := by rintro rfl; exact hi hj
    simpa [hij] using hlinks j

theorem links_mkdir (h : Tree T) (hd : (T d).Live) (hf : (T i).type = .free) (hi : i ≠ 0) (j : Fin N) :
    links (Fs.createIn T d i name .dir) j = links T j + (if i = j then 1 else 0) + if d = j then 1 else 0 := by
  have hne : d ≠ i := by rintro rfl; simp [hd.1] at hf
  have hu := links_update T i { type := .dir, nlink := 1, entries := [⟨i, "."⟩, ⟨d, ".."⟩] } j
  have hv := links_update (update T i { type := .dir, nlink := 1, entries := [⟨i, "."⟩, ⟨d, ".."⟩] }) d
    (((T d).setNlink ((T d).nlink + 1)).dirwrite name i) j
  have hnew : ({ type := .dir, nlink := 1, entries := [⟨i, "."⟩, ⟨d, ".."⟩] } : Inode N).gives j =
      if d = j then 1 else 0 := by simp [gives, slots, parent, count_nil]
  rw [gives_of_type_ne (by simp [hf]), hnew] at hu
  rw [update_of_ne hne, gives_dirwrite ((h.isDir hd.1).setNlink ((T d).nlink + 1)) hd.1 (h.ne_zero hd.1) hi,
    gives_setNlink _ (by simp [hd.2])] at hv
  simp only [Fs.createIn, if_true]
  omega

end Tree

structure Made (T T' : Table N) (d i : Fin N) : Prop where
  child : (T' i).Live ∧ (T' i).nlink = 1 ∧ (T' i).parent = d ∧ (T' i).slots = []
  type : ∀ j, j ≠ i → (T' j).type = (T j).type
  nlink : ∀ j, j ≠ i → (T' j).nlink = (T j).nlink + if d = j then 1 else 0
  parent : ∀ j, j ≠ i → (T' j).parent = (T j).parent
  count : ∀ j c, j ≠ i → count c (T' j).slots = count c (T j).slots + if d = j ∧ i = c then 1 else 0
  links : ∀ j, links T' j = links T j + (if i = j then 1 else 0) + if d = j then 1 else 0

namespace Made

variable {T T' : Table N} {d i : Fin N} {name : String}

theorem createIn (h : Tree T) (hd : (T d).Live) (hf : (T i).type = .free) (hi : i ≠ 0) :
    Made T (createIn T d i name .dir) d i := by
  have hne : d ≠ i := by rintro rfl; simp [hd.1] at hf
  have hdir := h.isDir hd.1
  have hd0 := h.ne_zero hd.1
  constructor
  case child =>
    rw [createIn_child hne]
    exact ⟨⟨rfl, Nat.one_pos⟩, rfl, rfl, rfl⟩
  case type =>
    intro j hj
    by_cases hjd : j = d
    · subst hjd
      rw [createIn_parent, dirwrite_type, setNlink_type]
    · rw [createIn_of_ne hjd hj]
  case nlink =>
    intro j hj
    by_cases hjd : j = d
    · subst hjd
      rw [createIn_parent, dirwrite_nlink, setNlink_nlink, if_pos rfl, if_pos rfl]
    · rw [createIn_of_ne hjd hj, if_neg (Ne.symm hjd), add_zero]
  case parent =>
    intro j hj
    by_cases hjd : j = d
    · subst hjd
      rw [createIn_parent, dirwrite_parent (hdir.setNlink _) hd0, setNlink_parent]
    · rw [createIn_of_ne hjd hj]
  case count =>
    intro j c hj
    by_cases hjd : j = d
    · subst hjd
      rw [createIn_parent, dirwrite_slots (hdir.setNlink _) hd0, setNlink_slots, count_addEntry _ _ hi]
      simp
    · rw [createIn_of_ne hjd hj, if_neg (fun hc => hjd hc.1.symm), add_zero]
  case links => exact h.links_mkdir hd hf hi

theorem live (h : Made T T' d i) (hd : (T d).Live) {j : Fin N} (hj : j ≠ i) : (T' j).Live ↔ (T j).Live := by
  rw [Live, Live, h.type j hj, h.nlink j hj]
  refine and_congr_right (fun _ => ?_)
  split_ifs with hdj
  · subst hdj
    simp [hd.2]
  · rfl

theorem down (h : Made T T' d i) (ht : Tree T) (hd : (T d).Live) (hn : (T i).nlink = 0) (hroot : ROOTINO ≠ i)
    (hne : d ≠ i) (c e : Fin N) (hc : (T' c).type = .dir) (he : (T' e).type = .dir) :
    Fs.count c (T' e).slots = if 0 < (T' c).nlink ∧ c ≠ ROOTINO ∧ (T' c).parent = e then 1 else 0 := by
  obtain ⟨hlive, hone, hparent, hslots⟩ := h.child
  by_cases hei : e = i
  · subst hei
    rw [hslots, if_neg]
    · rfl
    · rintro ⟨hcn, -, hcp⟩
      by_cases hci : c = e
      · subst hci
        exact hne (hparent ▸ hcp)
      · rw [h.parent c hci] at hcp
        exact ht.parent_ne hn ((h.live hd hci).mp ⟨hc, hcn⟩) hcp
  · rw [h.type e hei] at he
    by_cases hci : c = i
    · subst hci
      rw [h.count e c hei, ht.count_of_nlink hn he, hparent, hone]
      simp [hroot.symm]
    · have hno : ¬ (d = e ∧ i = c) := fun hx => hci hx.2.symm
      have hl := h.live hd hci
      rw [Live, Live, hc, ← h.type c hci, hc] at hl
      rw [h.type c hci] at hc
      rw [h.count e c hei, if_neg hno, add_zero, ht.down c e hc he, h.parent c hci]
      exact if_congr (and_congr_left' (by simpa using hl.symm)) rfl rfl

theorem tree (h : Made T T' d i) (ht : Tree T) (hd : (T d).Live) (hf : (T i).type = .free)
    (hformed : ∀ j, (T' j).Formed j) : Tree T' := by
  obtain ⟨hlive, hone, hparent, hslots⟩ := h.child
  have hne : d ≠ i := by rintro rfl; simp [hd.1] at hf
  have hn := (ht.formed i).free hf
  have hroot : ROOTINO ≠ i := by
    rintro rfl
    simp [ht.root.1.1] at hf
  have hexact : Fs.links T' i = (T' i).nlink := by
    have hle := ht.links_le i
    rw [h.links, hone, if_pos rfl, if_neg hne]
    omega
  constructor
  case formed => exact hformed
  case root => exact ⟨(h.live hd hroot).mpr ht.root.1, (h.parent _ hroot).trans ht.root.2⟩
  case up =>
    intro c hc
    by_cases hci : c = i
    · subst hci
      rw [hparent, h.type d hne]
      exact hd.1
    · have hc' := (h.live hd hci).mp hc
      rw [h.parent c hci, h.type _ (ht.parent_ne hn hc')]
      exact ht.up c hc'
  case down => exact h.down ht hd hn hroot hne
  case links_le =>
    intro j
    by_cases hji : j = i
    · exact hji ▸ hexact.le
    · have hle := ht.links_le j
      rw [h.links, h.nlink j hji, if_neg (Ne.symm hji)]
      omega
  case links_dir =>
    intro j hj
    by_cases hji : j = i
    · exact hji ▸ hexact.symm
    · rw [h.type j hji] at hj
      rw [h.links, h.nlink j hji, if_neg (Ne.symm hji), ht.links_dir j hj, add_zero]
  case rank =>
    obtain ⟨depth, hdepth⟩ := ht.rank
    refine ⟨update depth i (depth d + 1), fun c hc hcr => ?_⟩
    by_cases hci : c = i
    · subst hci
      rw [hparent, update_self, update_of_ne hne]
      exact Nat.lt_succ_self _
    · have hc' := (h.live hd hci).mp hc
      rw [h.parent c hci, update_of_ne hci, update_of_ne (ht.parent_ne hn hc')]
      exact hdepth c hc' hcr

end Made

theorem Tree.mkdir {T : Table N} {d i : Fin N} {name : String} (h : Tree T) (hd : (T d).Live)
    (hf : (T i).type = .free) (hi : i ≠ 0) (h1 : name ≠ ".") (h2 : name ≠ "..") :
    Tree (Fs.createIn T d i name .dir) := by
  have hne : d ≠ i := by rintro rfl; simp [hd.1] at hf
  refine (Made.createIn h hd hf hi).tree h hd hf (fun j => ?_)
  by_cases hjd : j = d
  · subst hjd
    rw [createIn_parent]
    exact formed_dirwrite (formed_setNlink (h.formed j) (by simp [hd.1])) hd.1 h1 h2
  · by_cases hji : j = i
    · subst hji
      rw [createIn_child hne]
      exact ⟨by simp, fun _ => ⟨rfl, h.ne_zero hd.1, by simp [slots]⟩, by simp, fun _ => hi⟩
    · rw [createIn_of_ne hjd hji]
      exact h.formed j

end EnhancedXv6.Fs
