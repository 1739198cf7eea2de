import EnhancedXv6.FsEdits

namespace EnhancedXv6.Fs

open Counting Inode

variable {N : ℕ} [NeZero N] {T T' : Table N} {c d i j : Fin N} {name : String}

theorem gives_add_gives_le (T : Table N) (hne : c ≠ d) (i : Fin N) : (T c).gives i + (T d).gives i ≤ links T i :=
  add_le_total (fun ip => ip.gives i) T hne.symm

namespace Tree

theorem parent_ne_empty (h : Tree T) (hi : (T i).type = .dir) (hr : i ≠ ROOTINO) (he : ∀ c, count c (T i).slots = 0)
    (hc : (T c).Live) : (T c).parent ≠ i := by
  intro hp
  by_cases hcr : c = ROOTINO
  · subst hcr
    exact hr (hp.symm.trans h.root.2)
  · have hdown := h.down c i hc.1 hi
    rw [he, if_pos ⟨hc.2, hcr, hp⟩] at hdown
    exact absurd hdown Nat.zero_ne_one

theorem gives_empty (h : Tree T) (hi : (T i).type = .dir) (hr : i ≠ ROOTINO) (he : ∀ c, count c (T i).slots = 0)
    (hd : (T d).type = .dir) : (T d).gives i = count i (T d).slots := by
  have hno : ¬ (0 < (T d).nlink ∧ (T d).parent = i) := fun hx => h.parent_ne_empty hi hr he ⟨hd, hx.1⟩ hx.2
  rw [gives, if_pos hd, if_neg hno, add_zero]

theorem links_empty (h : Tree T) (hi : (T i).type = .dir) (he : ∀ c, count c (T i).slots = 0)
    (hd : (T d).type = .dir) (hn : 0 < count i (T d).slots) : links T i = 1 := by
  obtain ⟨hlive, hr, hp, hone⟩ := h.child hd hi hn
  have hu := links_free T d i
  have hzero : links (Function.update T d {}) i = 0 := by
    refine total_eq_zero_iff.mpr (fun c => ?_)
    by_cases hcd : c = d
    · subst hcd
      rw [Function.update_self]
      exact gives_of_type_ne (by simp) i
    · rw [Function.update_of_ne hcd]
      by_cases hc : (T c).type = .dir
      · rw [h.gives_empty hi hr he hc, h.down i c hi hc, if_neg]
        rintro ⟨-, -, hx⟩
        exact hcd (hx.symm.trans hp)
      · exact gives_of_type_ne hc i
  rw [h.gives_empty hi hr he hd, hzero, hone] at hu
  omega

theorem two_le_nlink (h : Tree T) (hi : (T i).type = .dir) (he : ∀ c, count c (T i).slots = 0)
    (hd : (T d).type = .dir) (hn : 0 < count i (T d).slots) : 2 ≤ (T d).nlink := by
  obtain ⟨hlive, hr, hp, -⟩ := h.child hd hi hn
  have hdl : (T d).Live := hp ▸ h.parent_live hlive
  have hchild : 0 < (T i).gives d := hp ▸ gives_parent hlive
  have hself : ∃ x, x ≠ i ∧ 0 < (T x).gives d := by
    by_cases hdr : d = ROOTINO
    · subst hdr
      have hg := gives_parent h.root.1
      rw [h.root.2] at hg
      exact ⟨ROOTINO, hr.symm, hg⟩
    · refine ⟨(T d).parent, h.parent_ne_empty hi hr he hdl, ?_⟩
      have hdown := h.down d (T d).parent hd (h.up d hdl)
      rw [if_pos ⟨hdl.2, hdr, rfl⟩] at hdown
      have hle := count_le_gives (h.up d hdl) d
      omega
  obtain ⟨x, hxi, hx⟩ := hself
  have hsum := gives_add_gives_le T hxi d
  have hdir := h.links_dir d hd
  omega

end Tree

structure Removed (T T' : Table N) (d i : Fin N) : Prop where
  type : ∀ j, (T' j).type = (T j).type
  nlink : (T' i).nlink = 0
  nlink_of_ne : ∀ j, j ≠ i → (T' j).nlink + (if d = j then 1 else 0) = (T j).nlink
  live : ∀ j, j ≠ i → ((T' j).Live ↔ (T j).Live)
  parent : ∀ j, (T' j).parent = (T j).parent
  count : ∀ j c, count c (T' j).slots + (if d = j ∧ i = c then 1 else 0) = count c (T j).slots
  links : ∀ j, links T' j + (if i = j then 1 else 0) + (if d = j then 1 else 0) = links T j

namespace Removed

theorem unlinkIn (h : Tree T) (hd : (T d).type = .dir) (hi : (T i).type = .dir) (he : ∀ c, Fs.count c (T i).slots = 0)
    (h1 : name ≠ ".") (h2 : name ≠ "..") (hl : lookup name (T d).entries = some i) :
    Removed T (unlinkIn T d i name) d i := by
  have hn := count_lookup (h.lookup_slots hd h1 h2 hl)
  obtain ⟨hlive, hr, hp, hone⟩ := h.child hd hi hn
  have htwo := h.two_le_nlink hi he hd hn
  have hlink : (T i).nlink = 1 := (h.links_dir i hi).trans (h.links_empty hi he hd hn)
  have hne : d ≠ i := by
    rintro rfl
    rw [he] at hone
    exact absurd hone Nat.zero_ne_one
  have hpar : Fs.unlinkIn T d i name d = ((T d).dirclear name).setNlink ((T d).nlink - 1) := by
    rw [unlinkIn_parent hne, if_pos hi]
  have hchild : Fs.unlinkIn T d i name i = (T i).setNlink 0 := by rw [unlinkIn_child, hlink]
  have hcases : ∀ j, j = i ∨ j = d ∨ Fs.unlinkIn T d i name j = T j := by
    intro j
    by_cases hji : j = i
    · exact .inl hji
    · by_cases hjd : j = d
      · exact .inr (.inl hjd)
      · exact .inr (.inr (unlinkIn_of_ne hjd hji))
  constructor
  case type =>
    intro j
    rcases hcases j with rfl | rfl | hj
    · rw [hchild, setNlink_type]
    · rw [hpar, setNlink_type, dirclear_type]
    · rw [hj]
  case nlink => rw [hchild, setNlink_nlink]
  case nlink_of_ne =>
    intro j hji
    by_cases hjd : j = d
    · subst hjd
      rw [hpar, setNlink_nlink, if_pos rfl]
      omega
    · rw [unlinkIn_of_ne hjd hji, if_neg (Ne.symm hjd), add_zero]
  case live =>
    intro j hji
    by_cases hjd : j = d
    · subst hjd
      rw [hpar, Live, Live, setNlink_type, setNlink_nlink, dirclear_type]
      refine and_congr_right (fun _ => ?_)
      omega
    · rw [unlinkIn_of_ne hjd hji]
  case parent =>
    intro j
    rcases hcases j with rfl | rfl | hj
    · rw [hchild, setNlink_parent]
    · rw [hpar, setNlink_parent, dirclear_parent (h.isDir hd) h1 h2]
    · rw [hj]
  case count =>
    intro j c
    by_cases hjd : j = d
    · subst hjd
      rw [hpar, setNlink_slots]
      simpa using h.count_dirclear hd h1 h2 hl c
    · rw [if_neg (fun hx => hjd hx.1.symm), add_zero]
      rcases hcases j with rfl | rfl | hj
      · rw [hchild, setNlink_slots]
      · exact absurd rfl hjd
      · rw [hj]
  case links =>
    intro j
    have hg := gives_dirclear (h.isDir hd) hd h1 h2 (h.lookup_slots hd h1 h2 hl) j
    have hu := links_update T d (((T d).dirclear name).setNlink ((T d).nlink - 1)) j
    have hv := links_update (Function.update T d (((T d).dirclear name).setNlink ((T d).nlink - 1))) i
      ((T i).setNlink 0) j
    have hdead : ((T i).setNlink 0).gives j = 0 := gives_of_not_live rfl (he j)
    have hgone : (T i).gives j = if d = j then 1 else 0 := by
      simp [gives, hi, he, hlive.2, hp]
    rw [gives_setNlink _ (by rw [dirclear_nlink]; omega)] at hu
    rw [Function.update_of_ne hne.symm, hdead, hgone] at hv
    simp only [Fs.unlinkIn, if_pos hi, hlink, Nat.sub_self]
    omega

theorem tree (h : Removed T T' d i) (ht : Tree T) (hi : (T i).type = .dir) (he : ∀ c, Fs.count c (T i).slots = 0)
    (hd : (T d).type = .dir) (hn : 0 < Fs.count i (T d).slots) (hformed : ∀ j, (T' j).Formed j) : Tree T' := by
  obtain ⟨hlive, hr, hp, hone⟩ := ht.child hd hi hn
  have hlive' : ∀ c, (T' c).Live → c ≠ i ∧ (T c).Live := by
    intro c hc
    have hci : c ≠ i := by
      rintro rfl
      have := h.nlink
      have := hc.2
      omega
    exact ⟨hci, (h.live c hci).mp hc⟩
  have hexact : ∀ j, (T j).type = .dir → (T' j).nlink = Fs.links T' j := by
    intro j hj
    have hlinks := h.links j
    have hdir := ht.links_dir j hj
    by_cases hji : j = i
    · subst hji
      rw [if_pos rfl, ht.links_empty hi he hd hn] at hlinks
      have := h.nlink
      omega
    · have hnlink := h.nlink_of_ne j hji
      rw [if_neg (Ne.symm hji)] at hlinks
      omega
  constructor
  case formed => exact hformed
  case root => exact ⟨(h.live _ hr.symm).mpr ht.root.1, (h.parent _).trans ht.root.2⟩
  case up =>
    intro c hc
    obtain ⟨-, hc'⟩ := hlive' c hc
    rw [h.parent, h.type]
    exact ht.up c hc'
  case down =>
    intro c e hc he'
    rw [h.type] at hc he'
    have hcount := h.count e c
    have hdown := ht.down c e hc he'
    by_cases hci : c = i
    · subst hci
      rw [h.nlink, if_neg (by simp)]
      by_cases hde : d = e
      · subst hde
        simp only [and_self, if_true] at hcount
        omega
      · rw [if_neg (fun hx => hde hx.1)] at hcount
        rw [if_neg (fun hx => hde (hp.symm.trans hx.2.2))] at hdown
        omega
    · rw [if_neg (fun hx => hci hx.2.symm), add_zero] at hcount
      rw [hcount, hdown, h.parent]
      have hl := h.live c hci
      simp only [Live, h.type, hc, true_and] at hl
      exact if_congr (and_congr_left' hl.symm) rfl rfl
  case links_le =>
    intro j
    by_cases hj : (T j).type = .dir
    · exact (hexact j hj).ge
    · have hlinks := h.links j
      have hle := ht.links_le j
      have hji : j ≠ i := by rintro rfl; exact hj hi
      have hdj : d ≠ j := by rintro rfl; exact hj hd
      have hnlink := h.nlink_of_ne j hji
      rw [if_neg hdj] at hnlink
      omega
  case links_dir =>
    intro j hj
    rw [h.type] at hj
    exact hexact j hj
  case rank =>
    obtain ⟨depth, hdepth⟩ := ht.rank
    refine ⟨depth, fun c hc hcr => ?_⟩
    rw [h.parent]
    exact hdepth c (hlive' c hc).2 hcr

end Removed

theorem Tree.rmdir (h : Tree T) (hd : (T d).type = .dir) (hi : (T i).type = .dir)
    (he : ∀ c, count c (T i).slots = 0) (h1 : name ≠ ".") (h2 : name ≠ "..")
    (hl : lookup name (T d).entries = some i) : Tree (Fs.unlinkIn T d i name) := by
  have hn := count_lookup (h.lookup_slots hd h1 h2 hl)
  refine (Removed.unlinkIn h hd hi he h1 h2 hl).tree h hi he hd hn (fun j => ?_)
  by_cases hji : j = i
  · subst hji
    rw [unlinkIn_child]
    exact formed_setNlink (h.formed j) (by simp [hi])
  · by_cases hjd : j = d
    · subst hjd
      rw [unlinkIn_parent hji]
      exact formed_setNlink (formed_dirclear (h.formed j) hd h1 h2) (by simp [hd])
    · rw [unlinkIn_of_ne hjd hji]
      exact h.formed j

end EnhancedXv6.Fs
