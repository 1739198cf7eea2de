import EnhancedXv6.FsRmdir

namespace EnhancedXv6.Fs

open Inode

variable {N : ℕ} [NeZero N] {T T' : Table N} {d i j : Fin N} {name : String} {type : Ftype}

def Anchored (T : Table N) : Prop := ∀ c, (T c).type = .dir → (T (T c).parent).Live

namespace Anchored

theorem sameDirs (h : Anchored T) (hs : SameDirs T T') : Anchored T' := by
  intro c hc
  have hc' := (hs.type c).mp hc
  rw [hs.parent c hc', hs.live]
  exact h c hc'

theorem free (h : Anchored T) (hi : (T i).nlink = 0) : Anchored (Function.update T i {}) := by
  intro c hc
  have hci : c ≠ i := by
    rintro rfl
    simp at hc
  rw [Function.update_of_ne hci] at hc ⊢
  have hlive := h c hc
  have hpi : (T c).parent ≠ i := by
    rintro rfl
    have := hlive.2
    omega
  rwa [Function.update_of_ne hpi]

theorem made (h : Anchored T) (hm : Made T T' d i) (hd : (T d).Live) (hf : (T i).type = .free) : Anchored T' := by
  have hnot : ∀ {j}, (T j).Live → j ≠ i := by
    rintro j hj rfl
    simp [hj.1] at hf
  intro c hc
  by_cases hci : c = i
  · subst hci
    rw [hm.child.2.2.1, hm.live hd (hnot hd)]
    exact hd
  · rw [hm.type c hci] at hc
    have hlive := h c hc
    rwa [hm.parent c hci, hm.live hd (hnot hlive)]

theorem removed (h : Anchored T) (hr : Removed T T' d i) (hc : ∀ c, (T c).type = .dir → (T c).parent ≠ i) :
    Anchored T' := by
  intro c hcd
  rw [hr.type] at hcd
  rw [hr.parent, hr.live _ (hc c hcd)]
  exact h c hcd

theorem closed (h : Anchored T) (ht : Tree T) {e : Dirent N} (hd : (T d).type = .dir) (he : e ∈ (T d).entries)
    (h0 : e.inum ≠ 0) : (T e.inum).type ≠ .free := by
  rw [(ht.isDir hd).1] at he
  rcases List.mem_cons.mp he with rfl | he
  · simp [hd]
  · rcases List.mem_cons.mp he with rfl | he
    · simp [(h d hd).1]
    · exact ht.type_of_nlink (ht.nlink_of_count hd (count_pos_iff.mpr ⟨h0, e, he, rfl⟩))

end Anchored

structure Exact (T : Table N) : Prop where
  nlink : ∀ i, (T i).nlink = links T i
  empty : ∀ d, (T d).type = .dir → (T d).nlink = 0 → ∀ i, count i (T d).slots = 0

namespace Exact

theorem free (h : Exact T) (hi : (T i).nlink = 0) : Exact (Function.update T i {}) := by
  have hzero : ∀ j, (T i).gives j = 0 := by
    intro j
    by_cases ht : (T i).type = .dir
    · exact gives_of_not_live hi (h.empty i ht hi j)
    · exact gives_of_type_ne ht j
  constructor
  · intro j
    have hl := links_free T i j
    rw [hzero, add_zero] at hl
    rw [hl, ← h.nlink]
    by_cases hj : j = i
    · subst hj
      rw [Function.update_self, hi]
    · rw [Function.update_of_ne hj]
  · intro d hd hn c
    have hdi : d ≠ i := by
      rintro rfl
      simp at hd
    rw [Function.update_of_ne hdi] at hd hn ⊢
    exact h.empty d hd hn c

theorem linkIn (h : Exact T) (ht : Tree T) (hd : (T d).Live) (hi : (T i).type ≠ .dir) (hi0 : i ≠ 0) :
    Exact (linkIn T d i name) := by
  have hne : d ≠ i := by rintro rfl; exact hi hd.1
  constructor
  · intro j
    rw [ht.links_linkIn hd.1 hi hi0, ← h.nlink]
    by_cases hjd : j = d
    · subst hjd
      rw [linkIn_parent, dirwrite_nlink, if_neg (Ne.symm hne), add_zero]
    · by_cases hji : j = i
      · subst hji
        rw [linkIn_child hne, setNlink_nlink, if_pos rfl]
      · rw [linkIn_of_ne hjd hji, if_neg (Ne.symm hji), add_zero]
  · intro j hj hn c
    have hsame : SameDirs T (Fs.linkIn T d i name) := ht.sameDirs_linkIn hd.1 hi hi0
    have hj' := (hsame.type j).mp hj
    have hjd : j ≠ d := by
      rintro rfl
      rw [hsame.nlink j hj'] at hn
      have := hd.2
      omega
    have hji : j ≠ i := by rintro rfl; exact hi hj'
    rw [linkIn_of_ne hjd hji] at hn ⊢
    exact h.empty j hj' hn c

theorem createIn (h : Exact T) (ht : Tree T) (hd : (T d).Live) (hf : (T i).type = .free) (hi : i ≠ 0)
    (hdir : type ≠ .dir) (hfree : type ≠ .free) : Exact (createIn T d i name type) := by
  have hne : d ≠ i := by rintro rfl; simp [hd.1] at hf
  obtain ⟨htree, hlinks⟩ := ht.alloc hf hi hdir hfree
  have hexact : Exact (Function.update T i { type := type }) := by
    constructor
    · intro j
      rw [hlinks, ← h.nlink]
      by_cases hj : j = i
      · subst hj
        rw [Function.update_self, (ht.formed j).free hf]
      · rw [Function.update_of_ne hj]
    · intro j hj hn c
      have hji : j ≠ i := by
        rintro rfl
        simp [hdir] at hj
      rw [Function.update_of_ne hji] at hj hn ⊢
      exact h.empty j hj hn c
  rw [Tree.createIn_eq_linkIn hne hdir]
  exact hexact.linkIn htree (by simpa [hne] using hd) (by simpa using hdir) hi

theorem made (h : Exact T) (ht : Tree T) (hm : Made T T' d i) (hd : (T d).Live) (hf : (T i).type = .free) :
    Exact T' := by
  have hne : d ≠ i := by rintro rfl; simp [hd.1] at hf
  constructor
  · intro j
    rw [hm.links, ← h.nlink]
    by_cases hji : j = i
    · subst hji
      rw [hm.child.2.1, (ht.formed j).free hf, if_pos rfl, if_neg hne]
    · rw [hm.nlink j hji, if_neg (Ne.symm hji), add_zero]
  · intro j hj hn c
    have hji : j ≠ i := by
      rintro rfl
      rw [hm.child.2.1] at hn
      exact absurd hn Nat.one_ne_zero
    have hjd : d ≠ j := by
      rintro rfl
      rw [hm.nlink d hji] at hn
      have := hd.2
      omega
    rw [hm.nlink j hji, if_neg hjd] at hn
    rw [hm.type j hji] at hj
    rw [hm.count j c hji, if_neg (fun hx => hjd hx.1), h.empty j hj hn]

theorem unlinkIn (h : Exact T) (ht : Tree T) (hd : (T d).type = .dir) (hi : (T i).type ≠ .dir) (h1 : name ≠ ".")
    (h2 : name ≠ "..") (hl : lookup name (T d).entries = some i) : Exact (unlinkIn T d i name) := by
  have hne : d ≠ i := by rintro rfl; exact hi hd
  have hcount := count_lookup (ht.lookup_slots hd h1 h2 hl)
  have hpos := ht.nlink_of_count hd hcount
  constructor
  · intro j
    have hlinks := ht.links_unlinkIn hd hi h1 h2 hl j
    rw [← h.nlink] at hlinks
    by_cases hjd : j = d
    · subst hjd
      rw [if_neg (Ne.symm hne)] at hlinks
      rw [unlinkIn_parent hne, setNlink_nlink, if_neg hi]
      omega
    · by_cases hji : j = i
      · subst hji
        rw [if_pos rfl] at hlinks
        rw [unlinkIn_child, setNlink_nlink]
        omega
      · rw [if_neg (Ne.symm hji)] at hlinks
        rw [unlinkIn_of_ne hjd hji]
        omega
  · intro j hj hn c
    have hsame := ht.sameDirs_unlinkIn hd hi h1 h2 hl
    have hj' := (hsame.type j).mp hj
    rw [hsame.nlink j hj'] at hn
    have hjd : j ≠ d := by
      rintro rfl
      rw [h.empty j hj' hn] at hcount
      exact absurd hcount (lt_irrefl 0)
    have hji : j ≠ i := by rintro rfl; exact hi hj'
    rw [unlinkIn_of_ne hjd hji]
    exact h.empty j hj' hn c

theorem removed (h : Exact T) (ht : Tree T) (hr : Removed T T' d i) (hd : (T d).type = .dir)
    (hi : (T i).type = .dir) (he : ∀ c, count c (T i).slots = 0) (hn : 0 < count i (T d).slots) : Exact T' := by
  constructor
  · intro j
    have hlinks := hr.links j
    by_cases hji : j = i
    · subst hji
      rw [if_pos rfl, ht.links_empty hi he hd hn] at hlinks
      rw [hr.nlink]
      omega
    · have hj := hr.nlink_of_ne j hji
      rw [if_neg (Ne.symm hji), ← h.nlink] at hlinks
      omega
  · intro j hj hz c
    have hcount := hr.count j c
    rw [hr.type] at hj
    have hold : count c (T j).slots = 0 := by
      by_cases hji : j = i
      · exact hji ▸ he c
      · refine h.empty j hj ?_ c
        by_contra hne
        have := ((hr.live j hji).mpr ⟨hj, Nat.pos_of_ne_zero hne⟩).2
        omega
    omega

end Exact

inductive FromRoot (T : Table N) : Fin N → Prop
  | root : FromRoot T ROOTINO
  | entry {d : Fin N} {e : Dirent N} (hd : FromRoot T d) (ht : (T d).type = .dir) (he : e ∈ (T d).entries)
      (h0 : e.inum ≠ 0) : FromRoot T e.inum

theorem FromRoot.of_count (hd : FromRoot T d) (ht : (T d).type = .dir) (hi : 0 < count i (T d).slots) :
    FromRoot T i := by
  obtain ⟨h0, e, he, rfl⟩ := count_pos_iff.mp hi
  exact .entry hd ht (List.mem_of_mem_drop he) h0

theorem Tree.fromRoot_of_live (h : Tree T) {c : Fin N} (hc : (T c).Live) : FromRoot T c := by
  obtain ⟨depth, hdepth⟩ := h.rank
  induction hn : depth c using Nat.strong_induction_on generalizing c with
  | _ n ih =>
    by_cases hr : c = ROOTINO
    · exact hr ▸ .root
    · have hlt := hdepth c hc hr
      have hp := ih _ (hn ▸ hlt) (h.parent_live hc) rfl
      refine hp.of_count (h.up c hc) ?_
      rw [h.down c _ hc.1 (h.up c hc), if_pos ⟨hc.2, hr, rfl⟩]
      exact Nat.one_pos

theorem Exact.fromRoot (h : Exact T) (ht : Tree T) (hi : 0 < (T i).nlink) : FromRoot T i := by
  by_cases hd : (T i).type = .dir
  · exact ht.fromRoot_of_live ⟨hd, hi⟩
  · have hne : links T i ≠ 0 := by
      rw [← h.nlink]
      omega
    obtain ⟨d, hg⟩ := not_forall.mp (fun hz => hne (Counting.total_eq_zero_iff.mpr hz))
    have hdt : (T d).type = .dir := by
      by_contra hdt
      exact hg (gives_of_type_ne hdt i)
    have hcount : 0 < count i (T d).slots := by
      by_contra hz
      have hlive : 0 < (T d).nlink ∧ (T d).parent = i := by
        by_contra hx
        simp only [gives, hdt, if_true, if_neg hx] at hg
        omega
      exact hd (hlive.2 ▸ ht.up d ⟨hdt, hlive.1⟩)
    have hdn : 0 < (T d).nlink := by
      by_contra hz
      rw [h.empty d hdt (by omega)] at hcount
      exact absurd hcount (lt_irrefl 0)
    exact (ht.fromRoot_of_live ⟨hdt, hdn⟩).of_count hdt hcount

end EnhancedXv6.Fs
