
import EnhancedXv6.SortedCycle
import EnhancedXv6.Tiling
import EnhancedXv6.Umalloc

namespace EnhancedXv6.Umalloc

open Function (update update_comm update_idem update_of_ne update_self)
open Transition Machine SortedCycle Tiling Heap

variable {base b p q nunits fuel : ℕ} {h h' : Heap} {F L : Finset ℕ}

structure Listed (base : ℕ) (h : Heap) (L F : Finset ℕ) : Prop where
  base_mem : base ∈ F
  base_size : h.size base = 0
  cycle : Cycle F h.ptr
  tiles : Tiles (F.erase base ∪ L) (fun a => 8 * h.size a) h.memory
  disjoint : Disjoint F L
  away : ∀ x ∈ h.memory, x ≠ 0 ∧ x + 1 ≠ base ∧ ¬ (base ≤ x ∧ x < base + 8)

def Apart (base : ℕ) (h : Heap) (F A : Finset ℕ) : Prop := ∀ a ∈ F.erase base, a ∉ A → a + 8 * h.size a ∉ F.erase base

structure Sound (base : ℕ) (h : Heap) (L F : Finset ℕ) : Prop extends Listed base h L F where
  freep_mem : h.freep ∈ F
  coalesced : Apart base h F ∅

namespace Listed

theorem block (ha : b ∈ F) (hne : b ≠ base) : b ∈ F.erase base ∪ L :=
  Finset.mem_union_left L (Finset.mem_erase.mpr ⟨hne, ha⟩)

theorem size_pos (h0 : Listed base h L F) (hb : b ∈ F.erase base ∪ L) : 0 < h.size b := by
  have := h0.tiles.pos b hb
  omega

theorem not_mem (h0 : Listed base h L F) (hb : b ∈ L) : b ∉ F := fun hF => Finset.disjoint_left.mp h0.disjoint hF hb

theorem ne_base (h0 : Listed base h L F) (hb : b ∈ L) : b ≠ base := fun e => h0.not_mem hb (e ▸ h0.base_mem)

theorem base_outside (h0 : Listed base h L F) (hb : b ∈ F.erase base ∪ L) (hlt : b < base) : b + 8 * h.size b < base := by
  have hpos := h0.size_pos hb
  by_contra hle
  have hm : base - 1 ∈ h.memory := h0.tiles.mem hb (by omega) (by omega)
  exact (h0.away _ hm).2.1 (by omega)

theorem end_le (h0 : Listed base h L F) (hb : b ∈ F.erase base ∪ L) (hq : q ∈ F) (hlt : b < q) : b + 8 * h.size b ≤ q := by
  by_cases e : q = base
  · subst e
    exact (h0.base_outside hb hlt).le
  · exact h0.tiles.apart b hb q (block hq e) hlt

theorem ne_zero (h0 : Listed base h L F) (hbase : 0 < base) (ha : b ∈ F) : b ≠ 0 := by
  by_cases e : b = base
  · omega
  · have hb := block (L := L) ha e
    have hpos := h0.size_pos hb
    exact (h0.away b (h0.tiles.mem hb (le_refl b) (by omega))).1

theorem setFreep (h0 : Listed base h L F) (p : ℕ) : Listed base { h with freep := p } L F :=
  ⟨h0.base_mem, h0.base_size, h0.cycle, h0.tiles, h0.disjoint, h0.away⟩

theorem eq_next_of_end (h0 : Listed base h L F) (hb : b ∈ L) (hp : IsPred F p b) (hq : b + 8 * h.size b ∈ F) :
    b + 8 * h.size b = h.ptr p := by
  have hbB := Finset.mem_union_right (F.erase base) hb
  have hpos := h0.size_pos hbB
  have hnext := hp.isNext (h0.cycle p hp.1)
  rcases hnext.near with ⟨hlt, hnear⟩ | hw
  · have hle := (hnear _ hq).resolve_left (by omega)
    have hend := h0.end_le hbB hnext.mem hlt
    omega
  · have := (hw _ hq).1
    omega

theorem eq_pred_of_end (h0 : Listed base h L F) (hp : IsPred F p b) {a : ℕ} (ha : a ∈ F.erase base) (he : a + 8 * h.size a = b) : a = p := by
  have haB := Finset.mem_union_left L ha
  have hpos := h0.size_pos haB
  obtain ⟨hpF, ⟨hpb, hbelow⟩ | habove⟩ := hp
  · have hle := (hbelow a (Finset.mem_of_mem_erase ha)).resolve_right (by omega)
    by_contra hne
    have := h0.end_le haB hpF (lt_of_le_of_ne hle hne)
    omega
  · have := (habove a (Finset.mem_of_mem_erase ha)).1
    omega

theorem eq_base_of_self (h0 : Listed base h L F) (hp : p ∈ F) (he : h.ptr p = p) : p = base := by
  have hnext := h0.cycle p hp
  rw [he] at hnext
  rcases hnext.near with ⟨hlt, -⟩ | hw
  · exact absurd hlt (lt_irrefl p)
  · have := hw base h0.base_mem
    omega

theorem insert (h0 : Listed base h L F) (hb : b ∈ L) (hp : IsPred F p b) :
    Listed base { h with ptr := update (update h.ptr b (h.ptr p)) p b } (L.erase b) (insert b F) := by
  have hbF := h0.not_mem hb
  have hbase := h0.ne_base hb
  have hpb : p ≠ b := fun e => hbF (e ▸ hp.1)
  have hset : (Insert.insert b F).erase base ∪ L.erase b = F.erase base ∪ L := by
    ext x
    simp only [Finset.mem_union, Finset.mem_erase, Finset.mem_insert]
    grind
  refine ⟨Finset.mem_insert_of_mem h0.base_mem, h0.base_size, ?_, ?_, ?_, h0.away⟩
  · rw [update_comm hpb.symm]
    exact h0.cycle.insert_pred hbF hp
  · rw [hset]
    exact h0.tiles
  · rw [Finset.disjoint_left]
    intro x hx hxL
    rcases Finset.mem_insert.mp hx with rfl | hx
    · exact Finset.notMem_erase x L hxL
    · exact Finset.disjoint_left.mp h0.disjoint hx (Finset.mem_of_mem_erase hxL)

theorem apart_insert (h0 : Listed base h L F) (hc : Apart base h F ∅) (hp : IsPred F p b) {h' : Heap} (hs : h'.size = h.size) :
    Apart base h' (Insert.insert b F) {p, b} := by
  intro a ha hA hend
  rw [Finset.mem_insert, Finset.mem_singleton, not_or] at hA
  obtain ⟨hab, ha⟩ := Finset.mem_erase.mp ha
  obtain ⟨heb, hend⟩ := Finset.mem_erase.mp hend
  rw [hs] at heb hend
  have haF := Finset.mem_erase.mpr ⟨hab, (Finset.mem_insert.mp ha).resolve_left hA.2⟩
  rcases Finset.mem_insert.mp hend with e | hend
  · exact hA.1 (h0.eq_pred_of_end hp haF e)
  · exact hc a haF (Finset.notMem_empty a) (Finset.mem_erase.mpr ⟨heb, hend⟩)

theorem absorb (h0 : Listed base h L F) (hp : p ∈ F) (hbase : p ≠ base) (he : p + 8 * h.size p = h.ptr p) :
    Listed base
      { h with
        size := update h.size p (h.size p + h.size (h.ptr p))
        ptr := update h.ptr p (h.ptr (h.ptr p)) } L (F.erase (h.ptr p)) ∧
      h.ptr p ≠ base := by
  have hpB := block (L := L) hp hbase
  have hpos := h0.size_pos hpB
  have hqF := (h0.cycle p hp).mem
  have hqbase : h.ptr p ≠ base := by
    intro e
    have := h0.base_outside hpB (by omega)
    omega
  have hqp : h.ptr p ≠ p := by omega
  have hqL : h.ptr p ∉ L := fun hL => h0.not_mem hL hqF
  have hset : (F.erase (h.ptr p)).erase base ∪ L = (F.erase base ∪ L).erase (p + 8 * h.size p) := by
    rw [he]
    ext x
    simp only [Finset.mem_union, Finset.mem_erase]
    grind
  refine ⟨⟨Finset.mem_erase.mpr ⟨hqbase.symm, h0.base_mem⟩, ?_, h0.cycle.erase_next hp hqp, ?_, ?_, h0.away⟩, hqbase⟩
  · dsimp only
    rw [update_of_ne hbase.symm]
    exact h0.base_size
  · rw [hset]
    refine (h0.tiles.merge hpB (by rw [he]; exact block hqF hqbase)).congr (fun a _ => ?_)
    dsimp only
    by_cases e : a = p
    · subst e
      rw [update_self, update_self, he]
      omega
    · rw [update_of_ne e, update_of_ne e]
  · exact h0.disjoint.mono_left (Finset.erase_subset _ F)

theorem apart_absorb (h0 : Listed base h L F) {A : Finset ℕ} (hA : Apart base h F A) (hp : p ∈ F) (hbase : p ≠ base)
    (he : p + 8 * h.size p = h.ptr p) (hq : h.ptr p ∉ A) {h' : Heap}
    (hs : h'.size = update h.size p (h.size p + h.size (h.ptr p))) : Apart base h' (F.erase (h.ptr p)) (A.erase p) := by
  have hqF := (h0.cycle p hp).mem
  have hqbase := (h0.absorb hp hbase he).2
  intro a ha haA hend
  obtain ⟨hab, ha⟩ := Finset.mem_erase.mp ha
  obtain ⟨heb, hend⟩ := Finset.mem_erase.mp hend
  have hendF := Finset.mem_of_mem_erase hend
  rw [hs] at heb hendF
  have haF := Finset.mem_erase.mpr ⟨hab, Finset.mem_of_mem_erase ha⟩
  by_cases e : a = p
  · -- it ends where the other one did
    subst e
    have hstep : a + 8 * (h.size a + h.size (h.ptr a)) = h.ptr a + 8 * h.size (h.ptr a) := by omega
    rw [update_self, hstep] at heb hendF
    exact hA _ (Finset.mem_erase.mpr ⟨hqbase, hqF⟩) hq (Finset.mem_erase.mpr ⟨heb, hendF⟩)
  · rw [update_of_ne e] at heb hendF
    exact hA a haF (fun h => haA (Finset.mem_erase.mpr ⟨e, h⟩)) (Finset.mem_erase.mpr ⟨heb, hendF⟩)

end Listed

structure Freed (base : ℕ) (h : Heap) (L F : Finset ℕ) (b : ℕ) (h' : Heap) (F' : Finset ℕ) : Prop where
  sound : Sound base h' (L.erase b) F'
  card : F'.card ≤ F.card + 1
  large : ∃ c ∈ F', h.size b ≤ h'.size c
  obtained : h'.obtained = h.obtained
  live : ∀ a ∈ L.erase b, h'.size a = h.size a

theorem Sound.joinUpper (h0 : Sound base h L F) (hb : b ∈ L) (hp : IsPred F p b) :
    ∃ F' ⊆ insert b F, Listed base { h.joinUpper b p with ptr := update (h.joinUpper b p).ptr p b } (L.erase b) F' ∧
      Apart base (h.joinUpper b p) F' {p} ∧ p ∈ F' ∧ b ∈ F' ∧ h.size b ≤ (h.joinUpper b p).size b ∧
      ∀ a, a ≠ b → (h.joinUpper b p).size a = h.size a := by
  have hbF := h0.not_mem hb
  have hpb : p ≠ b := fun e => hbF (e ▸ hp.1)
  have hins := h0.insert hb hp
  have hapart : Apart base h (insert b F) {p, b} := h0.apart_insert h0.coalesced hp rfl
  by_cases hu : b + 8 * h.size b = h.ptr p
  · have hj : h.joinUpper b p = { h with size := update h.size b (h.size b + h.size (h.ptr p)), ptr := update h.ptr b (h.ptr (h.ptr p)) } := if_pos hu
    have hqF := (h0.cycle p hp.1).mem
    have hqb : h.ptr p ≠ b := fun e => hbF (e ▸ hqF)
    have hnext : update (update h.ptr b (h.ptr p)) p b b = h.ptr p := by
      rw [update_of_ne hpb.symm, update_self]
    have hend : b + 8 * h.size b = update (update h.ptr b (h.ptr p)) p b b := by rw [hnext, hu]
    obtain ⟨habs, hqbase⟩ := hins.absorb (Finset.mem_insert_self b F) (h0.ne_base hb) hend
    have habs' := hins.apart_absorb hapart (Finset.mem_insert_self b F) (h0.ne_base hb) hend
    dsimp only at habs hqbase habs'
    rw [hnext] at habs hqbase habs'
    have hqp : h.ptr p ≠ p := fun e => hqbase (e.trans (h0.eq_base_of_self hp.1 e))
    have hptr : update (update (update h.ptr b (h.ptr p)) p b) b
        (update (update h.ptr b (h.ptr p)) p b (h.ptr p)) = update (update h.ptr b (h.ptr (h.ptr p))) p b := by
      rw [update_of_ne hqp, update_of_ne hqb, update_comm hpb, update_idem]
    rw [hptr] at habs
    have hA : ({p, b} : Finset ℕ).erase b = {p} := by
      ext x
      simp only [Finset.mem_erase, Finset.mem_insert, Finset.mem_singleton]
      grind
    rw [hj]
    refine ⟨_, Finset.erase_subset _ _, habs, ?_, Finset.mem_erase.mpr ⟨hqp.symm, Finset.mem_insert_of_mem hp.1⟩,
      Finset.mem_erase.mpr ⟨hqb.symm, Finset.mem_insert_self b F⟩, ?_, fun a ha => update_of_ne ha ..⟩
    · rw [← hA]
      exact habs' (by simp [hqp, hqb]) rfl
    · dsimp only
      rw [update_self]
      omega
  · have hj : h.joinUpper b p = { h with ptr := update h.ptr b (h.ptr p) } := if_neg hu
    rw [hj]
    refine ⟨_, Finset.Subset.refl _, hins, fun a ha hA => ?_, Finset.mem_insert_of_mem hp.1, Finset.mem_insert_self b F, le_refl _, fun _ _ => rfl⟩
    by_cases e : a = b
    · subst e
      have hpos := h0.size_pos (Finset.mem_union_right (F.erase base) hb)
      intro hend
      rcases Finset.mem_insert.mp (Finset.mem_of_mem_erase hend) with e | hend
      · dsimp only at e
        omega
      · exact hu (h0.eq_next_of_end hb hp hend)
    · exact hapart a ha (by simpa [e] using hA)

theorem Sound.link (h0 : Sound base h L F) (hb : b ∈ L) (hp : IsPred F p b) :
    ∃ F', Freed base h L F b { (h.joinUpper b p).joinLower b p with freep := p } F' := by
  have hbF := h0.not_mem hb
  have hpb : p ≠ b := fun e => hbF (e ▸ hp.1)
  obtain ⟨F', hsub, hlist, hapart, hpF', hbF', hlarge, hsize⟩ := h0.joinUpper hb hp
  have hobt : (h.joinUpper b p).obtained = h.obtained := by
    unfold Heap.joinUpper
    split_ifs <;> rfl
  generalize h.joinUpper b p = k at hlist hapart hlarge hsize hobt
  have hcard : F'.card ≤ F.card + 1 := (Finset.card_le_card hsub).trans (Finset.card_insert_le b F)
  by_cases hl : p + 8 * k.size p = b
  · have hj : k.joinLower b p = { k with size := update k.size p (k.size p + k.size b), ptr := update k.ptr p (k.ptr b) } := if_pos hl
    have hpbase : p ≠ base := by
      rintro rfl
      rw [hsize p hpb, h0.base_size] at hl
      exact h0.ne_base hb hl.symm
    have hnext : update k.ptr p b p = b := update_self ..
    have hend : p + 8 * k.size p = update k.ptr p b p := by rw [hnext, hl]
    obtain ⟨habs, -⟩ := hlist.absorb hpF' hpbase hend
    have habs' := hlist.apart_absorb (A := {p}) hapart hpF' hpbase hend
    dsimp only at habs habs'
    rw [hnext, update_of_ne hpb.symm, update_idem] at habs
    rw [hnext] at habs'
    rw [hj]
    have hA : ({p} : Finset ℕ).erase p = ∅ := by simp
    rw [hA] at habs'
    refine ⟨F'.erase b, ⟨habs.setFreep p, Finset.mem_erase.mpr ⟨hpb, hpF'⟩, habs' (by simpa using hpb.symm) rfl⟩,
      Finset.card_erase_le.trans hcard, ⟨p, Finset.mem_erase.mpr ⟨hpb, hpF'⟩, ?_⟩, hobt, fun a ha => ?_⟩
    · dsimp only
      rw [update_self]
      omega
    · have hap : a ≠ p := fun e => h0.not_mem (Finset.mem_of_mem_erase ha) (e ▸ hp.1)
      dsimp only
      rw [update_of_ne hap, hsize a (Finset.ne_of_mem_erase ha)]
  · have hj : k.joinLower b p = { k with ptr := update k.ptr p b } := if_neg hl
    rw [hj]
    refine ⟨F', ⟨hlist.setFreep p, hpF', fun a ha _ => ?_⟩, hcard, ⟨b, hbF', hlarge⟩, hobt,
      fun a ha => hsize a (Finset.ne_of_mem_erase ha)⟩
    by_cases e : a = p
    · subst e
      intro hend
      obtain ⟨heb, hend⟩ := Finset.mem_erase.mp hend
      dsimp only at heb hend
      have hendF := (Finset.mem_insert.mp (hsub hend)).resolve_left hl
      rw [hsize a hpb] at heb hendF
      exact h0.coalesced a (Finset.mem_erase.mpr ⟨Finset.ne_of_mem_erase ha, hp.1⟩) (Finset.notMem_empty a)
        (Finset.mem_erase.mpr ⟨heb, hendF⟩)
    · exact hapart a ha (by simpa using e)

theorem search_spec (h0 : Listed base h L F) (hb : b ∉ F) (hp : p ∈ F) (hf : F.card ≤ fuel) :
    ∃ p', h.search b fuel p = some p' ∧ IsPred F p' b := by
  obtain ⟨t, ht⟩ := exists_isPred ⟨p, hp⟩ b hb
  have hd : steps F p t < fuel := lt_of_lt_of_le (steps_lt_card hp t) hf
  clear hf
  induction fuel generalizing p with
  | zero => exact absurd hd (Nat.not_lt_zero _)
  | succ fuel ih =>
    have htest := isPred_iff hp (h0.cycle p hp) hb
    rw [Heap.search]
    split_ifs with h1 h2
    · exact ⟨p, rfl, htest.mp (.inl h1)⟩
    · exact ⟨p, rfl, htest.mp (.inr h2)⟩
    · have hne : p ≠ t := by
        rintro rfl
        exact (not_or.mpr ⟨h1, h2⟩) (htest.mpr ht)
      have hstep := h0.cycle.steps_next hp ht.1 hne
      exact ih (h0.cycle p hp).mem (by omega)

theorem free_spec (h0 : Sound base h L F) (hb : b ∈ L) (hf : F.card ≤ fuel) :
    ∃ h' F', h.free fuel (b + 8) = some h' ∧ Freed base h L F b h' F' := by
  obtain ⟨p, hs, hp⟩ := search_spec h0.toListed (h0.not_mem hb) h0.freep_mem hf
  obtain ⟨F', hF'⟩ := h0.link hb hp
  refine ⟨_, F', ?_, hF'⟩
  rw [Heap.free, Nat.add_sub_cancel, hs]
  rfl

def Region (base : ℕ) (h : Heap) (r n : ℕ) : Prop :=
  (∀ x, r ≤ x → x < r + n → x ∉ h.memory ∧ ¬ (base ≤ x ∧ x < base + 8)) ∧ 0 < r ∧ r + n ≠ base

theorem le_coreUnits (nu : ℕ) : nu ≤ coreUnits nu ∧ 0 < coreUnits nu := by
  unfold coreUnits
  split_ifs <;> omega

theorem Sound.extend (h0 : Sound base h L F) {r n : ℕ} (hn : 0 < n) (hr : Region base h r (8 * n)) :
    r ∉ L ∧ Sound base { h with size := update h.size r n, obtained := (r, n) :: h.obtained } (insert r L) F := by
  obtain ⟨hfresh, hr0, hrend⟩ := hr
  have hB : r ∉ F.erase base ∪ L := by
    intro hB
    have := h0.size_pos hB
    exact (hfresh r (le_refl r) (by omega)).1 (h0.tiles.mem hB (le_refl r) (by omega))
  have hrbase : r ≠ base := by
    intro e
    have := (hfresh r (le_refl r) (by omega)).2
    omega
  have hrF : r ∉ F := fun hF => hB (Listed.block hF hrbase)
  have hsize : ∀ a ∈ F, update h.size r n a = h.size a := by
    intro a ha
    have hne : a ≠ r := fun e => hrF (e ▸ ha)
    exact update_of_ne hne ..
  have hmem : ({ h with size := update h.size r n, obtained := (r, n) :: h.obtained } : Heap).memory =
      h.memory ∪ {x | r ≤ x ∧ x < r + 8 * n} := by
    ext x
    simp [Heap.memory, or_comm]
  have hset : F.erase base ∪ insert r L = insert r (F.erase base ∪ L) := by rw [Finset.union_insert]
  refine ⟨fun hL => hB (Finset.mem_union_right _ hL), ⟨h0.base_mem, ?_, h0.cycle, ?_, ?_, ?_⟩, h0.freep_mem, ?_⟩
  · exact (hsize base h0.base_mem).trans h0.base_size
  · rw [hmem, hset]
    refine (h0.tiles.add (by omega) (fun x hl hx => (hfresh x hl hx).1)).congr (fun a _ => ?_)
    dsimp only
    by_cases e : a = r
    · rw [e, update_self, update_self]
    · rw [update_of_ne e, update_of_ne e]
  · rw [Finset.disjoint_insert_right]
    exact ⟨hrF, h0.disjoint⟩
  · intro x hx
    rw [hmem] at hx
    rcases hx with hx | ⟨hl, hx⟩
    · exact h0.away x hx
    · refine ⟨by omega, fun e => ?_, (hfresh x hl hx).2⟩
      by_cases hlt : base < r + 8 * n
      · exact (hfresh base (by omega) hlt).2 ⟨le_refl base, by omega⟩
      · omega
  · intro a ha hA
    dsimp only
    rw [hsize a (Finset.mem_of_mem_erase ha)]
    exact h0.coalesced a ha hA

theorem morecore_spec (h0 : Sound base h L F) {r : ℕ} (hr : Region base h r (8 * coreUnits nunits)) (hf : F.card ≤ fuel) :
    ∃ h' F', h.morecore fuel nunits (some r) = some (h', h'.freep) ∧ Sound base h' L F' ∧ F'.card ≤ F.card + 1 ∧
      (∃ c ∈ F', nunits ≤ h'.size c) ∧ h'.obtained = (r, coreUnits nunits) :: h.obtained ∧ ∀ a ∈ L, h'.size a = h.size a := by
  obtain ⟨hle, hpos⟩ := le_coreUnits nunits
  obtain ⟨hrL, hext⟩ := h0.extend hpos hr
  obtain ⟨h', F', hfree, hF'⟩ := free_spec hext (Finset.mem_insert_self r L) hf
  have hL : (insert r L).erase r = L := Finset.erase_insert hrL
  refine ⟨h', F', ?_, hL ▸ hF'.sound, hF'.card, ?_, hF'.obtained, fun a ha => ?_⟩
  · rw [Heap.morecore, hfree]
    rfl
  · obtain ⟨c, hc, hsize⟩ := hF'.large
    dsimp only at hsize
    rw [update_self] at hsize
    exact ⟨c, hc, hle.trans hsize⟩
  · have hne : a ≠ r := fun e => hrL (e ▸ ha)
    rw [hF'.live a (by rwa [hL])]
    exact update_of_ne hne ..

structure Taken (base : ℕ) (h : Heap) (L : Finset ℕ) (nunits : ℕ) (h' : Heap) (a : ℕ) : Prop where
  sound : ∃ F', Sound base h' (insert (a - 8) L) F'
  new : a - 8 ∉ L
  ne_zero : a ≠ 0
  size : h'.size (a - 8) = nunits
  live : ∀ c ∈ L, h'.size c = h.size c

theorem Sound.unlink (h0 : Sound base h L F) (hp : p ∈ F) (hqbase : h.ptr p ≠ base) :
    Taken base h L (h.size (h.ptr p)) { h with ptr := update h.ptr p (h.ptr (h.ptr p)), freep := p } (h.ptr p + 8) := by
  have hqF := (h0.cycle p hp).mem
  have hne : h.ptr p ≠ p := fun e => hqbase (e.trans (h0.eq_base_of_self hp e))
  have hqL : h.ptr p ∉ L := fun hL => h0.not_mem hL hqF
  have hset : (F.erase (h.ptr p)).erase base ∪ insert (h.ptr p) L = F.erase base ∪ L := by
    ext x
    simp only [Finset.mem_union, Finset.mem_erase, Finset.mem_insert]
    grind
  refine ⟨⟨F.erase (h.ptr p), ⟨Finset.mem_erase.mpr ⟨hqbase.symm, h0.base_mem⟩, h0.base_size, h0.cycle.erase_next hp hne, ?_, ?_, h0.away⟩, ?_, ?_⟩,
    hqL, Nat.succ_ne_zero _, rfl, fun _ _ => rfl⟩
  · rw [Nat.add_sub_cancel, hset]
    exact h0.tiles
  · rw [Nat.add_sub_cancel, Finset.disjoint_insert_right]
    exact ⟨Finset.notMem_erase _ F, h0.disjoint.mono_left (Finset.erase_subset _ F)⟩
  · exact Finset.mem_erase.mpr ⟨hne.symm, hp⟩
  · intro a ha hA hend
    have hsub : (F.erase (h.ptr p)).erase base ⊆ F.erase base := Finset.erase_subset_erase base (Finset.erase_subset _ F)
    exact h0.coalesced a (hsub ha) hA (hsub hend)

theorem Sound.carve (h0 : Sound base h L F) (hp : p ∈ F) (hq : q ∈ F) (hqbase : q ≠ base) (hn : 0 < nunits) (hlt : nunits < h.size q) :
    Taken base h L nunits { h with size := update (update h.size q (h.size q - nunits)) (q + 8 * (h.size q - nunits)) nunits, freep := p }
      (q + 8 * (h.size q - nunits) + 8) := by
  have hqB := Listed.block (L := L) hq hqbase
  have hqL : q ∉ L := fun hL => h0.not_mem hL hq
  generalize hleft : h.size q - nunits = left
  have hbB : q + 8 * left ∉ F.erase base ∪ L := by
    intro hb
    have := h0.tiles.apart q hqB _ hb (by omega)
    omega
  have hbbase : q + 8 * left ≠ base := by
    intro e
    have hm : q + 8 * left ∈ h.memory := h0.tiles.mem hqB (by omega) (by omega)
    have := (h0.away _ hm).2.2
    omega
  have hbF : q + 8 * left ∉ F := fun hF => hbB (Listed.block hF hbbase)
  have hbL : q + 8 * left ∉ L := fun hL => hbB (Finset.mem_union_right _ hL)
  have hset : F.erase base ∪ insert (q + 8 * left) L = insert (q + 8 * left) (F.erase base ∪ L) := by rw [Finset.union_insert]
  have hother : ∀ c, c ≠ q + 8 * left → c ≠ q → update (update h.size q left) (q + 8 * left) nunits c = h.size c := by
    intro c hcb hcq
    rw [update_of_ne hcb, update_of_ne hcq]
  refine ⟨⟨F, ⟨h0.base_mem, ?_, h0.cycle, ?_, ?_, h0.away⟩, hp, ?_⟩, hbL, Nat.succ_ne_zero _, update_self .., fun c hc => ?_⟩
  · exact (hother base hbbase.symm hqbase.symm).trans h0.base_size
  · rw [Nat.add_sub_cancel, hset]
    refine (h0.tiles.split hqB (show 0 < 8 * left by omega) (by omega)).congr (fun c _ => ?_)
    dsimp only
    by_cases hcb : c = q + 8 * left
    · rw [hcb, update_self, update_self]
      omega
    · rw [update_of_ne hcb, update_of_ne hcb]
      by_cases hcq : c = q
      · rw [hcq, update_self, update_self]
      · rw [update_of_ne hcq, update_of_ne hcq]
  · rw [Nat.add_sub_cancel, Finset.disjoint_insert_right]
    exact ⟨hbF, h0.disjoint⟩
  · intro a ha hA hend
    have haF := Finset.mem_of_mem_erase ha
    have hab : a ≠ q + 8 * left := fun e => hbF (e ▸ haF)
    dsimp only at hend
    by_cases haq : a = q
    · -- it ends where the new block starts
      rw [haq, update_of_ne (by omega), update_self] at hend
      exact hbF (Finset.mem_of_mem_erase hend)
    · rw [hother a hab haq] at hend
      exact h0.coalesced a ha hA hend
  · exact hother c (fun e => hbL (e ▸ hc)) (fun e => hqL (e ▸ hc))

theorem take_spec (h0 : Sound base h L F) (hp : p ∈ F) (hn : 0 < nunits) (hle : nunits ≤ h.size (h.ptr p)) :
    Taken base h L nunits (h.take nunits p (h.ptr p)).1 (h.take nunits p (h.ptr p)).2 := by
  have hqbase : h.ptr p ≠ base := by
    intro e
    rw [e, h0.base_size] at hle
    omega
  unfold Heap.take
  split_ifs with he
  · have := h0.unlink hp hqbase
    rwa [he] at this
  · exact h0.carve hp (h0.cycle p hp).mem hqbase hn (by omega)

end EnhancedXv6.Umalloc
