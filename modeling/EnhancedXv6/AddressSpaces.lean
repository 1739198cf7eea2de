import EnhancedXv6.VmSpecs

namespace EnhancedXv6.Vm

open Command Bytes Ownership

structure Idle (L : Layout) (E : Set ℕ) (r : Ram) : Prop where
  mem_iff : ∀ f, f ∈ r.freelist ↔ f ∈ L.frames \ E
  nodup : r.freelist.Nodup

variable {L : Layout} {Φ : Spec sig Ram} [Grants L Φ] {E : Set ℕ} {r r' r'' : Ram} {d f t v : ℕ}

def owned (r : Ram) (d : ℕ) : Set ℕ := {f | ∃ x, r.refs d x = some f}

namespace Idle

theorem congr (h : Idle L E r) (hl : r'.freelist = r.freelist) : Idle L E r' := by
  refine ⟨?_, ?_⟩
  · rw [hl]
    exact h.mem_iff
  · rw [hl]
    exact h.nodup

omit [Grants L Φ] in
theorem short (h : Idle L E r) (hout : Denies Φ ∨ r.freelist = []) (n : ℕ) : Short (Denies Φ) L E n := by
  refine hout.imp_right (fun hl => ?_)
  have hempty : L.frames \ E = ∅ := by
    ext f
    rw [← h.mem_iff, hl]
    exact iff_of_false List.not_mem_nil (Set.notMem_empty f)
  rw [hempty, Set.ncard_empty]
  exact Nat.zero_le _

theorem not_short (h : Idle L E r) (hd : r.denied = []) {n : ℕ} (hn : 1026 + n < r.freelist.length) :
    ¬ Short (r.denied ≠ []) L E n := by
  rintro (hne | hle)
  · exact hne hd
  · have hset : L.frames \ E = (r.freelist.toFinset : Set ℕ) := by
      ext f
      rw [← h.mem_iff, Finset.mem_coe, List.mem_toFinset]
    rw [hset, Set.ncard_coe_finset, List.toFinset_card_of_nodup h.nodup] at hle
    omega

theorem pop (h : Idle L E r) (ht : r.Takes f r') : f ∈ L.frames ∧ f ∉ E ∧ Idle L (insert f E) r' := by
  obtain ⟨hframe, hE⟩ := (h.mem_iff f).mp ht.mem
  obtain ⟨hnot, hnd⟩ := ht.nodup h.nodup
  refine ⟨hframe, hE, fun g => ?_, hnd⟩
  rw [Space.diff_insert, Set.mem_sdiff, ← h.mem_iff g, ht.mem_iff g, Set.mem_singleton_iff]
  constructor
  · intro hg
    refine ⟨.inr hg, ?_⟩
    rintro rfl
    exact hnot hg
  · rintro ⟨hg, hne⟩
    exact hg.resolve_left hne

theorem held (h : Idle L E r) (hf : f ∈ L.frames) (hE : f ∈ E) : Held L r f := ⟨hf, fun hm => ((h.mem_iff f).mp hm).2 hE⟩

theorem push (h : Idle L (insert f E) r) (hf : f ∈ L.frames) (hE : f ∉ E) : Idle L E (r.push f) := by
  have hnot : f ∉ r.freelist := fun hm => ((h.mem_iff f).mp hm).2 (Set.mem_insert f E)
  refine ⟨fun g => ?_, List.nodup_cons.mpr ⟨hnot, h.nodup⟩⟩
  rw [← Space.insert_diff_insert hf hE, Set.mem_insert_iff, ← h.mem_iff g]
  exact List.mem_cons

theorem space (h : Idle L (insert d E) r) (hd : d ∈ L.frames) (hE : d ∉ E) (hz : r.page d = fun _ => 0) :
    Space L E r d ∧ (∀ i, r.table d i = none) ∧ (∀ v, r.entry d v = 0) ∧ ∀ v, r.user d v = none := by
  have htable : ∀ i, r.table d i = none := by
    intro i
    apply table_absent
    rw [hz, word_zero]
    exact fun hp => hp (UInt32.zero_and ..)
  have hentry : ∀ v, r.entry d v = 0 := fun v => Ram.entry_of_none (htable _)
  have hz0 : ∀ v, target v 0 = none := fun v => if_neg (fun hm => hm.2 rfl)
  have hrefs : ∀ x f, r.refs d x = some f → x = .dir ∧ f = d := by
    intro x f hx
    cases x with
    | dir => exact ⟨rfl, (Option.some.inj hx).symm⟩
    | table i =>
      rw [Ram.refs, htable i] at hx
      cases hx
    | user v =>
      rw [Ram.refs, hentry v, hz0 v] at hx
      cases hx
  refine ⟨⟨⟨?_, ?_, ?_⟩, ?_, h.nodup, ?_⟩, htable, hentry, fun v => user_of_none (htable _)⟩
  · intro x f hx
    obtain ⟨-, rfl⟩ := hrefs x f hx
    exact ⟨hd, hE⟩
  · intro x y f hx hy
    rw [(hrefs x f hx).1, (hrefs y f hy).1]
  · intro f hf
    rw [Set.mem_ofPred_eq, h.mem_iff f]
    constructor
    · intro hn
      refine ⟨.dir, ?_⟩
      by_contra hne
      refine hn ⟨hf.1, ?_⟩
      rintro (rfl | hfE)
      · exact hne rfl
      · exact hf.2 hfE
    · rintro ⟨x, hx⟩ hm
      obtain ⟨-, rfl⟩ := hrefs x f hx
      exact hm.2 (Set.mem_insert f E)
  · intro f hf
    obtain ⟨h1, h2⟩ := (h.mem_iff f).mp hf
    exact ⟨h1, fun hE => h2 (Set.mem_insert_of_mem d hE)⟩
  · intro v _
    rw [hentry v]
    rfl

end Idle

theorem Space.of_frames {L' : Layout} {E' : Set ℕ} (h : Space L E r d) (he : L'.frames \ E' = L.frames \ E) : Space L' E' r d where
  exact := by
    rw [he]
    exact h.exact
  free := by
    rw [he]
    exact h.free
  nodup := h.nodup
  kernel := h.kernel

theorem Space.spare {L' : Layout} {E' : Set ℕ} {l : List ℕ} (h : Space L E r d) (hl : r.freelist = [])
    (hf : ∀ f, f ∈ L'.frames \ E' ↔ f ∈ L.frames \ E ∨ f ∈ l) (hdisj : ∀ f ∈ l, f ∉ L.frames \ E) (hnd : l.Nodup) :
    Space L' E' { r with freelist := l } d where
  exact := by
    refine ⟨fun hx => (hf _).mpr (.inl (h.exact.mem hx)), h.exact.inj, fun {b} hb => ?_⟩
    have hnot : b ∉ r.freelist := by
      rw [hl]
      exact List.not_mem_nil
    constructor
    · intro hbl
      have hmem := ((hf b).mp hb).resolve_right hbl
      exact (h.exact.used_iff hmem).mp hnot
    · rintro ⟨x, hx⟩ hbl
      exact hdisj b hbl (h.exact.mem hx)
  free f hfl := (hf f).mpr (.inr hfl)
  nodup := hnd
  kernel := h.kernel

theorem Space.idle (h : Space L E r d) : Idle L (E ∪ owned r d) r := by
  refine ⟨fun f => ?_, h.nodup⟩
  constructor
  · intro hf
    obtain ⟨h1, h2⟩ := h.free f hf
    refine ⟨h1, ?_⟩
    rintro (hE | ⟨x, hx⟩)
    · exact h2 hE
    · exact h.exact.used_of_ref hx hf
  · rintro ⟨h1, h2⟩
    by_contra hf
    have hU : f ∈ L.frames \ E := ⟨h1, fun hE => h2 (.inl hE)⟩
    exact h2 (.inr ((h.exact.used_iff hU).mp hf))

def Keeps (L : Layout) (E : Set ℕ) (r r' : Ram) : Prop := ∀ f, f ∉ L.frames \ E → r'.page f = r.page f

theorem Keeps.refl (L : Layout) (E : Set ℕ) (r : Ram) : Keeps L E r r := fun _ _ => rfl

theorem Keeps.trans (h : Keeps L E r r') (h' : Keeps L E r' r'') : Keeps L E r r'' := fun f hf => (h' f hf).trans (h f hf)

theorem Keeps.mono (h : Keeps L (insert f E) r r') : Keeps L E r r' :=
  fun g hg => h g (fun hm => hg ⟨hm.1, fun hE => hm.2 (Set.mem_insert_of_mem f hE)⟩)

theorem keeps_push (hf : f ∈ L.frames) (hE : f ∉ E) : Keeps L E r (r.push f) := by
  intro g hg
  apply Ram.setPage_of_ne
  rintro rfl
  exact hg ⟨hf, hE⟩

theorem keeps_setPage (hf : f ∈ L.frames) (hE : f ∉ E) (m : Mem) : Keeps L E r (r.setPage f m) := by
  intro g hg
  apply Ram.setPage_of_ne
  rintro rfl
  exact hg ⟨hf, hE⟩

theorem keeps_takes (ht : r.Takes f r') (hf : f ∈ L.frames) (hE : f ∉ E) : Keeps L E r r' := by
  intro g hg
  apply ht.page
  rintro rfl
  exact hg ⟨hf, hE⟩

theorem Space.swap {d' : ℕ} (h : Space L E r d) (h' : Space L (E ∪ owned r d) r' d') (hk : Keeps L (E ∪ owned r d) r r') :
    Space L (E ∪ owned r' d') r' d := by
  have hsame : Ram.SameTables r r' d := .of_refs (fun x f hx => hk f (fun hm => hm.2 (.inr ⟨x, hx⟩)))
  have hrefs := hsame.refs
  refine ⟨⟨?_, ?_, ?_⟩, fun f hf => ?_, h'.nodup, ?_⟩
  · intro x f hx
    rw [hrefs] at hx
    obtain ⟨h1, h2⟩ := h.mem hx
    refine ⟨h1, ?_⟩
    rintro (hE | ⟨z, hz⟩)
    · exact h2 hE
    · exact (h'.mem hz).2 (.inr ⟨x, hx⟩)
  · intro x z f hx hz
    rw [hrefs] at hx hz
    exact h.exact.inj hx hz
  · intro f hf
    rw [hrefs]
    constructor
    · intro hused
      by_contra hn
      have hU : f ∈ L.frames \ (E ∪ owned r d) := ⟨hf.1, fun hm => hm.elim (fun hE => hf.2 (.inl hE)) hn⟩
      exact hf.2 (.inr ((h'.exact.used_iff hU).mp hused))
    · rintro ⟨x, hx⟩ hfree
      exact (h'.free f hfree).2 (.inr ⟨x, hx⟩)
  · obtain ⟨h1, h2⟩ := h'.free f hf
    refine ⟨h1, ?_⟩
    rintro (hE | ⟨z, hz⟩)
    · exact h2 (.inl hE)
    · exact h'.exact.used_of_ref hz hf
  · rw [hsame.entry]
    exact h.kernel

theorem Space.of_idle {E' : Set ℕ} (h : Space L E' r d) (hi : Idle L (E ∪ owned r d) r')
    (hp : ∀ x f, r.refs d x = some f → r'.page f = r.page f) (hE : ∀ f ∈ owned r d, f ∉ E) : Space L E r' d := by
  have hsame : Ram.SameTables r r' d := .of_refs hp
  have hrefs := hsame.refs
  refine ⟨⟨?_, ?_, ?_⟩, fun f hf => ?_, hi.nodup, ?_⟩
  · intro x f hx
    rw [hrefs] at hx
    exact ⟨(h.mem hx).1, hE f ⟨x, hx⟩⟩
  · intro x z f hx hz
    rw [hrefs] at hx hz
    exact h.exact.inj hx hz
  · intro f hf
    rw [hrefs, Set.mem_ofPred_eq, hi.mem_iff]
    constructor
    · intro hn
      by_contra hno
      exact hn ⟨hf.1, fun hm => hm.elim hf.2 hno⟩
    · rintro hx hm
      exact hm.2 (.inr hx)
  · obtain ⟨h1, h2⟩ := (hi.mem_iff f).mp hf
    exact ⟨h1, fun hm => h2 (.inl hm)⟩
  · rw [hsame.entry]
    exact h.kernel

structure Sized (L : Layout) (E : Set ℕ) (r : Ram) (d sz : ℕ) : Prop where
  space : Space L E r d
  bound : sz < KERNBASE
  rest : ∀ v, pages sz ≤ v → r.user d v = none

theorem Sized.of_idle {E' : Set ℕ} {sz : ℕ} (h : Sized L E' r d sz) (hi : Idle L (E ∪ owned r d) r')
    (hp : ∀ x f, r.refs d x = some f → r'.page f = r.page f) (hE : ∀ f ∈ owned r d, f ∉ E) : Sized L E r' d sz := by
  refine ⟨h.space.of_idle hi hp hE, h.bound, ?_⟩
  rw [Ram.user_congr hp]
  exact h.rest

section Freevm

def tables (r : Ram) (d i : ℕ) : Set ℕ := {t | ∃ k, i ≤ k ∧ r.table d k = some t}

theorem tables_of_none {i : ℕ} (h : r.table d i = none) : tables r d i = tables r d (i + 1) := by
  ext f
  constructor
  · rintro ⟨k, hk, hm⟩
    refine ⟨k, ?_, hm⟩
    rcases hk.eq_or_lt with rfl | hk
    · rw [h] at hm
      cases hm
    · exact hk
  · rintro ⟨k, hk, hm⟩
    exact ⟨k, by omega, hm⟩

theorem tables_of_some {i : ℕ} (h : r.table d i = some t) : tables r d i = insert t (tables r d (i + 1)) := by
  ext f
  constructor
  · rintro ⟨k, hk, hm⟩
    rcases hk.eq_or_lt with rfl | hk
    · rw [h] at hm
      exact .inl (Option.some.inj hm).symm
    · exact .inr ⟨k, hk, hm⟩
  · rintro (rfl | ⟨k, hk, hm⟩)
    · exact ⟨i, le_refl i, h⟩
    · exact ⟨k, by omega, hm⟩

theorem freeTables_spec {n i : ℕ} (h : Idle L (insert d (E ∪ tables r d i)) r) (hd : d ∈ L.frames) (hn : i + n = 1024)
    (hne : ∀ i t, r.table d i = some t → t ≠ d ∧ t ∈ L.frames \ E) (hinj : ∀ i j t, r.table d i = some t → r.table d j = some t → i = j) :
    wp Φ (freeTables d n i) r (fun _ r' => Idle L (insert d E) r' ∧ Keeps L E r r') := by
  induction n generalizing r i with
  | zero =>
    refine ⟨?_, Keeps.refl L E r⟩
    have hset : tables r d i = ∅ := by
      ext f
      refine iff_of_false ?_ (Set.notMem_empty f)
      rintro ⟨k, hk, hm⟩
      have := Ram.table_lt hm
      omega
    rwa [hset, Set.union_empty] at h
  | succ n ih =>
    refine wp_word (Grants.usable r d (h.held hd (Set.mem_insert d _))) (wp_cond (fun hp => ?_) (fun hp => ?_))
    · have ht : r.table d i = some (frame (word (r.page d) i)) := table_present (by omega) hp
      generalize frame (word (r.page d) i) = t at ht ⊢
      obtain ⟨htd, hframe, hE⟩ := hne i t ht
      have hsame : (r.push t).table d = r.table d := TwoLevel.table_congr (Ram.SameTables.words (Ram.setPage_of_ne r htd.symm _))
      have htables : tables (r.push t) d (i + 1) = tables r d (i + 1) := by
        unfold tables
        rw [hsame]
      have hnot : t ∉ insert d (E ∪ tables r d (i + 1)) := by
        rintro (hm | hm | ⟨k, hk, hm⟩)
        · exact htd hm
        · exact hE hm
        · have := hinj i k t ht hm
          omega
      rw [tables_of_some ht, Set.union_insert, Set.insert_comm] at h
      have h1 := h.push hframe hnot
      rw [← htables] at h1
      refine wp_kfree (h.held hframe (Set.mem_insert t _)) (wp_mono (grants_mono L) _ ?_ (ih h1 (by omega) (by rwa [hsame]) (by rwa [hsame])))
      rintro _ r2 ⟨h2, hkeep⟩
      exact ⟨h2, (keeps_push hframe hE).trans hkeep⟩
    · rw [tables_of_none (table_absent hp)] at h
      exact ih h (by omega) hne hinj

theorem owned_of_user_none (hu : ∀ v, r.user d v = none) : owned r d = insert d (tables r d 0) := by
  ext f
  constructor
  · rintro ⟨x, hx⟩
    cases x with
    | dir => exact .inl (Option.some.inj hx).symm
    | table i => exact .inr ⟨i, Nat.zero_le i, hx⟩
    | user v =>
      rw [user_eq_none (hu v)] at hx
      cases hx
  · rintro (rfl | ⟨i, -, hx⟩)
    · exact ⟨.dir, rfl⟩
    · exact ⟨.table i, hx⟩

theorem freevm_spec (h : Space L E r d) : wp Φ (freevm d) r (fun _ r' => Idle L E r' ∧ Keeps L E r r') := by
  refine wp_seq (wp_mono (grants_mono L) _ ?_ (deallocuvm_spec h (Nat.succ_pos _) (le_refl KERNBASE)))
  rintro _ r1 ⟨-, h1, hturn, huser⟩
  have hnone : ∀ v, r1.user d v = none := by
    intro v
    rw [huser, cut]
    split_ifs with hv
    · rfl
    · have htarget : target v (r.entry d v) = none := if_neg (fun hm => hv ⟨Nat.zero_le v, show v * 4096 < 0x80000000 by omega⟩)
      rw [Ram.user, htarget]
      rfl
  have hidle := h1.idle
  rw [owned_of_user_none hnone, Set.union_insert] at hidle
  have hd := h1.mem (x := .dir) rfl
  refine wp_seq (wp_mono (grants_mono L) _ ?_ (freeTables_spec hidle hd.1 (Nat.zero_add 1024)
    (fun i t ht => ⟨?_, h1.mem (x := .table i) ht⟩) (fun i j t hi hj => h1.tree.inj hi hj)))
  · rintro _ r2 ⟨h2, hkeep⟩
    refine wp_last (wp_kfree (h2.held hd.1 (Set.mem_insert d E)) ⟨h2.push hd.1 hd.2, ?_⟩)
    exact (Keeps.trans hturn.keep hkeep).trans (keeps_push hd.1 hd.2)
  · rintro rfl
    exact h1.tree.root i ht

end Freevm

section Setupkvm

variable {n fuel : ℕ} {perm w : UInt32}

def Blank (r : Ram) (d v : ℕ) : Prop := ∀ u, v ≤ u → r.entry d u &&& PTE_P = 0

theorem setPte_kernel (h : Space L E r d) (ht : r.table d (v / 1024) = some t) (hv : 524288 ≤ v) (hw : w &&& PTE_U = 0) :
    Space L E (r.setPte t v w) d ∧ Keeps L E r (r.setPte t v w) ∧ (r.setPte t v w).user d = r.user d := by
  have hnone : ∀ x, target v x = none := fun x => if_neg (fun hm => absurd hm.1 (Nat.not_lt.mpr hv))
  refine ⟨h.setPte_same ht ((hnone w).trans (hnone _).symm) (fun _ => hw), fun g hg => ?_, ?_⟩
  · exact Ram.setPage_of_ne r (h.not_mem hg (x := .table (v / 1024)) ht).symm _
  · have huser : r.user d v = none := by
      rw [Ram.user, hnone]
      rfl
    rw [h.user_setPte ht, hnone, Option.map_none, ← huser, Function.update_eq_self]

theorem mappages_kernel (h : Space L E r d) (hv : 524288 ≤ v) (hlt : v + n < 1048576) (hb : Blank r d v) (hf : f + n < 1048576)
    (hperm : perm &&& PTE_U = 0) (hfuel : n < fuel) :
    wp Φ (mappagesLoop d ((v + n) * 4096) perm fuel (v * 4096) (f * 4096)) r (fun x r' =>
      Space L E r' d ∧ Keeps L E r r' ∧ r'.user d = r.user d ∧ (∀ i t, r.table d i = some t → r'.table d i = some t) ∧
      (x = -1 ∧ (Denies Φ ∨ r'.freelist = []) ∨
        x = 0 ∧ Blank r' d (v + n + 1) ∧ ∀ u, v ≤ u → u ≤ v + n → (r'.table d (u / 1024)).isSome)) := by
  induction fuel generalizing r v f n with
  | zero => omega
  | succ fuel ih =>
    refine wp_mappagesLoop h (v := v) (by omega) (by omega) (hb v (le_refl v)) ?_ ?_
    · intro r1 h1 hturn _ huser hout
      exact ⟨h1, hturn.keep, huser, hturn.table, .inl ⟨rfl, hout⟩⟩
    · intro r1 t h1 hturn hentry huser ht
      have hw : (UInt32.ofNat (f * 4096) ||| perm ||| PTE_P) &&& PTE_U = 0 := by
        have hor : (perm ||| PTE_P) &&& PTE_U = 0 := by
          rw [or_and, hperm]
          rfl
        rw [UInt32.or_assoc]
        exact (V2P_or_and (by decide)).trans hor
      obtain ⟨h2, hkeep2, huser2⟩ := setPte_kernel h1 ht hv hw
      have htable2 := h1.table_setPte (w := UInt32.ofNat (f * 4096) ||| perm ||| PTE_P) ht
      have hentry2 := h1.entry_setPte (w := UInt32.ofNat (f * 4096) ||| perm ||| PTE_P) ht
      generalize r1.setPte t v (UInt32.ofNat (f * 4096) ||| perm ||| PTE_P) = r2 at h2 hkeep2 huser2 htable2 hentry2 ⊢
      have hblank : Blank r2 d (v + 1) := by
        intro u hu
        rw [hentry2, Function.update_of_ne (by omega), hentry]
        exact hb u (by omega)
      have hmono : ∀ i t, r.table d i = some t → r2.table d i = some t := by
        intro i t' ht'
        rw [htable2]
        exact hturn.table i t' ht'
      have hkeep : Keeps L E r r2 := Keeps.trans hturn.keep hkeep2
      refine wp_cond (fun hlast => ?_) (fun hlast => ?_)
      · obtain rfl : n = 0 := by omega
        refine ⟨h2, hkeep, huser2.trans huser, hmono, .inr ⟨rfl, hblank, fun u h3 h4 => ?_⟩⟩
        obtain rfl : u = v := by omega
        rw [htable2, ht]
        rfl
      · have hnext : (v * 4096 + PGSIZE) % 0x100000000 = (v + 1) * 4096 ∧ (f * 4096 + PGSIZE) % 0x100000000 = (f + 1) * 4096 := by
          change (v * 4096 + 4096) % 4294967296 = _ ∧ (f * 4096 + 4096) % 4294967296 = _
          omega
        have hend : (v + n) * 4096 = (v + 1 + (n - 1)) * 4096 := by omega
        rw [hnext.1, hnext.2, hend]
        refine wp_mono (grants_mono L) _ ?_ (ih h2 (by omega) (by omega) hblank (by omega) (by omega))
        rintro x r3 ⟨h3, hkeep3, huser3, hmono3, hx⟩
        refine ⟨h3, hkeep.trans hkeep3, huser3.trans (huser2.trans huser), fun i t' ht' => hmono3 i t' (hmono i t' ht'), hx.imp_right ?_⟩
        rintro ⟨rfl, hblank3, hsome⟩
        refine ⟨rfl, fun u hu => hblank3 u (by omega), fun u h4 h5 => ?_⟩
        by_cases e : u = v
        · rw [e, hmono3 _ t (by rw [htable2]; exact ht)]
          rfl
        · exact hsome u (by omega) (by omega)

structure Kmap.Fits (lo : ℕ) (k : Kmap) : Prop where
  virt : k.virt % 4096 = 0
  phys : k.physStart % 4096 = 0
  size : k.size % 4096 = 0
  pos : 0 < k.size
  low : lo * 4096 ≤ k.virt
  high : k.virt + k.size ≤ 0x100000000
  fits : k.physStart + k.size ≤ 0x100000000
  perm : k.perm &&& PTE_U = 0

def Ascending : ℕ → List Kmap → Prop
  | _, [] => True
  | lo, k :: ks => k.Fits lo ∧ Ascending ((k.virt + k.size) / 4096) ks

theorem setupkvmLoop_spec {ks : List Kmap} {lo : ℕ} (hks : Ascending lo ks) (h : Space L E r d) (hlo : 524288 ≤ lo)
    (hb : Blank r d lo) (hnone : ∀ v, r.user d v = none) :
    wp Φ (setupkvmLoop d ks) r (fun x r' => Keeps L E r r' ∧ (x = none ∧ Idle L E r' ∧ Short (Denies Φ) L E 0 ∨
      x = some d ∧ Space L E r' d ∧ r'.user d = r.user d ∧ (∀ i t, r.table d i = some t → r'.table d i = some t) ∧
      ∀ k ∈ ks, ∀ u, k.virt ≤ u * 4096 → u * 4096 < k.virt + k.size → (r'.table d (u / 1024)).isSome)) := by
  induction ks generalizing r lo with
  | nil => exact ⟨.refl L E r, .inr ⟨rfl, h, rfl, fun _ _ => id, fun k hk => absurd hk List.not_mem_nil⟩⟩
  | cons k ks ih =>
    obtain ⟨hk, hks⟩ := hks
    have h1 := hk.virt
    have h2 := hk.phys
    have h3 := hk.size
    have h4 := hk.pos
    have h5 := hk.low
    have h6 := hk.high
    have h7 := hk.fits
    have ha : PGROUNDDOWN k.virt = k.virt / 4096 * 4096 := rfl
    have hlast : PGROUNDDOWN ((k.virt + k.size + 0xFFFFFFFF) % 0x100000000) = (k.virt / 4096 + (k.size / 4096 - 1)) * 4096 := by
      unfold PGROUNDDOWN
      omega
    have hpa : k.physStart = k.physStart / 4096 * 4096 := by omega
    refine wp_seq ?_
    rw [mappages, ha, hlast, hpa]
    refine wp_mono (grants_mono L) _ ?_ (mappages_kernel h (by omega) (by omega) (fun u hu => hb u (by omega)) (by omega) hk.perm (by omega))
    have hnone1 : ∀ {r1 : Ram}, r1.user d = r.user d → ∀ v, r1.user d v = none := fun he v => by rw [he, hnone]
    rintro x r1 ⟨hs1, hkeep1, huser1, hmono1, ⟨rfl, hout⟩ | ⟨rfl, hblank1, hsome1⟩⟩
    · refine wp_cond (fun _ => ?_) (fun hx => absurd (by decide) hx)
      refine wp_seq (wp_mono (grants_mono L) _ ?_ (freevm_spec hs1))
      rintro _ r2 ⟨h2, hkeep2⟩
      exact ⟨hkeep1.trans hkeep2, .inl ⟨rfl, h2, hs1.short (fun v _ => hnone1 huser1 v) hout⟩⟩
    · refine wp_cond (fun hx => absurd hx (by decide)) (fun _ => ?_)
      refine wp_mono (grants_mono L) _ ?_ (ih hks hs1 (by omega) (fun u hu => hblank1 u (by omega)) (hnone1 huser1))
      rintro x r2 ⟨hkeep2, ⟨rfl, h2⟩ | ⟨rfl, hs2, huser2, hmono2, hsome2⟩⟩
      · exact ⟨hkeep1.trans hkeep2, .inl ⟨rfl, h2⟩⟩
      · refine ⟨hkeep1.trans hkeep2, .inr ⟨rfl, hs2, huser2.trans huser1, fun i t ht => hmono2 i t (hmono1 i t ht), fun k' hk' u h8 h9 => ?_⟩⟩
        rcases List.mem_cons.mp hk' with rfl | hk'
        · obtain ⟨t, ht⟩ := Option.isSome_iff_exists.mp (hsome1 u (by omega) (by omega))
          rw [hmono2 _ t ht]
          rfl
        · exact hsome2 k' hk' u h8 h9

theorem Kmap.size_of_le {v b e : ℕ} {perm : UInt32} (h : b ≤ e) (he : e < 0x100000000) : Kmap.size ⟨v, b, e, perm⟩ = e - b := by
  change (e + 0x100000000 - b) % 0x100000000 = e - b
  omega

theorem ascending_kmap (L : Layout) : Ascending 524288 (kmap L) := by
  have h1 := L.aligned
  have h2 : 0x100000 < L.data := L.text
  have h3 := L.order
  have h4 : L.kend < 0xE000000 := L.room
  have e1 : Kmap.size ⟨0x80000000, 0, 0x100000, PTE_W⟩ = 0x100000 := rfl
  have e2 : Kmap.size ⟨0x80000000 + 0x100000, 0x100000, L.data, 0⟩ = L.data - 0x100000 := Kmap.size_of_le h2.le (by omega)
  have e3 : Kmap.size ⟨0x80000000 + L.data, L.data, 0xE000000, PTE_W⟩ = 0xE000000 - L.data :=
    Kmap.size_of_le (by omega) (by omega)
  have e4 : Kmap.size ⟨0xFE000000, 0xFE000000, 0, PTE_W⟩ = 0x2000000 := rfl
  change Kmap.Fits 524288 ⟨0x80000000, 0, 0x100000, PTE_W⟩ ∧ Kmap.Fits ((0x80000000 + Kmap.size ⟨0x80000000, 0, 0x100000, PTE_W⟩) / 4096)
    ⟨0x80000000 + 0x100000, 0x100000, L.data, 0⟩ ∧
    Kmap.Fits ((0x80000000 + 0x100000 + Kmap.size ⟨0x80000000 + 0x100000, 0x100000, L.data, 0⟩) / 4096) ⟨0x80000000 + L.data, L.data, 0xE000000, PTE_W⟩ ∧
    Kmap.Fits ((0x80000000 + L.data + Kmap.size ⟨0x80000000 + L.data, L.data, 0xE000000, PTE_W⟩) / 4096) ⟨0xFE000000, 0xFE000000, 0, PTE_W⟩ ∧ True
  rw [e1, e2, e3]
  have hw : PTE_W &&& PTE_U = 0 := rfl
  have h0 : 0 &&& PTE_U = 0 := rfl
  refine ⟨⟨?_, ?_, ?_, ?_, ?_, ?_, ?_, hw⟩, ⟨?_, ?_, ?_, ?_, ?_, ?_, ?_, h0⟩, ⟨?_, ?_, ?_, ?_, ?_, ?_, ?_, hw⟩,
    ⟨?_, ?_, ?_, ?_, ?_, ?_, ?_, hw⟩, trivial⟩
  all_goals simp only [e1, e2, e3, e4]
  all_goals omega

structure Fresh (L : Layout) (E : Set ℕ) (r : Ram) (d : ℕ) : Prop where
  space : Space L E r d
  user : ∀ v, r.user d v = none
  devices : ∀ i, 1016 ≤ i → i < 1024 → (r.table d i).isSome

theorem setupkvm_spec (h : Idle L E r) :
    wp Φ (setupkvm L) r (fun x r' => Keeps L E r r' ∧
      (x = none ∧ Idle L E r' ∧ Short (Denies Φ) L E 0 ∨ ∃ d, x = some d ∧ Fresh L E r' d)) := by
  refine wp_kalloc L (fun r1 hp1 hl1 hout => ?_) (fun d r1 htake => ?_)
  · exact ⟨fun g _ => by rw [hp1], .inl ⟨rfl, h.congr hl1, (h.congr hl1).short hout 0⟩⟩
  · obtain ⟨hd, hE, h1⟩ := h.pop htake
    refine wp_memset (Grants.usable r1 d (h1.held hd (Set.mem_insert d E))) ?_
    have h2 : Idle L (insert d E) (r1.setPage d (fun _ => 0)) := h1.congr rfl
    obtain ⟨h3, -, hentry, huser⟩ := h2.space hd hE (Ram.setPage_self ..)
    have hkeep : Keeps L E r (r1.setPage d (fun _ => 0)) := (keeps_takes htake hd hE).trans (keeps_setPage hd hE _)
    have hblank : Blank (r1.setPage d (fun _ => 0)) d 524288 := by
      intro u _
      rw [hentry]
      rfl
    refine wp_mono (grants_mono L) _ ?_ (setupkvmLoop_spec (ascending_kmap L) h3 (le_refl _) hblank huser)
    rintro x r2 ⟨hkeep2, ⟨rfl, h4⟩ | ⟨rfl, hs4, huser4, -, hsome4⟩⟩
    · exact ⟨hkeep.trans hkeep2, .inl ⟨rfl, h4⟩⟩
    · refine ⟨hkeep.trans hkeep2, .inr ⟨d, rfl, hs4, fun v => by rw [huser4, huser], fun i h5 h6 => ?_⟩⟩
      have hi := hsome4 ⟨DEVSPACE, DEVSPACE, 0, PTE_W⟩ (by simp [kmap]) (i * 1024) (show 0xFE000000 ≤ i * 1024 * 4096 by omega)
        (show i * 1024 * 4096 < 0xFE000000 + 0x2000000 by omega)
      rwa [Nat.mul_div_cancel i (by decide)] at hi

end Setupkvm

section Copyuvm

variable {p sz fuel : ℕ} {w : UInt32} {m : Mem}

def Apart (L : Layout) (E : Set ℕ) (r : Ram) (p : ℕ) : Prop := ∀ x f, r.refs p x = some f → f < 57344 ∧ f ∉ L.frames \ E

theorem Space.apart (h : Space L E r p) : Apart L (E ∪ owned r p) r p :=
  fun x _ hx => ⟨h.lt hx, fun hm => hm.2 (.inr ⟨x, hx⟩)⟩

namespace Apart

theorem same (h : Apart L E r p) (hk : Keeps L E r r') : Ram.SameTables r r' p := .of_refs (fun x f hx => hk f (h x f hx).2)

theorem user (h : Apart L E r p) (hk : Keeps L E r r') : r'.user p = r.user p := Ram.user_congr (fun x f hx => hk f (h x f hx).2)

theorem owned (h : Apart L E r p) (hk : Keeps L E r r') : Vm.owned r' p = Vm.owned r p := by
  unfold Vm.owned
  rw [(h.same hk).refs]

theorem congr (h : Apart L E r p) (hk : Keeps L E r r') : Apart L E r' p := by
  unfold Apart
  rw [(h.same hk).refs]
  exact h

end Apart

theorem PTE_FLAGS_lt (w : UInt32) : (PTE_FLAGS w).toNat < 4096 := by
  rw [PTE_FLAGS, UInt32.toNat_and]
  exact lt_of_le_of_lt Nat.and_le_right (by decide)

def Copied (lo size : ℕ) (up u u' : ℕ → Option (UInt32 × Mem)) : Prop := ∀ v,
  (lo ≤ v ∧ v * 4096 < size → ∃ f w m, up v = some (w, m) ∧ u' v = some (pte f (PTE_FLAGS w), m)) ∧ (¬ (lo ≤ v ∧ v * 4096 < size) → u' v = u v)

theorem Copied.step {lo size : ℕ} {up u u' : ℕ → Option (UInt32 × Mem)}
    (h : Copied (lo + 1) size up (Function.update u lo (some (pte f (PTE_FLAGS w), m))) u') (hp : up lo = some (w, m))
    (hlt : lo * 4096 < size) : Copied lo size up u u' := by
  intro v
  by_cases e : v = lo
  · subst e
    refine ⟨fun _ => ⟨f, w, m, hp, ?_⟩, fun hv => absurd ⟨le_refl v, hlt⟩ hv⟩
    rw [(h v).2 (by omega), Function.update_self]
  · refine ⟨fun hv => (h v).1 ⟨by omega, hv.2⟩, fun hv => ?_⟩
    rw [(h v).2 (by omega), Function.update_of_ne e]

theorem present_of_user (h : (r.user p v).isSome) : v < 524288 ∧ r.entry p v &&& PTE_P ≠ 0 := by
  by_contra hn
  have hz : target v (r.entry p v) = none := if_neg hn
  rw [Ram.user, hz] at h
  cases h

theorem user_eq_some (h : r.user d v = some (w, m)) : r.entry d v = w ∧ r.page (frame w) = m ∧ r.refs d (.user v) = some (frame w) := by
  obtain ⟨hv, hp⟩ := present_of_user (Option.isSome_iff_exists.mpr ⟨_, h⟩)
  have ht : target v (r.entry d v) = some (frame (r.entry d v)) := if_pos ⟨hv, hp⟩
  rw [Ram.user, ht] at h
  cases h
  exact ⟨rfl, rfl, ht⟩

theorem present_of_eq (h : r.user d v = some (w, m)) : w &&& PTE_P ≠ 0 := by
  obtain ⟨-, hp⟩ := present_of_user (Option.isSome_iff_exists.mpr ⟨_, h⟩)
  rw [(user_eq_some h).1] at hp
  exact hp

theorem table_of_user (h : (r.user p v).isSome) : ∃ t, r.table p (v / 1024) = some t := by
  cases ht : r.table p (v / 1024) with
  | none =>
    rw [user_of_none ht] at h
    cases h
  | some t => exact ⟨t, rfl⟩

def Halts (Φ : Spec sig Ram) : Prop := ∀ e r (Q : Unit → Ram → Prop), Φ (.stop e) r Q

theorem wp_lookup {α : Type} {Q : α → Ram → Prop} {k : Option (ℕ × ℕ) → Code α} (hp : ∀ x f, r.refs p x = some f → Held L r f)
    (hv : v < 524288) (hpres : (r.user p v).isSome ∨ Halts Φ) (hnone : Halts Φ → wp Φ (k none) r Q)
    (hsome : ∀ t, r.table p (v / 1024) = some t → wp Φ (k (some (t, v % 1024))) r Q) :
    wp Φ (walkpgdir p (v * 4096) false >>= k) r Q := by
  refine wp_walk (Grants.usable r p (hp .dir p rfl)) (v := v) (by omega) (by omega) (fun hn => ?_) hsome
  refine hnone (hpres.resolve_left ?_)
  rw [user_of_none hn]
  rintro ⟨⟩

theorem copyuvmLoop_spec (h : Space L E r d) (hp : Apart L E r p) (hfr : owned r p ⊆ L.frames) (hsz : sz ≤ 0x80000000)
    (hpres : ∀ u, u * 4096 < sz → (r.user p u).isSome ∨ Halts Φ)
    (hnone : ∀ u, v ≤ u → r.user d u = none) (hf : 524288 < fuel + v) (hv : v ≤ 524288) :
    wp Φ (copyuvmLoop d p sz fuel (v * 4096)) r (fun ok r' => Space L E r' d ∧ Turn L E d r r' ∧
      (ok = true → Copied v sz (r.user p) (r.user d) (r'.user d)) ∧
      (ok = false → ∀ n, pages sz ≤ n → (∀ u, n ≤ u → r.user d u = none) → Short (Denies Φ) L E n)) := by
  induction fuel generalizing r v with
  | zero => omega
  | succ fuel ih =>
    refine wp_cond (fun hlt => ?_) (fun hge => ?_)
    · have hv' : v < 524288 := by omega
      have hnext : (v * 4096 + PGSIZE) % 0x100000000 = (v + 1) * 4096 := by
        change (v * 4096 + 4096) % 4294967296 = _
        omega
      have hheld : ∀ x f, r.refs p x = some f → Held L r f := by
        intro x f hx
        have hf := hfr ⟨x, hx⟩
        exact h.held_of_mem hf (not_not.mp (fun hE => (hp x f hx).2 ⟨hf, hE⟩))
      refine wp_lookup hheld hv' (hpres v hlt) (fun hhalt => hhalt _ _ _) (fun t ht => ?_)
      refine wp_word (Grants.usable r t (hheld (.table (v / 1024)) t ht)) ?_
      rw [← Ram.entry_of_some ht]
      refine wp_cond (fun hz => ?_) (fun hpv => ?_)
      · refine (hpres v hlt).resolve_left ?_ _ _ _
        rw [user_of_absent hz]
        rintro ⟨⟩
      have hx : r.refs p (.user v) = some (frame (r.entry p v)) := if_pos ⟨hv', hpv⟩
      have huv : r.user p v = some (r.entry p v, r.page (frame (r.entry p v))) := by
        rw [Ram.user, show target v (r.entry p v) = _ from hx]
        rfl
      refine wp_kalloc L (fun r1 hp1 hl1 hout => ?_) (fun f r1 htake => ?_)
      · have hsame : Ram.SameTables r r1 d := .of_refs (fun _ g _ => by rw [hp1])
        have huser1 : r1.user d = r.user d := Ram.user_congr (fun _ g _ => by rw [hp1])
        refine ⟨h.congr hsame hl1, .of_same hsame (fun g _ => by rw [hp1]), ?_, fun _ n _ hn => ?_⟩
        · rintro ⟨⟩
        · exact (h.congr hsame hl1).short (by rwa [huser1]) hout
      · obtain ⟨hheldf, hE, h2, hturn2, huser2⟩ := take_page h htake (r1.page (frame (r.entry p v)))
        have hframe := hheldf.1
        have hne : frame (r.entry p v) ≠ f := fun e => (hheld _ _ hx).2 (e ▸ htake.mem)
        have hsrc : Held L r1 (frame (r.entry p v)) :=
          ⟨(hheld _ _ hx).1, fun hm => (hheld _ _ hx).2 ((htake.mem_iff _).mpr (.inr hm))⟩
        refine wp_memmove hheldf hsrc (wp_seq ?_)
        generalize hr2 : r1.setPage f (r1.page (frame (r.entry p v))) = r2 at h2 hturn2 huser2
        have hcopy : r2.page f = r.page (frame (r.entry p v)) := by rw [← hr2, Ram.setPage_self, htake.page _ hne]
        have hfree : r2.refs d (.user v) = none := user_eq_none (by rw [huser2]; exact hnone v (le_refl v))
        refine wp_mono (grants_mono L) _ ?_ (map_user h2 hframe hE hv' hfree (PTE_FLAGS_lt _))
        rintro x r3 (⟨rfl, h3, hturn3, huser3, hout⟩ | ⟨rfl, h3, hturn3, huser3⟩)
        · refine wp_cond (fun _ => ?_) (fun hx => absurd (by decide) hx)
          obtain ⟨h4, hturn4, -⟩ := push_page h3 hframe hE
          refine wp_kfree (h3.held_of_mem hframe (Set.mem_insert f E))
            ⟨h4, (hturn2.trans hturn3.mono).trans hturn4, ?_, fun _ n _ hn => ?_⟩
          · rintro ⟨⟩
          · exact h3.short_insert (by rwa [huser3, huser2]) hout
        · refine wp_cond (fun hx => absurd hx (by decide)) (fun _ => ?_)
          rw [hnext]
          rw [hcopy, huser2] at huser3
          have hturn := hturn2.trans hturn3
          have hparent := hp.user hturn.keep
          refine wp_mono (grants_mono L) _ ?_ (ih h3 (hp.congr hturn.keep) (by rwa [hp.owned hturn.keep]) (fun u hu => ?_) (fun u hu => ?_) (by omega) (by omega))
          · rintro ok r4 ⟨h4, hturn4, hx, hshort⟩
            refine ⟨h4, hturn.trans hturn4, fun hok => ?_, fun hok n hle hn => hshort hok n hle (fun u hu => ?_)⟩
            · have hcopied := hx hok
              rw [hparent, huser3] at hcopied
              exact hcopied.step huv hlt
            · have hvn := lt_pages.mpr hlt
              rw [huser3, Function.update_of_ne (by omega)]
              exact hn u hu
          · rw [hparent]
            exact hpres u hu
          · rw [huser3, Function.update_of_ne (by omega)]
            exact hnone u (by omega)
    · refine ⟨h, .refl .., fun _ u => ⟨fun hu => ?_, fun _ => rfl⟩, ?_⟩
      · omega
      · rintro ⟨⟩

theorem copyuvm_spec (h : Idle L E r) (hp : Apart L E r p) (hfr : owned r p ⊆ L.frames) (hsz : sz ≤ 0x80000000)
    (hpres : ∀ u, u * 4096 < sz → (r.user p u).isSome ∨ Halts Φ) :
    wp Φ (copyuvm L p sz) r (fun x r' => Keeps L E r r' ∧ (x = none ∧ Idle L E r' ∧ Short (Denies Φ) L E (pages sz) ∨
      ∃ d, x = some d ∧ Space L E r' d ∧ Copied 0 sz (r.user p) (fun _ => none) (r'.user d))) := by
  refine wp_seq (wp_mono (grants_mono L) _ ?_ (setupkvm_spec h))
  rintro x r1 ⟨hkeep1, ⟨rfl, h1, hshort⟩ | ⟨d, rfl, hfresh⟩⟩
  · exact ⟨hkeep1, .inl ⟨rfl, h1, hshort.mono (Nat.zero_le _)⟩⟩
  · have hparent := hp.user hkeep1
    have hloop : wp Φ (copyuvmLoop d p sz 0x100001 (0 * 4096)) r1 _ := copyuvmLoop_spec hfresh.space (hp.congr hkeep1) (by rwa [hp.owned hkeep1]) hsz
      (by rwa [hparent]) (fun u _ => hfresh.user u) (by omega) (Nat.zero_le _)
    rw [hparent, show r1.user d = fun _ => none from funext hfresh.user, Nat.zero_mul] at hloop
    refine wp_seq (wp_mono (grants_mono L) _ ?_ hloop)
    rintro ok r2 ⟨h2, hturn, hcopied, hshort⟩
    refine wp_cond (fun hok => ?_) (fun hok => ?_)
    · exact ⟨hkeep1.trans hturn.keep, .inr ⟨d, rfl, h2, hcopied hok⟩⟩
    · refine wp_seq (wp_mono (grants_mono L) _ ?_ (freevm_spec h2))
      rintro _ r3 ⟨h3, hkeep3⟩
      refine ⟨hkeep1.trans (Keeps.trans hturn.keep hkeep3), .inl ⟨rfl, h3, ?_⟩⟩
      exact hshort (Bool.not_eq_true _ ▸ hok) _ (le_refl _) (fun u _ => rfl)

theorem copyuvm_succeeds (h : Idle L E r) (hp : Apart L E r p) (hfr : owned r p ⊆ L.frames) (hsz : sz ≤ 0x80000000)
    (hpres : ∀ u, u * 4096 < sz → (r.user p u).isSome) (hd : r.denied = []) (hn : 1026 + pages sz < r.freelist.length) :
    ∃ d r', run (exec L) (copyuvm L p sz) r = .ok (some d, r') ∧ Space L E r' d ∧
      Copied 0 sz (r.user p) (fun _ => none) (r'.user d) := by
  have hwp : wp (safe L) (copyuvm L p sz) r _ := wp_undenied
    (Q := fun D x r' => Keeps L E r r' ∧ (x = none ∧ Idle L E r' ∧ Short D L E (pages sz) ∨
      ∃ d, x = some d ∧ Space L E r' d ∧ Copied 0 sz (r.user p) (fun _ => none) (r'.user d)))
    (fun Φ _ => copyuvm_spec h hp hfr hsz (fun u hu => .inl (hpres u hu)))
  obtain ⟨x, r', hrun, ⟨-, ⟨rfl, -, hshort⟩ | ⟨d, rfl, hs, hcopied⟩⟩, -⟩ := run_of_wp hwp
  · exact absurd hshort (h.not_short hd hn)
  · exact ⟨d, r', hrun, hs, hcopied⟩

end Copyuvm

section OnePage

def threePages : Layout where
  data := 0x101000
  kend := 0xDFFD000
  aligned := by decide
  text := by decide
  order := by decide
  room := by decide

theorem mem_threePages {f : ℕ} : f ∈ threePages.frames ↔ f = 57341 ∨ f = 57342 ∨ f = 57343 := by
  change 0xDFFD000 ≤ f * 4096 ∧ f * 4096 < 0xE000000 ↔ _
  omega

def onePage : Ram :=
  ((({} : Ram).setPage 57341 (setWord (fun _ => 0) 0 (V2P 57342 ||| 7))).setPte 57342 0 (pte 57343 (PTE_W ||| PTE_U)))

theorem onePage_space : Space threePages ∅ onePage 57341 ∧
    onePage.user 57341 = Function.update (fun _ : ℕ => none) 0 (some (pte 57343 (PTE_W ||| PTE_U), fun _ => 0)) := by
  have hidle : Idle threePages (insert 57341 (insert 57342 (insert 57343 ∅))) {} := by
    refine ⟨fun f => iff_of_false List.not_mem_nil ?_, List.nodup_nil⟩
    rw [Set.mem_sdiff, mem_threePages]
    simp only [Set.mem_insert_iff, Set.mem_empty_iff_false]
    omega
  obtain ⟨h0, htable0, -, huser0⟩ := hidle.space (mem_threePages.mpr (.inl rfl)) (by simp) rfl
  have hw : child 0 (V2P 57342 ||| 7) = some 57342 := by
    rw [child, frame_V2P_or (by decide) (by decide), V2P_or_and (by decide)]
    exact if_pos (by decide)
  obtain ⟨h1, htable1, -, huser1⟩ := h0.attach (mem_threePages.mpr (.inr (.inl rfl))) (by simp) (htable0 0) hw rfl
  have ht : (({} : Ram).setPage 57341 (setWord (fun _ => 0) 0 (V2P 57342 ||| 7))).table 57341 (0 / 1024) = some 57342 := by
    rw [htable1]
    exact Function.update_self ..
  have huser : (({} : Ram).setPage 57341 (setWord (fun _ => 0) 0 (V2P 57342 ||| 7))).user 57341 = fun _ => none := huser1.trans (funext huser0)
  have htarget : target 0 (pte 57343 (PTE_W ||| PTE_U)) = some 57343 := target_pte (by decide) (by decide) (by decide)
  refine ⟨h1.grant ht (mem_threePages.mpr (.inr (.inr rfl))) (Set.notMem_empty _) (by decide) (user_eq_none (by rw [huser])) htarget, ?_⟩
  rw [onePage, h1.user_setPte ht, htarget, huser]
  rfl

def manyPages : Layout := { threePages with
  kend := 0x200000
  order := by decide
  room := by decide }

def spare (n : ℕ) (m : Mem) : Ram := { onePage.setPage 57343 m with freelist := List.range' 512 n }

theorem spare_space {n : ℕ} (m : Mem) (hn : n ≤ 56829) (hE : ∀ f, f ∈ E ↔ 512 + n ≤ f ∧ f < 57341) :
    Space manyPages E (spare n m) 57341 ∧
      (spare n m).user 57341 = Function.update (fun _ : ℕ => none) 0 (some (pte 57343 (PTE_W ||| PTE_U), m)) := by
  have huser0 : onePage.user 57341 0 = some (pte 57343 (PTE_W ||| PTE_U), fun _ => 0) := by
    rw [onePage_space.2]
    exact Function.update_self ..
  obtain ⟨hentry, -, hx⟩ := user_eq_some huser0
  rw [pte, frame_V2P_or (by decide) (by decide)] at hx
  obtain ⟨hspace, -, huser⟩ := onePage_space.1.write hx m
  refine ⟨hspace.spare rfl (fun f => ?_) (fun f hf => ?_) List.nodup_range', huser.trans ?_⟩
  · rw [Set.sdiff_empty, mem_threePages, List.mem_range'_1, Set.mem_sdiff, hE]
    change (0x200000 ≤ f * 4096 ∧ f * 4096 < 0xE000000) ∧ _ ↔ _
    omega
  · rw [List.mem_range'_1] at hf
    rw [Set.sdiff_empty, mem_threePages]
    omega
  · rw [onePage_space.2, hentry, Function.update_idem]

end OnePage

end EnhancedXv6.Vm
