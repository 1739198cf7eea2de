
import EnhancedXv6.Ownership
import EnhancedXv6.TwoLevel
import EnhancedXv6.Vm

namespace EnhancedXv6.Vm

open Function (update update_apply update_eq_self update_of_ne update_self)
open Command Bytes Ownership

section Bits

variable {f : ℕ} {a m w : UInt32}

theorem toNat_V2P (hf : f < 1048576) : (V2P f).toNat = f * 4096 := by
  rw [V2P, UInt32.toNat_ofNat']
  omega

theorem toNat_V2P_or (hf : f < 1048576) (ha : a.toNat < 4096) : (V2P f ||| a).toNat = f * 4096 + a.toNat := by
  have hshift : f * 4096 = f <<< 12 := by rw [Nat.shiftLeft_eq]
  rw [UInt32.toNat_or, toNat_V2P hf, hshift, Nat.shiftLeft_add_eq_or_of_lt ha]

theorem frame_V2P_or (hf : f < 1048576) (ha : a.toNat < 4096) : frame (V2P f ||| a) = f := by
  rw [frame, toNat_V2P_or hf ha]
  omega

theorem V2P_mod (f : ℕ) : V2P f = V2P (f % 1048576) := by
  rw [V2P, V2P, ← UInt32.toNat_inj, UInt32.toNat_ofNat', UInt32.toNat_ofNat']
  omega

theorem V2P_or_and (hm : m.toNat < 4096) : (V2P f ||| a) &&& m = a &&& m := by
  rw [V2P_mod]
  generalize hf : f % 1048576 = f
  rw [← UInt32.toNat_inj, UInt32.toNat_and, UInt32.toNat_or, UInt32.toNat_and, toNat_V2P (hf ▸ Nat.mod_lt _ (by decide))]
  apply Nat.eq_of_testBit_eq
  intro i
  rw [Nat.testBit_and, Nat.testBit_or, Nat.testBit_and]
  by_cases hi : i < 12
  · have hz : (f * 4096).testBit i = false := by
      rw [Nat.mul_comm, show 4096 = 2 ^ 12 from rfl, Nat.testBit_two_pow_mul]
      simp [hi]
    rw [hz, Bool.false_or]
  · have hz : m.toNat.testBit i = false :=
      Nat.testBit_lt_two_pow (lt_of_lt_of_le hm (Nat.pow_le_pow_right (show 0 < 2 by decide) (Nat.le_of_not_lt hi)))
    rw [hz, Bool.and_false, Bool.and_false]

theorem frame_lt (w : UInt32) : frame w < 1048576 := by
  have := w.toNat_lt
  rw [frame]
  omega

theorem frame_clear (w : UInt32) : frame (w &&& ~~~ PTE_U) = frame w := by
  have h := frame_lt w
  have hnot : (~~~ PTE_U).toNat >>> 12 = 2 ^ 20 - 1 := rfl
  have hshift : ∀ x, x / 4096 = x >>> 12 := fun x => (Nat.shiftRight_eq_div_pow x 12).symm
  rw [frame, frame, UInt32.toNat_and, hshift, hshift, Nat.shiftRight_and_distrib, hnot, Nat.and_two_pow_sub_one_eq_mod, ← hshift]
  exact Nat.mod_eq_of_lt h

theorem clear_and_U (w : UInt32) : w &&& ~~~ PTE_U &&& PTE_U = 0 := by
  have hz : (~~~ PTE_U) &&& PTE_U = 0 := rfl
  rw [UInt32.and_assoc, hz, UInt32.and_zero]

theorem or_and (a b m : UInt32) : (a ||| b) &&& m = (a &&& m) ||| (b &&& m) := by
  rw [← UInt32.toNat_inj, UInt32.toNat_and, UInt32.toNat_or, UInt32.toNat_or, UInt32.toNat_and, UInt32.toNat_and]
  exact Nat.and_or_distrib_right ..

theorem clear_and_P (w : UInt32) : w &&& ~~~ PTE_U &&& PTE_P = w &&& PTE_P := by
  rw [UInt32.and_assoc]
  rfl

end Bits

def Layout.frames (L : Layout) : Set ℕ := {f | L.kend ≤ f * 4096 ∧ f * 4096 < PHYSTOP}

theorem Layout.frames_lt {L : Layout} {f : ℕ} (h : f ∈ L.frames) : f < 57344 := by
  have hlt : f * 4096 < 0xE000000 := h.2
  omega

def child (i : ℕ) (w : UInt32) : Option ℕ := if i < 1024 ∧ w &&& PTE_P ≠ 0 then some (frame w) else none

inductive Ref
  | dir
  | table (i : ℕ)
  | user (v : ℕ)
  deriving DecidableEq

def target (v : ℕ) (w : UInt32) : Option ℕ := if v < 524288 ∧ w &&& PTE_P ≠ 0 then some (frame w) else none

namespace Ram

def words (r : Ram) (f j : ℕ) : UInt32 := word (r.page f) j

def table (r : Ram) (d i : ℕ) : Option ℕ := TwoLevel.table child r.words d i

def entry (r : Ram) (d v : ℕ) : UInt32 := (TwoLevel.leaf child r.words d (v / 1024) (v % 1024)).getD 0

def user (r : Ram) (d v : ℕ) : Option (UInt32 × Mem) := (target v (r.entry d v)).map (fun f => (r.entry d v, r.page f))

def refs (r : Ram) (d : ℕ) : Ref → Option ℕ
  | .dir => some d
  | .table i => r.table d i
  | .user v => target v (r.entry d v)

variable {r r' : Ram} {d f i j t v : ℕ} {w : UInt32}

theorem table_lt (h : r.table d i = some t) : i < 1024 := by
  unfold table TwoLevel.table child at h
  split_ifs at h with hi
  exact hi.1

theorem entry_of_some (h : r.table d (v / 1024) = some t) : r.entry d v = word (r.page t) (v % 1024) := by
  rw [entry, TwoLevel.leaf_eq_some h]
  rfl

theorem entry_of_none (h : r.table d (v / 1024) = none) : r.entry d v = 0 := by
  rw [entry, TwoLevel.leaf_eq_none h]
  rfl

structure SameTables (r r' : Ram) (d : ℕ) : Prop where
  dir : r'.page d = r.page d
  tables : ∀ i t, r.table d i = some t → r'.page t = r.page t

theorem SameTables.of_refs (h : ∀ x f, r.refs d x = some f → r'.page f = r.page f) : SameTables r r' d :=
  ⟨h .dir d rfl, fun i t ht => h (.table i) t ht⟩

namespace SameTables

theorem words (h : r'.page f = r.page f) : r'.words f = r.words f := by
  funext j
  rw [Ram.words, Ram.words, h]

theorem table (h : SameTables r r' d) : r'.table d = r.table d := TwoLevel.table_congr (words h.dir)

theorem entry (h : SameTables r r' d) : r'.entry d = r.entry d := by
  have hl : TwoLevel.leaf child r'.words d = TwoLevel.leaf child r.words d :=
    TwoLevel.leaf_congr (words h.dir) (fun i t ht => words (h.tables i t ht))
  funext v
  rw [Ram.entry, Ram.entry, hl]

theorem refs (h : SameTables r r' d) : r'.refs d = r.refs d := by
  funext x
  cases x with
  | dir => rfl
  | table i => exact congrFun h.table i
  | user v => exact congrArg (target v) (congrFun h.entry v)

end SameTables

theorem user_congr (h : ∀ x f, r.refs d x = some f → r'.page f = r.page f) : r'.user d = r.user d := by
  funext v
  rw [user, user, (SameTables.of_refs h).entry]
  cases e : target v (r.entry d v) with
  | none => rfl
  | some f => rw [Option.map_some, Option.map_some, h (.user v) f e]

theorem setPage_of_ne (r : Ram) {f g : ℕ} (h : g ≠ f) (m : Mem) : (r.setPage f m).page g = r.page g := update_of_ne h ..

theorem setPage_self (r : Ram) (f : ℕ) (m : Mem) : (r.setPage f m).page f = m := update_self ..

theorem words_setWord (r : Ram) (f j : ℕ) (w : UInt32) :
    (r.setPage f (setWord (r.page f) j w)).words = TwoLevel.set r.words f j w := by
  funext g k
  by_cases hg : g = f
  · subst hg
    rw [words, setPage_self, TwoLevel.set_self]
    by_cases hk : k = j
    · rw [hk, word_setWord_self, update_self]
    · rw [word_setWord_of_ne _ hk, update_of_ne hk]
      rfl
  · rw [words, setPage_of_ne r hg, TwoLevel.set_of_ne hg]
    rfl

def setPte (r : Ram) (t v : ℕ) (w : UInt32) : Ram := r.setPage t (setWord (r.page t) (v % 1024) w)

end Ram

structure Ram.Takes (r : Ram) (f : ℕ) (r' : Ram) : Prop where
  free : r.freelist.Perm (f :: r'.freelist)
  page : ∀ g ≠ f, r'.page g = r.page g

namespace Ram.Takes

variable {r r' : Ram} {f : ℕ}

theorem mem_iff (h : r.Takes f r') (g : ℕ) : g ∈ r.freelist ↔ g = f ∨ g ∈ r'.freelist := h.free.mem_iff.trans List.mem_cons

theorem mem (h : r.Takes f r') : f ∈ r.freelist := (h.mem_iff f).mpr (.inl rfl)

theorem nodup (h : r.Takes f r') (hn : r.freelist.Nodup) : f ∉ r'.freelist ∧ r'.freelist.Nodup := List.nodup_cons.mp (h.free.nodup_iff.mp hn)

end Ram.Takes

structure Space (L : Layout) (E : Set ℕ) (r : Ram) (d : ℕ) : Prop where
  exact : Exact (L.frames \ E) {f | f ∉ r.freelist} (r.refs d)
  free : ∀ f ∈ r.freelist, f ∈ L.frames \ E
  nodup : r.freelist.Nodup
  kernel : ∀ v, 524288 ≤ v → r.entry d v &&& PTE_U = 0

namespace Space

variable {L : Layout} {E : Set ℕ} {r r' : Ram} {d f g i j t v : ℕ} {w : UInt32} {x y : Ref}

theorem mem (h : Space L E r d) (hx : r.refs d x = some f) : f ∈ L.frames ∧ f ∉ E := h.exact.mem hx

theorem lt (h : Space L E r d) (hx : r.refs d x = some f) : f < 57344 := Layout.frames_lt (h.mem hx).1

theorem tree (h : Space L E r d) : TwoLevel.Tree child r.words d where
  root i hi := by
    have hx : Ref.table i = Ref.dir := h.exact.inj hi rfl
    cases hx
  inj {i j t} hi hj := by
    have hx : Ref.table i = Ref.table j := h.exact.inj hi hj
    cases hx
    rfl

theorem congr (h : Space L E r d) (hp : Ram.SameTables r r' d) (hf : r'.freelist = r.freelist) : Space L E r' d where
  exact := by
    rw [hf, hp.refs]
    exact h.exact
  free := by
    rw [hf]
    exact h.free
  nodup := by
    rw [hf]
    exact h.nodup
  kernel := by
    rw [hp.entry]
    exact h.kernel

theorem not_mem (h : Space L E r d) (hf : f ∉ L.frames \ E) (hx : r.refs d x = some g) : g ≠ f := fun e => hf (e ▸ h.exact.mem hx)

theorem setPage (h : Space L E r d) (hf : f ∉ L.frames \ E) (m : Mem) :
    Space L E (r.setPage f m) d ∧ Ram.SameTables r (r.setPage f m) d ∧ (r.setPage f m).user d = r.user d := by
  have hp : ∀ x g, r.refs d x = some g → (r.setPage f m).page g = r.page g := fun x g hx => Ram.setPage_of_ne r (h.not_mem hf hx) m
  exact ⟨h.congr (.of_refs hp) rfl, .of_refs hp, Ram.user_congr hp⟩

theorem diff_insert (A E : Set ℕ) (f : ℕ) : A \ insert f E = (A \ E) \ {f} := by
  ext g
  simp only [Set.mem_sdiff, Set.mem_insert_iff, Set.mem_singleton_iff, not_or]
  tauto

theorem not_free (h : Space L E r d) (hx : r.refs d x = some f) : f ∉ r.freelist := h.exact.used_of_ref hx

theorem hold (h : Space L E r d) (ht : r.Takes f r') :
    Space L (insert f E) r' d ∧ f ∈ L.frames ∧ f ∉ E ∧ ∀ x g, r.refs d x = some g → r'.page g = r.page g := by
  have hpage : ∀ x g, r.refs d x = some g → r'.page g = r.page g := by
    intro x g hx
    apply ht.page
    rintro rfl
    exact h.not_free hx ht.mem
  have hagree : Ram.SameTables r r' d := .of_refs hpage
  obtain ⟨hframe, hE⟩ := h.free f ht.mem
  obtain ⟨hnot, hnd⟩ := ht.nodup h.nodup
  refine ⟨⟨?_, fun g hg => ?_, hnd, ?_⟩, hframe, hE, hpage⟩
  · rw [diff_insert, hagree.refs]
    refine h.exact.remove (fun hm => hm ht.mem) (fun c _ hc => ?_)
    rw [Set.mem_ofPred_eq, Set.mem_ofPred_eq, ht.mem_iff, not_or]
    exact (and_iff_right hc).symm
  · rw [diff_insert]
    refine ⟨h.free g ((ht.mem_iff g).mpr (.inr hg)), ?_⟩
    rintro rfl
    exact hnot hg
  · rw [hagree.entry]
    exact h.kernel

theorem release (h : Space L (insert f E) r d) (hf : f ∈ L.frames) (hE : f ∉ E) (hl : r'.freelist = f :: r.freelist)
    (hp : ∀ g ≠ f, r'.page g = r.page g) : Space L E r' d := by
  have hset : insert f (L.frames \ insert f E) = L.frames \ E := by
    rw [diff_insert, Set.insert_sdiff_singleton, Set.insert_eq_of_mem (show f ∈ L.frames \ E from ⟨hf, hE⟩)]
  have hnot : f ∉ L.frames \ insert f E := fun hm => hm.2 (Set.mem_insert f E)
  have hagree : Ram.SameTables r r' d := by
    refine .of_refs (fun x g hx => ?_)
    apply hp
    rintro rfl
    exact hnot (h.exact.mem hx)
  have hfree : f ∉ r.freelist := fun hm => hnot (h.free f hm)
  refine ⟨?_, fun g hg => ?_, ?_, ?_⟩
  · rw [← hset, hagree.refs]
    refine h.exact.restore hnot ?_ (fun c hc => ?_)
    · rw [hl]
      exact fun hm => hm List.mem_cons_self
    · have hne : c ≠ f := fun e => hnot (e ▸ hc)
      rw [Set.mem_ofPred_eq, Set.mem_ofPred_eq, hl, List.mem_cons, not_or]
      exact and_iff_right hne
  · rw [hl, List.mem_cons] at hg
    rw [← hset]
    rcases hg with rfl | hg
    · exact Set.mem_insert g _
    · exact Set.mem_insert_of_mem f (h.free g hg)
  · rw [hl, List.nodup_cons]
    exact ⟨hfree, h.nodup⟩
  · rw [hagree.entry]
    exact h.kernel

theorem table_setPte (h : Space L E r d) (ht : r.table d (v / 1024) = some t) : (r.setPte t v w).table d = r.table d := by
  funext i
  rw [Ram.table, Ram.setPte, Ram.words_setWord, TwoLevel.table_set_leaf h.tree ht]
  rfl

theorem entry_setPte (h : Space L E r d) (ht : r.table d (v / 1024) = some t) : (r.setPte t v w).entry d = update (r.entry d) v w := by
  funext u
  have hu : u / 1024 = v / 1024 ∧ u % 1024 = v % 1024 ↔ u = v := by
    constructor
    · omega
    · rintro rfl
      exact ⟨rfl, rfl⟩
  rw [Ram.entry, Ram.setPte, Ram.words_setWord, TwoLevel.leaf_set_leaf h.tree ht, update_apply]
  by_cases e : u = v
  · rw [if_pos (hu.mpr e), if_pos e]
    rfl
  · rw [if_neg (mt hu.mp e), if_neg e]
    rfl

theorem refs_setPte (h : Space L E r d) (ht : r.table d (v / 1024) = some t) :
    (r.setPte t v w).refs d = update (r.refs d) (.user v) (target v w) := by
  funext x
  cases x with
  | dir => rw [update_of_ne (by rintro ⟨⟩)]; rfl
  | table i =>
    rw [update_of_ne (by rintro ⟨⟩)]
    exact congrFun (h.table_setPte ht) i
  | user u =>
    rw [Ram.refs, h.entry_setPte ht]
    by_cases e : u = v
    · subst e
      rw [update_self, update_self]
    · rw [update_of_ne e, update_of_ne (fun hx => e (Ref.user.inj hx))]
      rfl

theorem user_setPte (h : Space L E r d) (ht : r.table d (v / 1024) = some t) :
    (r.setPte t v w).user d = update (r.user d) v ((target v w).map (fun f => (w, (r.setPte t v w).page f))) := by
  funext u
  rw [Ram.user, h.entry_setPte ht]
  by_cases e : u = v
  · subst e
    rw [update_self, update_self]
  · rw [update_of_ne e, update_of_ne e, Ram.user]
    cases hx : target u (r.entry d u) with
    | none => rfl
    | some f =>
      have hft : f ≠ t := by
        rintro rfl
        have hxy : Ref.user u = Ref.table (v / 1024) := h.exact.inj hx ht
        cases hxy
      rw [Option.map_some, Option.map_some, Ram.setPte, Ram.setPage_of_ne r hft]

theorem kernel_setPte (h : Space L E r d) (ht : r.table d (v / 1024) = some t) (hw : 524288 ≤ v → w &&& PTE_U = 0) (u : ℕ) (hu : 524288 ≤ u) :
    (r.setPte t v w).entry d u &&& PTE_U = 0 := by
  rw [h.entry_setPte ht, update_apply]
  split_ifs with e
  · exact hw (e ▸ hu)
  · exact h.kernel u hu

theorem setPte_same (h : Space L E r d) (ht : r.table d (v / 1024) = some t) (hw : target v w = r.refs d (.user v))
    (hk : 524288 ≤ v → w &&& PTE_U = 0) : Space L E (r.setPte t v w) d where
  exact := by
    rw [h.refs_setPte ht, hw, update_eq_self]
    exact h.exact
  free := h.free
  nodup := h.nodup
  kernel := h.kernel_setPte ht hk

theorem insert_diff_insert {A E : Set ℕ} {f : ℕ} (hf : f ∈ A) (hE : f ∉ E) : insert f (A \ insert f E) = A \ E := by
  rw [diff_insert, Set.insert_sdiff_singleton, Set.insert_eq_of_mem (show f ∈ A \ E from ⟨hf, hE⟩)]

theorem grant (h : Space L (insert f E) r d) (ht : r.table d (v / 1024) = some t) (hf : f ∈ L.frames) (hE : f ∉ E) (hv : v < 524288)
    (hnone : r.refs d (.user v) = none) (hw : target v w = some f) : Space L E (r.setPte t v w) d := by
  have hnot : f ∉ L.frames \ insert f E := fun hm => hm.2 (Set.mem_insert f E)
  refine ⟨?_, fun g hg => ?_, h.nodup, h.kernel_setPte ht (fun hk => absurd hv (Nat.not_lt.mpr hk))⟩
  · rw [← insert_diff_insert hf hE, h.refs_setPte ht, hw]
    exact h.exact.grant hnone hnot (fun hm => hnot (h.free f hm)) (fun _ _ => Iff.rfl) (fun _ => rfl)
  · have hg' := h.free g hg
    rw [diff_insert] at hg'
    exact hg'.1

theorem revoke (h : Space L E r d) (ht : r.table d (v / 1024) = some t) (hx : r.refs d (.user v) = some f) :
    Space L (insert f E) (r.setPte t v 0) d := by
  have hz : target v 0 = none := if_neg (fun hm => hm.2 rfl)
  have hused : f ∉ r.freelist := h.exact.used_of_ref hx
  have hv : v < 524288 := by
    by_contra hv
    rw [Ram.refs, target, if_neg (fun hm => hv hm.1)] at hx
    cases hx
  refine ⟨?_, fun g hg => ?_, h.nodup, h.kernel_setPte ht (fun hk => absurd hv (Nat.not_lt.mpr hk))⟩
  · rw [diff_insert, h.refs_setPte ht, hz]
    have hgive : Exact (L.frames \ E) {g | g ∉ r.freelist ∧ g ≠ f} (update (r.refs d) (.user v) none) :=
      h.exact.give hx (fun _ _ => Iff.rfl) (fun _ => rfl)
    exact hgive.remove (fun hm => hm.2 rfl) (fun c _ hc => (and_iff_left hc).symm)
  · rw [diff_insert]
    refine ⟨h.free g hg, ?_⟩
    rintro rfl
    exact hused hg

theorem attach (h : Space L (insert f E) r d) (hf : f ∈ L.frames) (hE : f ∉ E) (hnone : r.table d i = none) (hw : child i w = some f)
    (hzero : r.page f = fun _ => 0) :
    Space L E (r.setPage d (setWord (r.page d) i w)) d ∧
      (r.setPage d (setWord (r.page d) i w)).table d = update (r.table d) i (some f) ∧
      (r.setPage d (setWord (r.page d) i w)).entry d = r.entry d ∧ (r.setPage d (setWord (r.page d) i w)).user d = r.user d := by
  have hnot : f ∉ L.frames \ insert f E := fun hm => hm.2 (Set.mem_insert f E)
  have hfd : f ≠ d := by
    rintro rfl
    exact hnot (h.exact.mem (x := .dir) rfl)
  have htable : (r.setPage d (setWord (r.page d) i w)).table d = update (r.table d) i (some f) := by
    funext k
    rw [Ram.table, Ram.words_setWord, TwoLevel.table_set_root, hw, update_apply]
    rfl
  have hentry : (r.setPage d (setWord (r.page d) i w)).entry d = r.entry d := by
    funext v
    rw [Ram.entry, Ram.words_setWord, TwoLevel.leaf_set_root h.tree hw hfd]
    split_ifs with e
    · rw [Ram.entry_of_none (e ▸ hnone), Option.getD_some, Ram.words, hzero]
      rfl
    · rfl
  have hrefs : (r.setPage d (setWord (r.page d) i w)).refs d = update (r.refs d) (.table i) (some f) := by
    funext x
    cases x with
    | dir => rw [update_of_ne (by rintro ⟨⟩)]; rfl
    | table k =>
      rw [Ram.refs, htable]
      by_cases e : k = i
      · rw [e, update_self, update_self]
      · rw [update_of_ne e, update_of_ne (fun hx => e (Ref.table.inj hx))]
        rfl
    | user v =>
      rw [update_of_ne (by rintro ⟨⟩), Ram.refs, hentry]
      rfl
  refine ⟨⟨?_, fun g hg => ?_, h.nodup, ?_⟩, htable, hentry, ?_⟩
  · rw [← insert_diff_insert hf hE, hrefs]
    exact h.exact.grant (show r.refs d (.table i) = none from hnone) hnot (fun hm => hnot (h.free f hm)) (fun _ _ => Iff.rfl) (fun _ => rfl)
  · have hg' := h.free g hg
    rw [diff_insert] at hg'
    exact hg'.1
  · rw [hentry]
    exact h.kernel
  · funext v
    rw [Ram.user, Ram.user, hentry]
    cases hx : target v (r.entry d v) with
    | none => rfl
    | some g =>
      have hgd : g ≠ d := by
        rintro rfl
        have hxy : Ref.user v = Ref.dir := h.exact.inj hx rfl
        cases hxy
      rw [Option.map_some, Option.map_some, Ram.setPage_of_ne r hgd]

theorem write (h : Space L E r d) (hx : r.refs d (.user v) = some f) (m : Mem) :
    Space L E (r.setPage f m) d ∧ Ram.SameTables r (r.setPage f m) d ∧
      (r.setPage f m).user d = update (r.user d) v (some (r.entry d v, m)) := by
  have hne : ∀ y g, y ≠ .user v → r.refs d y = some g → g ≠ f := by
    rintro y g hy hg rfl
    exact hy (h.exact.inj hg hx)
  have hsame : Ram.SameTables r (r.setPage f m) d :=
    ⟨Ram.setPage_of_ne r (hne .dir d (by rintro ⟨⟩) rfl) m, fun i t ht => Ram.setPage_of_ne r (hne (.table i) t (by rintro ⟨⟩) ht) m⟩
  refine ⟨h.congr hsame rfl, hsame, ?_⟩
  funext u
  rw [Ram.user, hsame.entry]
  by_cases e : u = v
  · subst e
    rw [update_self, show target u (r.entry d u) = some f from hx, Option.map_some, Ram.setPage_self]
  · rw [update_of_ne e, Ram.user]
    cases hu : target u (r.entry d u) with
    | none => rfl
    | some g =>
      rw [Option.map_some, Option.map_some, Ram.setPage_of_ne r (hne (.user u) g (fun hxy => e (Ref.user.inj hxy)) hu)]

end Space

end EnhancedXv6.Vm
