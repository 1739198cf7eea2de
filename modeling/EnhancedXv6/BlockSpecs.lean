
import EnhancedXv6.BlockRefs
import Mathlib.Data.Finset.Card

namespace EnhancedXv6.Blocks

open Function (update_of_ne update_self)
open Command Bytes Fs Ownership

variable {sb : Superblock} {s t u : State} {i j k b c : ℕ} {ip : Inode} {E : Stop → Prop}

structure Guarded (sb : Superblock) (i : ℕ) (s : State) : Prop where
  marked : ∀ b < sb.nmeta, s.bit sb b = true
  owned : Owned {b | sb.nmeta ≤ b ∧ b < sb.size} {b | s.bit sb b = true} {x | x.1 = i} s.refs

theorem Sound.guarded (h : Sound sb s) : Guarded sb i s where
  marked b hb := (h.bitmap b (lt_of_lt_of_le hb (Nat.sub_le _ _))).mpr (.inl hb)
  owned := h.exact.owned _

namespace State

def pos (bn : ℕ) : ℕ := if bn < NDIRECT then bn else bn + 1

def file (s : State) (i bn : ℕ) : Option Mem := (s.refs (i, pos bn)).map s.block

def freeCount (s : State) (sb : Superblock) : ℕ := ((Finset.range sb.size).filter (fun b => s.bit sb b = false)).card

def vacant (s : State) (i : ℕ) (K : Finset ℕ) : ℕ := (K.filter (fun k => s.refs (i, k) = none)).card

theorem pos_ne (bn : ℕ) : pos bn ≠ NDIRECT := by
  unfold pos
  split_ifs <;> omega

theorem pos_inj {m n : ℕ} (h : pos m = pos n) : m = n := by
  unfold pos at h
  split_ifs at h <;> omega

end State

def bmapSlots (bn : ℕ) : Finset ℕ := if bn < NDIRECT then {bn} else {NDIRECT, bn + 1}

def safe (sb : Superblock) (E : Stop → Prop) : Spec sig State := fun o s Q =>
  execSpec (exec sb) E o s Q ∧ ∀ b, o = .balloc → s.findFree sb = some b → ¬ s.InUse sb b

theorem safe_mono (sb : Superblock) (E : Stop → Prop) : (safe sb E).Mono :=
  fun o s Q Q' hQ h => ⟨execSpec_mono (exec sb) E o s Q Q' hQ h.1, h.2⟩

theorem run_of_wp {α : Type} {m : Code α} {Q : α → State → Prop} (h : wp (safe sb E) m s Q) :
    (∃ e, run (exec sb) m s = .error e ∧ E e) ∨ ∃ a t, run (exec sb) m s = .ok (a, t) ∧ Q a t := by
  have hrun := (wp_execSpec (exec sb) _ m s Q).mp (wp_weaken (safe_mono sb _) (fun _ _ _ => And.left) m h)
  cases hr : run (exec sb) m s with
  | error e =>
    rw [hr] at hrun
    exact .inl ⟨e, rfl, hrun⟩
  | ok r =>
    rw [hr] at hrun
    exact .inr ⟨r.1, r.2, rfl, hrun⟩

theorem run_of_safe {α : Type} {m : Code α} {Q : α → State → Prop} (h : wp (safe sb (fun _ => False)) m s Q) :
    ∃ a t, run (exec sb) m s = .ok (a, t) ∧ Q a t := by
  obtain ⟨e, -, he⟩ | hok := run_of_wp h
  · exact he.elim
  · exact hok

section Rules

variable {α : Type} {Q : α → State → Prop} {w v : UInt32} {m n : ℕ} {src : Mem} {g : Inode → Inode} {o : Op} {f : Unit → Code α}

theorem wp_op {f : o.Res → Code α} {r : o.Res} (he : exec sb o s = .ok (r, t)) (hb : o ≠ .balloc)
    (h : wp (safe sb E) (f r) t Q) : wp (safe sb E) (op o >>= f) s Q := by
  refine ⟨?_, fun b e => absurd e hb⟩
  unfold execSpec
  rw [he]
  exact h

theorem wp_error {f : o.Res → Code α} {e : Stop} (he : exec sb o s = .error e) (hb : o ≠ .balloc) (h : E e) :
    wp (safe sb E) (op o >>= f) s Q := by
  refine ⟨?_, fun b e => absurd e hb⟩
  unfold execSpec
  rw [he]
  exact h

theorem wp_word {f : UInt32 → Code α} (h : wp (safe sb E) (f (word (s.block w.toNat) j)) s Q) :
    wp (safe sb E) ((op (.word w j) : Code UInt32) >>= f) s Q := wp_op (o := .word w j) rfl nofun h

theorem wp_setWord (h : wp (safe sb E) (f ()) (s.setBlock w.toNat (setWord (s.block w.toNat) j v)) Q) :
    wp (safe sb E) ((op (.setWord w j v) : Code Unit) >>= f) s Q := wp_op (o := .setWord w j v) rfl nofun h

theorem wp_bytes {f : List UInt8 → Code α}
    (h : wp (safe sb E) (f ((List.range n).map (fun k => s.block w.toNat (m + k)))) s Q) :
    wp (safe sb E) ((op (.bytes w m n) : Code (List UInt8)) >>= f) s Q := wp_op (o := .bytes w m n) rfl nofun h

theorem wp_setBytes
    (h : wp (safe sb E) (f ()) (s.setBlock w.toNat (splice (s.block w.toNat) m n src)) Q) :
    wp (safe sb E) ((op (.setBytes w m n src) : Code Unit) >>= f) s Q := wp_op (o := .setBytes w m n src) rfl nofun h

theorem wp_bzero (h : wp (safe sb E) (f ()) (s.setBlock w.toNat (fun _ => 0)) Q) :
    wp (safe sb E) ((op (.bzero w) : Code Unit) >>= f) s Q := wp_op (o := .bzero w) rfl nofun h

theorem wp_inode {f : Inode → Code α} (hm : s.mem i = some ip) (h : wp (safe sb E) (f ip) s Q) :
    wp (safe sb E) ((op (.inode i) : Code Inode) >>= f) s Q :=
  wp_op (o := .inode i) (r := ip) (t := s) (by simp [exec, hm]) nofun h

theorem wp_edit (hm : s.mem i = some ip) (h : wp (safe sb E) (f ()) (s.setMem i (some (g ip))) Q) :
    wp (safe sb E) ((op (.edit i g) : Code Unit) >>= f) s Q :=
  wp_op (o := .edit i g) (r := ()) (t := s.setMem i (some (g ip))) (by simp [exec, hm]) nofun h

theorem wp_iupdate (hm : s.mem i = some ip) (h : wp (safe sb E) (f ()) (s.setDinode i ip) Q) :
    wp (safe sb E) ((op (.iupdate i) : Code Unit) >>= f) s Q :=
  wp_op (o := .iupdate i) (r := ()) (t := s.setDinode i ip) (by simp [exec, hm]) nofun h

theorem wp_last {Q : o.Res → State → Prop} (h : wp (safe sb E) (op o >>= pure) s Q) : wp (safe sb E) (op o) s Q := h

end Rules

section Refs

theorem refs_eq_some : s.refs (i, k) = some b ↔ (s.cur i).type ≠ .free ∧ s.slot i k = b ∧ b ≠ 0 := by
  unfold State.refs
  dsimp only
  split_ifs with h
  · constructor
    · intro hn
      cases hn
    · rintro ⟨ht, rfl, h0⟩
      exact absurd h (not_or.mpr ⟨ht, h0⟩)
  · obtain ⟨ht, h0⟩ := not_or.mp h
    constructor
    · intro he
      cases he
      exact ⟨ht, rfl, h0⟩
    · rintro ⟨-, rfl, -⟩
      rfl

theorem refs_eq_none (ht : (s.cur i).type ≠ .free) : s.refs (i, k) = none ↔ s.slot i k = 0 := by
  unfold State.refs
  dsimp only
  simp [ht]

theorem toNat_ne_zero {a : UInt32} : a.toNat ≠ 0 ↔ a ≠ 0 := by
  rw [ne_eq, ne_eq, ← UInt32.toNat_inj]
  rfl

theorem slot_of_le (hk : k ≤ NDIRECT) : s.slot i k = ((s.cur i).addrs k).toNat := if_pos hk

theorem slot_word (hj : j < NINDIRECT) (h0 : (s.cur i).addrs NDIRECT ≠ 0) :
    s.slot i (NDIRECT + 1 + j) = (word (s.block ((s.cur i).addrs NDIRECT).toNat) j).toNat := by
  have hle : ¬ NDIRECT + 1 + j ≤ NDIRECT := by omega
  have hmax : NDIRECT + 1 + j ≤ MAXFILE := by
    simp only [MAXFILE]
    omega
  have hsub : NDIRECT + 1 + j - NDIRECT - 1 = j := by omega
  rw [State.slot, slot, if_neg hle, if_pos ⟨hmax, h0⟩, hsub]

theorem refs_setBlock {d : Mem} (hb : ∀ j, s.refs (j, NDIRECT) ≠ some b) : (s.setBlock b d).refs = s.refs := by
  funext ⟨j, k⟩
  have hcur : (s.setBlock b d).cur j = s.cur j := rfl
  by_cases ht : (s.cur j).type = .free
  · unfold State.refs
    dsimp only
    rw [hcur, if_pos (.inl ht), if_pos (.inl ht)]
  · have hslot : (s.setBlock b d).slot j k = s.slot j k := by
      unfold State.slot slot
      rw [hcur]
      split_ifs with h1 h2
      · rfl
      · have hne : ((s.cur j).addrs NDIRECT).toNat ≠ b := by
          rintro rfl
          exact hb j (refs_eq_some.mpr ⟨ht, slot_of_le (le_refl _), toNat_ne_zero.mpr h2.2⟩)
        rw [State.setBlock_of_ne _ _ hne]
      · rfl
    unfold State.refs
    dsimp only
    rw [hcur, hslot]

theorem cur_of_mem (hm : s.mem i = some ip) : s.cur i = ip := by
  rw [State.cur, hm]
  rfl

theorem cur_setMem_self (s : State) (i : ℕ) (ip : Inode) : (s.setMem i (some ip)).cur i = ip := by
  rw [State.cur, State.setMem_self]
  rfl

theorem cur_setMem_of_ne (s : State) (o : Option Inode) (h : j ≠ i) : (s.setMem i o).cur j = s.cur j := by
  rw [State.cur, State.setMem_of_ne _ _ h]
  rfl

theorem refs_congr (ht : (t.cur j).type = (s.cur j).type) (hs : t.slot j k = s.slot j k) : t.refs (j, k) = s.refs (j, k) := by
  unfold State.refs
  dsimp only
  rw [ht, hs]

theorem refs_of_cur (hblock : t.block = s.block) (h : ∀ j, (t.cur j).type = (s.cur j).type ∧ (t.cur j).addrs = (s.cur j).addrs) :
    t.refs = s.refs := by
  funext ⟨j, k⟩
  apply refs_congr (h j).1
  unfold State.slot slot
  rw [(h j).2, hblock]

theorem refs_setMem_of_ne (s : State) (o : Option Inode) (h : j ≠ i) (k : ℕ) : (s.setMem i o).refs (j, k) = s.refs (j, k) := by
  have hcur := cur_setMem_of_ne s o h
  apply refs_congr
  · rw [hcur]
  · unfold State.slot
    rw [hcur]
    rfl

theorem refs_setAddr (hm : s.mem i = some ip) (ht : ip.type ≠ .free) (hk : k ≤ NDIRECT) {a : UInt32} (ha : a ≠ 0)
    (h0 : k = NDIRECT → ip.addrs NDIRECT = 0 ∧ s.block a.toNat = fun _ => 0) (x : ℕ × ℕ) :
    (s.setMem i (some (ip.setAddr k a))).refs x = Function.update s.refs (i, k) (some a.toNat) x := by
  obtain ⟨j, l⟩ := x
  by_cases hj : j = i
  · subst hj
    have hcur := cur_of_mem hm
    have hnew := cur_setMem_self s j (ip.setAddr k a)
    by_cases hl : l = k
    · subst hl
      rw [update_self]
      apply refs_eq_some.mpr
      rw [hnew]
      refine ⟨ht, ?_, toNat_ne_zero.mpr ha⟩
      rw [slot_of_le hk, hnew]
      simp [Inode.setAddr]
    · rw [update_of_ne (by simpa using hl)]
      apply refs_congr
      · rw [hnew, hcur]
        rfl
      · unfold State.slot slot
        rw [hnew, hcur]
        by_cases hle : l ≤ NDIRECT
        · rw [if_pos hle, if_pos hle]
          simp [Inode.setAddr, hl]
        · rw [if_neg hle, if_neg hle]
          by_cases hN : k = NDIRECT
          · obtain ⟨hz, hblock⟩ := h0 hN
            subst hN
            have hadd : (ip.setAddr NDIRECT a).addrs NDIRECT = a := by simp [Inode.setAddr]
            rw [hadd, hz]
            have hw : word ((s.setMem j (some (ip.setAddr NDIRECT a))).block a.toNat) (l - NDIRECT - 1) = 0 := by
              change word (s.block a.toNat) _ = 0
              rw [hblock]
              exact word_zero _
            rw [hw]
            simp
          · have hadd : (ip.setAddr k a).addrs NDIRECT = ip.addrs NDIRECT := by
              simp [Inode.setAddr, Ne.symm hN]
            rw [hadd]
            rfl
  · rw [update_of_ne (by simp [hj])]
    exact refs_setMem_of_ne s _ hj l

theorem refs_setWord (h : Guarded sb i s) {w a : UInt32} (hw : s.refs (i, NDIRECT) = some w.toNat) (hj : j < NINDIRECT) (ha : a ≠ 0)
    (x : ℕ × ℕ) : (s.setBlock w.toNat (setWord (s.block w.toNat) j a)).refs x =
      Function.update s.refs (i, NDIRECT + 1 + j) (some a.toNat) x := by
  obtain ⟨ht, hslot, hne⟩ := refs_eq_some.mp hw
  rw [slot_of_le (le_refl _)] at hslot
  obtain ⟨l, m⟩ := x
  have hcur : ∀ l, (s.setBlock w.toNat (setWord (s.block w.toNat) j a)).cur l = s.cur l := fun _ => rfl
  have h0 : (s.cur i).addrs NDIRECT ≠ 0 := toNat_ne_zero.mp (by rw [hslot]; exact hne)
  by_cases hx : l = i ∧ m = NDIRECT + 1 + j
  · obtain ⟨rfl, rfl⟩ := hx
    rw [update_self]
    refine refs_eq_some.mpr ⟨ht, ?_, toNat_ne_zero.mpr ha⟩
    rw [slot_word hj (by rw [hcur]; exact h0), hcur, hslot, State.setBlock_self, word_setWord_self]
  · rw [update_of_ne (by simpa using hx)]
    by_cases hl : (s.cur l).type = .free
    · unfold State.refs
      dsimp only
      rw [hcur, if_pos (.inl hl), if_pos (.inl hl)]
    apply refs_congr (by rw [hcur])
    unfold State.slot slot
    rw [hcur]
    split_ifs with h1 h2
    · rfl
    · by_cases he : ((s.cur l).addrs NDIRECT).toNat = w.toNat
      · -- no other inode has this indirect block
        have hli : (l, NDIRECT) = (i, NDIRECT) :=
          (h.owned.inj rfl hw (refs_eq_some.mpr ⟨hl, (slot_of_le (le_refl _)).trans he, hne⟩)).symm
        obtain rfl : l = i := congrArg Prod.fst hli
        have hm : m - NDIRECT - 1 ≠ j := by
          intro e
          exact hx ⟨rfl, by omega⟩
        rw [he, State.setBlock_self, word_setWord_of_ne _ hm]
      · rw [State.setBlock_of_ne _ _ he]
    · rfl

end Refs

namespace Guarded

theorem not_inUse (h : Guarded sb i s) (hb : s.bit sb b = false) : ¬ s.InUse sb b := by
  rintro (hm | ⟨x, hx⟩)
  · rw [h.marked b hm] at hb
    cases hb
  · have hu : s.bit sb b = true := h.owned.used hx
    rw [hu] at hb
    cases hb

theorem nmeta_le (h : Guarded sb i s) (hb : s.bit sb b = false) : sb.nmeta ≤ b := by
  by_contra hlt
  exact h.not_inUse hb (.inl (by omega))

end Guarded

theorem State.vacant_union {K : Finset ℕ} (h : ∀ k, t.refs (i, k) = none ↔ s.refs (i, k) = none ∧ k ∉ K) (L : Finset ℕ) :
    s.vacant i (K ∪ L) = s.vacant i K + t.vacant i L := by
  unfold State.vacant
  have hL : L.filter (fun k => t.refs (i, k) = none) = (L \ K).filter (fun k => s.refs (i, k) = none) := by
    ext k
    simp only [Finset.mem_filter, Finset.mem_sdiff, h]
    tauto
  have hdis : Disjoint (K.filter (fun k => s.refs (i, k) = none)) ((L \ K).filter (fun k => s.refs (i, k) = none)) := by
    apply Finset.disjoint_filter_filter
    exact Finset.disjoint_sdiff
  rw [hL, ← Finset.card_union_of_disjoint hdis, ← Finset.filter_union, Finset.union_sdiff_self_eq_union]

structure Grown (sb : Superblock) (i : ℕ) (K : Finset ℕ) (s t : State) : Prop where
  guarded : Guarded sb i t
  sound : Sound sb s → Sound sb t
  dinode : t.dinode = s.dinode
  devsw : t.devsw = s.devsw
  mem : ∀ j ≠ i, t.mem j = s.mem j
  inode : ∀ ip, s.mem i = some ip → ∃ a, t.mem i = some { ip with addrs := a }
  kept : ∀ x b, s.refs x = some b → t.refs x = some b
  fresh : ∀ j k b, t.refs (j, k) = some b → s.refs (j, k) = some b ∨ j = i ∧ k ∈ K ∧ (k ≠ NDIRECT → t.block b = fun _ => 0)
  block : ∀ j k b, k ≠ NDIRECT → s.refs (j, k) = some b → t.block b = s.block b
  filled : ∀ k ∈ K, t.refs (i, k) ≠ none
  count : t.freeCount sb + s.vacant i K = s.freeCount sb
  same : (∀ k ∈ K, s.refs (i, k) ≠ none) → t = s

namespace Grown

variable {K L : Finset ℕ}

theorem refs_none (h : Grown sb i K s t) : t.refs (i, k) = none ↔ s.refs (i, k) = none ∧ k ∉ K := by
  constructor
  · intro hn
    refine ⟨?_, fun hk => h.filled k hk hn⟩
    cases hs : s.refs (i, k) with
    | none => rfl
    | some b => rw [h.kept _ _ hs] at hn; cases hn
  · rintro ⟨hs, hk⟩
    cases ht : t.refs (i, k) with
    | none => rfl
    | some b =>
      rcases h.fresh i k b ht with hb | ⟨-, hm, -⟩
      · rw [hs] at hb
        cases hb
      · exact absurd hm hk

theorem refs_of_ne (h : Grown sb i K s t) (hj : j ≠ i) (k : ℕ) : t.refs (j, k) = s.refs (j, k) := by
  cases hs : s.refs (j, k) with
  | some b => exact h.kept _ _ hs
  | none =>
    cases ht : t.refs (j, k) with
    | none => rfl
    | some b =>
      rcases h.fresh j k b ht with hb | ⟨he, -⟩
      · rw [hs] at hb
        cases hb
      · exact absurd he hj

theorem vacant_union (h : Grown sb i K s t) : s.vacant i (K ∪ L) = s.vacant i K + t.vacant i L :=
  State.vacant_union (fun _ => h.refs_none) L

theorem trans (h : Grown sb i K s t) (h' : Grown sb i L t u) : Grown sb i (K ∪ L) s u where
  guarded := h'.guarded
  sound hs := h'.sound (h.sound hs)
  dinode := h'.dinode.trans h.dinode
  devsw := h'.devsw.trans h.devsw
  mem j hj := (h'.mem j hj).trans (h.mem j hj)
  inode ip hm := by
    obtain ⟨a, ha⟩ := h.inode ip hm
    obtain ⟨a', ha'⟩ := h'.inode _ ha
    exact ⟨a', ha'⟩
  kept x b hx := h'.kept x b (h.kept x b hx)
  fresh j k b hx := by
    rcases h'.fresh j k b hx with hb | ⟨hj, hk, hz⟩
    · rcases h.fresh j k b hb with hb' | ⟨hj, hk, hz⟩
      · exact .inl hb'
      · refine .inr ⟨hj, Finset.mem_union_left _ hk, fun hne => ?_⟩
        rw [h'.block j k b hne hb, hz hne]
    · exact .inr ⟨hj, Finset.mem_union_right _ hk, hz⟩
  block j k b hk hx := (h'.block j k b hk (h.kept _ _ hx)).trans (h.block j k b hk hx)
  filled k hk := by
    intro hn
    obtain ⟨hn', hL⟩ := h'.refs_none.mp hn
    rcases Finset.mem_union.mp hk with hk | hk
    · exact h.filled k hk hn'
    · exact hL hk
  count := by
    have h1 := h.count
    have h2 := h'.count
    rw [h.vacant_union]
    omega
  same hs := by
    have ht := h.same (fun k hk => hs k (Finset.mem_union_left _ hk))
    subst ht
    exact h'.same (fun k hk => hs k (Finset.mem_union_right _ hk))

theorem refl (h : Guarded sb i s) (hK : ∀ k ∈ K, s.refs (i, k) ≠ none) : Grown sb i K s s where
  guarded := h
  sound := id
  dinode := rfl
  devsw := rfl
  mem _ _ := rfl
  inode ip hm := ⟨ip.addrs, hm⟩
  kept _ _ := id
  fresh _ _ _ := .inl
  block _ _ _ _ _ := rfl
  filled := hK
  count := by
    have h0 : s.vacant i K = 0 := Finset.card_eq_zero.mpr (Finset.filter_eq_empty_iff.mpr (fun k hk => hK k hk))
    rw [h0]
    rfl
  same _ := rfl

theorem take (h : Guarded sb i s) (hb : b < sb.size) (hfree : s.bit sb b = false) (hnone : s.refs (i, k) = none)
    (hbit : ∀ c < sb.size, t.bit sb c = (s.bit sb c || decide (b = c)))
    (hrefs : ∀ x, t.refs x = Function.update s.refs (i, k) (some b) x)
    (hblock : ∀ j k b, k ≠ NDIRECT → s.refs (j, k) = some b → t.block b = s.block b)
    (hzero : k ≠ NDIRECT → t.block b = fun _ => 0) (hdinode : t.dinode = s.dinode) (hdevsw : t.devsw = s.devsw)
    (hmem : ∀ j ≠ i, t.mem j = s.mem j) (hinode : ∀ ip, s.mem i = some ip → ∃ a, t.mem i = some { ip with addrs := a }) :
    Grown sb i {k} s t where
  guarded := by
    refine ⟨fun c hc => ?_, h.owned.take ⟨h.nmeta_le hfree, hb⟩ (by simp [hfree]) ?_ hrefs⟩
    · rw [hbit c (lt_of_lt_of_le hc (Nat.sub_le _ _)), h.marked c hc]
      rfl
    · rintro c ⟨-, hc⟩ hu
      change t.bit sb c = true
      rw [hbit c hc]
      rcases hu with hu | rfl
      · rw [show s.bit sb c = true from hu]
        rfl
      · simp
  sound hs := by
    have hm : ∀ c < sb.nmeta, t.bit sb c = true := by
      intro c hc
      rw [hbit c (lt_of_lt_of_le hc (Nat.sub_le _ _)), h.marked c hc]
      rfl
    refine Sound.of_exact (hs.exact.take hnone ⟨h.nmeta_le hfree, hb⟩ (by simp [hfree]) ?_ hrefs) hm
    rintro c ⟨-, hc⟩
    change t.bit sb c = true ↔ s.bit sb c = true ∨ c = b
    rw [hbit c hc, Bool.or_eq_true, decide_eq_true_eq, eq_comm (a := b)]
  dinode := hdinode
  devsw := hdevsw
  mem := hmem
  inode := hinode
  kept x c hx := by
    rw [hrefs, update_of_ne, hx]
    rintro rfl
    rw [hnone] at hx
    cases hx
  fresh j l c hx := by
    rw [hrefs] at hx
    by_cases e : (j, l) = (i, k)
    · rw [e, update_self] at hx
      cases hx
      cases e
      exact .inr ⟨rfl, Finset.mem_singleton_self _, hzero⟩
    · rw [update_of_ne e] at hx
      exact .inl hx
  block := hblock
  filled l hl := by
    obtain rfl := Finset.mem_singleton.mp hl
    rw [hrefs, update_self]
    exact nofun
  count := by
    have hv : s.vacant i {k} = 1 := by
      unfold State.vacant
      rw [Finset.filter_singleton, if_pos hnone, Finset.card_singleton]
    have hmem : b ∈ (Finset.range sb.size).filter (fun b => s.bit sb b = false) :=
      Finset.mem_filter.mpr ⟨Finset.mem_range.mpr hb, hfree⟩
    have herase : (Finset.range sb.size).filter (fun b => t.bit sb b = false) =
        ((Finset.range sb.size).filter (fun b => s.bit sb b = false)).erase b := by
      ext c
      simp only [Finset.mem_filter, Finset.mem_erase, Finset.mem_range]
      constructor
      · rintro ⟨hc, ht⟩
        rw [hbit c hc, Bool.or_eq_false_iff, decide_eq_false_iff_not] at ht
        exact ⟨Ne.symm ht.2, hc, ht.1⟩
      · rintro ⟨hne, hc, hs⟩
        rw [hbit c hc, hs]
        exact ⟨hc, by simpa using Ne.symm hne⟩
    have hpos := Finset.card_pos.mpr ⟨b, hmem⟩
    unfold State.freeCount
    rw [hv, herase, Finset.card_erase_of_mem hmem]
    omega
  same hs := absurd hnone (hs k (Finset.mem_singleton_self k))

theorem file_eq (h : Grown sb i K s t) (j bn : ℕ) :
    t.file j bn = if j = i ∧ State.pos bn ∈ K then some ((s.file j bn).getD (fun _ => 0)) else s.file j bn := by
  unfold State.file
  cases hs : s.refs (j, State.pos bn) with
  | some b =>
    rw [h.kept _ _ hs, Option.map_some, Option.map_some, h.block _ _ _ (State.pos_ne bn) hs]
    split_ifs <;> rfl
  | none =>
    cases ht : t.refs (j, State.pos bn) with
    | none =>
      rw [if_neg]
      · rfl
      · rintro ⟨rfl, hk⟩
        exact h.filled _ hk ht
    | some b =>
      rcases h.fresh _ _ _ ht with hb | ⟨rfl, hk, hz⟩
      · rw [hs] at hb
        cases hb
      · rw [if_pos ⟨rfl, hk⟩, Option.map_some, hz (State.pos_ne bn)]
        rfl

end Grown

section Bmap

def State.mark (s : State) (sb : Superblock) (b : ℕ) : State :=
  (s.setBlock (sb.bblock b) (setBit (s.block (sb.bblock b)) (b % BPB))).setBlock b (fun _ => 0)

variable {Q : UInt32 → State → Prop}

theorem freeCount_eq_zero (h : s.findFree sb = none) : s.freeCount sb = 0 := by
  apply Finset.card_eq_zero.mpr
  apply Finset.filter_eq_empty_iff.mpr
  intro b hb
  rw [findFree_eq_none h (Finset.mem_range.mp hb)]
  decide

theorem wp_balloc (h : Guarded sb i s) (hE : s.freeCount sb = 0 → E (.panic "balloc: out of blocks"))
    (hQ : ∀ b, b < sb.size → s.bit sb b = false → Q (UInt32.ofNat b) (s.mark sb b)) : wp (safe sb E) balloc s Q := by
  refine ⟨?_, fun b _ hb => h.not_inUse (findFree_eq_some hb).2⟩
  unfold execSpec
  cases hf : s.findFree sb with
  | none =>
    have he : exec sb .balloc s = .error (.panic "balloc: out of blocks") := by simp only [exec, hf]
    rw [he]
    exact hE (freeCount_eq_zero hf)
  | some b =>
    obtain ⟨hb, hbit⟩ := findFree_eq_some hf
    have he : exec sb .balloc s =
        .ok (UInt32.ofNat b, s.setBlock (sb.bblock b) (setBit (s.block (sb.bblock b)) (b % BPB))) := by simp only [exec, hf]
    rw [he]
    have hz : wp (safe sb E) ((op (.bzero (UInt32.ofNat b)) : Code Unit) >>= fun _ => pure (UInt32.ofNat b))
        (s.setBlock (sb.bblock b) (setBit (s.block (sb.bblock b)) (b % BPB))) Q := by
      apply wp_bzero
      rw [Superblock.toNat_ofNat hb]
      exact hQ b hb hbit
    exact hz

theorem mark_refs (h : Guarded sb i s) (hb : b < sb.size) (hfree : s.bit sb b = false) : (s.mark sb b).refs = s.refs := by
  have hmeta : ∀ j, s.refs (j, NDIRECT) ≠ some (sb.bblock b) := by
    intro j hj
    have hle : sb.nmeta ≤ sb.bblock b := (h.owned.mem hj).1
    have hlt := sb.bblock_lt hb
    omega
  have h1 := refs_setBlock (d := setBit (s.block (sb.bblock b)) (b % BPB)) hmeta
  unfold State.mark
  rw [refs_setBlock, h1]
  intro j hj
  rw [h1] at hj
  exact h.not_inUse hfree (.inr ⟨_, hj⟩)

theorem mark_bit (h : Guarded sb i s) (hfree : s.bit sb b = false) (hc : c < sb.size) :
    (s.mark sb b).bit sb c = (s.bit sb c || decide (b = c)) := by
  unfold State.mark
  rw [bit_setBlock _ hc (h.nmeta_le hfree), bit_mark]

theorem mark_block (h : Guarded sb i s) (hb : b < sb.size) (hfree : s.bit sb b = false) {x : ℕ × ℕ} (hx : s.refs x = some c) :
    (s.mark sb b).block c = s.block c := by
  have hcb : c ≠ b := by
    rintro rfl
    exact h.not_inUse hfree (.inr ⟨x, hx⟩)
  have hcm : c ≠ sb.bblock b := by
    have hle : sb.nmeta ≤ c := (h.owned.mem hx).1
    have hlt := sb.bblock_lt hb
    omega
  unfold State.mark
  rw [State.setBlock_of_ne _ _ hcb, State.setBlock_of_ne _ _ hcm]

theorem mark_self (s : State) (sb : Superblock) (b : ℕ) : (s.mark sb b).block b = fun _ => 0 := State.setBlock_self ..

theorem ofNat_ne_zero (h : Guarded sb i s) (hb : b < sb.size) (hfree : s.bit sb b = false) : UInt32.ofNat b ≠ 0 := by
  rw [← toNat_ne_zero, Superblock.toNat_ofNat hb]
  rintro rfl
  have hlt := sb.bblock_lt hb
  have hle := h.nmeta_le hfree
  omega

theorem Grown.addr (h : Guarded sb i s) (hm : s.mem i = some ip) (ht : ip.type ≠ .free) (hk : k ≤ NDIRECT) (h0 : ip.addrs k = 0)
    (hb : b < sb.size) (hfree : s.bit sb b = false) :
    Grown sb i {k} s ((s.mark sb b).setMem i (some (ip.setAddr k (UInt32.ofNat b)))) ∧
      ((s.mark sb b).setMem i (some (ip.setAddr k (UInt32.ofNat b)))).refs (i, k) = some b := by
  have hcur := cur_of_mem hm
  have htype : (s.cur i).type ≠ .free := by rwa [hcur]
  have hnone : s.refs (i, k) = none := (refs_eq_none htype).mpr (by rw [slot_of_le hk, hcur, h0]; rfl)
  have hm' : (s.mark sb b).mem i = some ip := hm
  have hto := Superblock.toNat_ofNat hb
  have hrefs : ∀ x, ((s.mark sb b).setMem i (some (ip.setAddr k (UInt32.ofNat b)))).refs x =
      Function.update s.refs (i, k) (some b) x := by
    intro x
    have hz : k = NDIRECT → ip.addrs NDIRECT = 0 ∧ (s.mark sb b).block (UInt32.ofNat b).toNat = fun _ => 0 := by
      rintro rfl
      exact ⟨h0, by rw [hto]; exact mark_self s sb b⟩
    rw [refs_setAddr hm' ht hk (ofNat_ne_zero h hb hfree) hz, mark_refs h hb hfree, hto]
  constructor
  · apply Grown.take h hb hfree hnone
    · intro c hc
      exact mark_bit h hfree hc
    · exact hrefs
    · intro j l c _ hx
      exact mark_block h hb hfree hx
    · intro _
      exact mark_self s sb b
    · rfl
    · rfl
    · intro j hj
      exact State.setMem_of_ne _ _ hj
    · intro ip' hip
      rw [hm] at hip
      cases hip
      exact ⟨_, State.setMem_self _ _ _⟩
  · rw [hrefs, update_self]

theorem Grown.word (h : Guarded sb i s) {w : UInt32} (hw : s.refs (i, NDIRECT) = some w.toNat) (hj : j < NINDIRECT)
    (hnone : s.refs (i, NDIRECT + 1 + j) = none) (hb : b < sb.size) (hfree : s.bit sb b = false) :
    Grown sb i {NDIRECT + 1 + j} s
        ((s.mark sb b).setBlock w.toNat (setWord ((s.mark sb b).block w.toNat) j (UInt32.ofNat b))) ∧
      ((s.mark sb b).setBlock w.toNat (setWord ((s.mark sb b).block w.toNat) j (UInt32.ofNat b))).refs (i, NDIRECT + 1 + j) =
        some b := by
  have hmark : Guarded sb i (s.mark sb b) := by
    refine ⟨fun c hc => ?_, ?_⟩
    · rw [mark_bit h hfree (lt_of_lt_of_le hc (Nat.sub_le _ _)), h.marked c hc]
      rfl
    · have ho := h.owned
      rw [mark_refs h hb hfree]
      refine ⟨ho.mem, ho.inj, fun {x c} hx => ?_⟩
      change (s.mark sb b).bit sb c = true
      rw [mark_bit h hfree (ho.mem hx).2, show s.bit sb c = true from ho.used hx]
      rfl
  have hrefs : ∀ x, ((s.mark sb b).setBlock w.toNat (setWord ((s.mark sb b).block w.toNat) j (UInt32.ofNat b))).refs x =
      Function.update s.refs (i, NDIRECT + 1 + j) (some b) x := by
    intro x
    have hw' : (s.mark sb b).refs (i, NDIRECT) = some w.toNat := by rw [mark_refs h hb hfree, hw]
    rw [refs_setWord hmark hw' hj (ofNat_ne_zero h hb hfree), Superblock.toNat_ofNat hb, mark_refs h hb hfree]
  have hbw : b ≠ w.toNat := by
    rintro rfl
    exact h.not_inUse hfree (.inr ⟨_, hw⟩)
  constructor
  · apply Grown.take h hb hfree hnone
    · intro c hc
      rw [bit_setBlock _ hc (h.owned.mem hw).1]
      exact mark_bit h hfree hc
    · exact hrefs
    · intro j l c hl hx
      have hcw : c ≠ w.toNat := by
        rintro rfl
        exact hl (congrArg Prod.snd (h.owned.inj rfl hw hx)).symm
      rw [State.setBlock_of_ne _ _ hcw]
      exact mark_block h hb hfree hx
    · intro _
      rw [State.setBlock_of_ne _ _ hbw]
      exact mark_self s sb b
    · rfl
    · rfl
    · intro _ _
      rfl
    · intro ip' hip
      exact ⟨ip'.addrs, hip⟩
  · rw [hrefs, update_self]

theorem refs_of_addr (hm : s.mem i = some ip) (ht : ip.type ≠ .free) (hk : k ≤ NDIRECT) (h0 : ip.addrs k ≠ 0) :
    s.refs (i, k) = some (ip.addrs k).toNat := by
  have hcur := cur_of_mem hm
  apply refs_eq_some.mpr
  rw [slot_of_le hk, hcur]
  exact ⟨ht, rfl, toNat_ne_zero.mpr h0⟩

theorem Grown.refl_of_refs (h : Guarded sb i s) (hk : s.refs (i, k) = some b) : Grown sb i {k} s s := by
  apply Grown.refl h
  intro l hl
  obtain rfl := Finset.mem_singleton.mp hl
  rw [hk]
  exact Option.some_ne_none b

theorem refs_of_word {w : UInt32} (hw : s.refs (i, NDIRECT) = some w.toNat) (hj : j < NINDIRECT) :
    s.refs (i, NDIRECT + 1 + j) =
      if Bytes.word (s.block w.toNat) j = 0 then none else some (Bytes.word (s.block w.toNat) j).toNat := by
  obtain ⟨htype, hws, hw0⟩ := refs_eq_some.mp hw
  rw [slot_of_le (le_refl _)] at hws
  have haddr : (s.cur i).addrs NDIRECT ≠ 0 := toNat_ne_zero.mp (by rw [hws]; exact hw0)
  have hslot : s.slot i (NDIRECT + 1 + j) = (Bytes.word (s.block w.toNat) j).toNat := by rw [slot_word hj haddr, hws]
  split_ifs with h0
  · exact (refs_eq_none htype).mpr (by rw [hslot, h0]; rfl)
  · exact refs_eq_some.mpr ⟨htype, hslot, toNat_ne_zero.mpr h0⟩

theorem wp_bmapSlot (h : Guarded sb i s) (hm : s.mem i = some ip) (ht : ip.type ≠ .free) (hk : k ≤ NDIRECT)
    (hE : s.freeCount sb < s.vacant i {k} → E (.panic "balloc: out of blocks"))
    (hQ : ∀ w t, Grown sb i {k} s t → t.refs (i, k) = some w.toNat → Q w t) : wp (safe sb E) (bmapSlot i k) s Q := by
  unfold bmapSlot
  refine wp_inode hm ?_
  rw [wp_ite]
  split_ifs with h0
  · have hcur := cur_of_mem hm
    have hnone : s.refs (i, k) = none := by
      apply (refs_eq_none (by rwa [hcur])).mpr
      rw [slot_of_le hk, hcur, h0]
      rfl
    refine wp_seq (wp_balloc h (fun hz => hE ?_) (fun b hb hfree => ?_))
    · rw [hz, State.vacant, Finset.filter_singleton, if_pos hnone]
      exact Nat.one_pos
    · obtain ⟨hg, hr⟩ := Grown.addr h hm ht hk h0 hb hfree
      have hm' : (s.mark sb b).mem i = some ip := hm
      refine wp_edit hm' (hQ _ _ hg ?_)
      rw [hr, Superblock.toNat_ofNat hb]
  · have hsome := refs_of_addr hm ht hk h0
    exact hQ _ _ (Grown.refl_of_refs h hsome) hsome

theorem wp_bmap (h : Guarded sb i s) (hm : s.mem i = some ip) (ht : ip.type ≠ .free) {bn : ℕ} (hbn : bn < MAXFILE)
    (hE : s.freeCount sb < s.vacant i (bmapSlots bn) → E (.panic "balloc: out of blocks"))
    (hQ : ∀ w t, Grown sb i (bmapSlots bn) s t → t.refs (i, State.pos bn) = some w.toNat → Q w t) :
    wp (safe sb E) (bmap i bn) s Q := by
  unfold bmap bmapSlots State.pos at *
  by_cases hd : bn < NDIRECT
  · rw [if_pos hd] at hE hQ ⊢
    rw [if_pos hd] at hQ
    exact wp_bmapSlot h hm ht hd.le hE hQ
  · have hj : bn - NDIRECT < NINDIRECT := by
      simp only [MAXFILE] at hbn
      omega
    have hpos : NDIRECT + 1 + (bn - NDIRECT) = bn + 1 := by omega
    rw [if_neg hd] at hE hQ ⊢
    rw [if_neg hd] at hQ
    rw [if_pos hj, wp_bind]
    have hK : ({NDIRECT, bn + 1} : Finset ℕ) = {NDIRECT} ∪ {bn + 1} := rfl
    rw [hK] at hE hQ
    refine wp_bmapSlot h hm ht (le_refl _) (fun hlt => hE ?_) (fun w u hu hw => ?_)
    · have hle : s.vacant i {NDIRECT} ≤ s.vacant i ({NDIRECT} ∪ {bn + 1}) :=
        Finset.card_le_card (Finset.filter_subset_filter _ Finset.subset_union_left)
      omega
    have hword := refs_of_word hw hj
    rw [hpos] at hword
    refine wp_word ?_
    rw [wp_ite]
    split_ifs with h0
    · rw [if_pos h0] at hword
      refine wp_seq (wp_balloc hu.guarded (fun hz => hE ?_) (fun b hb hfree => ?_))
      · have hv : u.vacant i {bn + 1} = 1 := by
          rw [State.vacant, Finset.filter_singleton, if_pos hword]
          rfl
        have hc := hu.count
        rw [hu.vacant_union]
        omega
      · obtain ⟨hg, hr⟩ := Grown.word hu.guarded hw hj (hpos ▸ hword) hb hfree
        rw [hpos] at hg hr
        refine wp_setWord (hQ _ _ (hu.trans hg) ?_)
        rw [hr, Superblock.toNat_ofNat hb]
    · rw [if_neg h0] at hword
      exact hQ _ _ (hu.trans (Grown.refl_of_refs hu.guarded hword)) hword

end Bmap

end EnhancedXv6.Blocks
