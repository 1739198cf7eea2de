
import EnhancedXv6.BlockRuns
import EnhancedXv6.MkfsImage

namespace EnhancedXv6.Mkfs

open Function (update update_idem update_of_ne update_self)
open Bytes Fs Blocks

section Needed

variable {n m off k : ℕ}

def needed (n : ℕ) : Finset ℕ := (Finset.range (MAXFILE + 1)).filter (fun k => (if k ≤ NDIRECT then k else k - 1) * BSIZE < n)

def blocksFor (n : ℕ) : ℕ := (n + (BSIZE - 1)) / BSIZE + if NDIRECT * BSIZE < n then 1 else 0

theorem mem_needed : k ∈ needed n ↔ k ≤ 140 ∧ (if k ≤ 12 then k else k - 1) * 512 < n := by
  rw [needed, Finset.mem_filter, Finset.mem_range, Nat.lt_succ_iff]
  exact Iff.rfl

theorem card_needed (h : n ≤ MAXFILE * BSIZE) : (needed n).card = blocksFor n := by
  have he : needed n = Finset.range (blocksFor n) := by
    ext k
    rw [mem_needed, Finset.mem_range]
    change n ≤ 71680 at h
    change _ ↔ k < (n + 511) / 512 + if 6144 < n then 1 else 0
    split_ifs <;> omega
  rw [he, Finset.card_range]

theorem blocksFor_mono (h : m ≤ n) : blocksFor m ≤ blocksFor n := by
  change (m + 511) / 512 + (if 6144 < m then 1 else 0) ≤ (n + 511) / 512 + if 6144 < n then 1 else 0
  split_ifs <;> omega

theorem needed_add (h : off + n ≤ MAXFILE * BSIZE) : needed (off + n) = writeSlots off n ∪ needed off := by
  ext k
  rw [Finset.mem_union, mem_needed, mem_needed, writeSlots, Finset.mem_biUnion]
  change off + n ≤ 71680 at h
  constructor
  · rintro ⟨hk, hlt⟩
    by_cases ho : (if k ≤ 12 then k else k - 1) * 512 < off
    · exact .inr ⟨hk, ho⟩
    · left
      refine ⟨if k ≤ 12 then k else k - 1, mem_blocks.mpr ⟨(if k ≤ 12 then k else k - 1) * 512, by omega, hlt, ?_⟩, ?_⟩
      · exact Nat.mul_div_cancel _ (by decide)
      · unfold bmapSlots
        change k ∈ if (if k ≤ 12 then k else k - 1) < 12 then ({if k ≤ 12 then k else k - 1} : Finset ℕ)
          else {12, (if k ≤ 12 then k else k - 1) + 1}
        by_cases hk' : k < 12
        · rw [if_pos (by omega : k ≤ 12), if_pos hk']
          exact Finset.mem_singleton_self k
        · rw [if_neg (by split_ifs <;> omega), Finset.mem_insert, Finset.mem_singleton]
          split_ifs <;> omega
  · rintro (⟨bn, hbn, hk⟩ | ⟨hk, hlt⟩)
    · obtain ⟨x, hx, hx', rfl⟩ := mem_blocks.mp hbn
      unfold bmapSlots at hk
      change k ∈ if x / 512 < 12 then ({x / 512} : Finset ℕ) else {12, x / 512 + 1} at hk
      split_ifs at hk
      · rw [Finset.mem_singleton] at hk
        split_ifs <;> omega
      · rw [Finset.mem_insert, Finset.mem_singleton] at hk
        split_ifs <;> omega
    · exact ⟨hk, by omega⟩

end Needed

variable {st st' : State} {i j k n : ℕ} {s t u : Blocks.State} {p : Mem} {ty : Ftype} {bytes : List UInt8}

def Packed (s : Blocks.State) (i : ℕ) : Prop := ∀ k, s.refs (i, k) = none ↔ k ∉ needed (s.size i)

theorem Packed.vacant (h : Packed s i) (hmax : s.size i + n ≤ MAXFILE * BSIZE) :
    s.vacant i (writeSlots (s.size i) n) + blocksFor (s.size i) = blocksFor (s.size i + n) := by
  have hf : (writeSlots (s.size i) n).filter (fun k => s.refs (i, k) = none) = writeSlots (s.size i) n \ needed (s.size i) := by
    ext k
    rw [Finset.mem_filter, Finset.mem_sdiff, h k]
  rw [State.vacant, hf, ← card_needed (by omega), ← card_needed hmax, needed_add hmax, Finset.card_sdiff_add_card]

structure Has (s : Blocks.State) (i : ℕ) (ty : Ftype) (bytes : List UInt8) : Prop where
  type : (s.cur i).type = ty
  nlink : (s.cur i).nlink = 1
  size : s.size i = bytes.length
  byte : ∀ x, s.byte i x = bytes.getD x 0

structure Built (st : State) (fs : List (Ftype × List UInt8)) (s : Blocks.State) : Prop where
  shows : Shows st st.table s
  sound : Sound sb s
  label : st.img 1 = State.blank.img 1
  freeinode : st.freeinode = fs.length + 1
  packed : ∀ i, Packed s i
  node : ∀ i ty bytes, fs[i]? = some (ty, bytes) → Has s (i + 1) ty bytes
  empty : ∀ i, i = 0 ∨ fs.length < i → st.table i = {}

variable {fs : List (Ftype × List UInt8)}

theorem Shows.cur (h : Shows st st.table s) (i : ℕ) : s.cur i = st.table i := cur_of_mem (h.mem i)

theorem Shows.stored {din : ℕ → Inode} {ip : Inode} (h : Shows st din s) (hs : Stored st i ip st') (ht : st'.table = update din i ip) :
    Shows st' st'.table (s.store i ip) where
  mem j := by
    rw [ht]
    by_cases hj : j = i
    · subst hj
      rw [update_self, store_mem]
    · rw [update_of_ne hj, store_mem_of_ne _ _ hj, h.mem]
  block b hb hb' := (h.block b hb hb').trans (hs.img b (.inr (le_trans (by decide) hb))).symm
  bit b hb := by
    rw [hs.freeblock]
    exact h.bit b hb
  zero b hb hb' := by
    rw [hs.freeblock] at hb
    rw [hs.img b (.inr (le_trans (by decide) (le_trans h.lo hb)))]
    exact h.zero b hb hb'
  lo := by
    rw [hs.freeblock]
    exact h.lo
  hi := by
    rw [hs.freeblock]
    exact h.hi

theorem getD_append_map (bytes : List UInt8) (p : Mem) (n x : ℕ) : (bytes ++ (List.range n).map p).getD x 0 =
    if bytes.length ≤ x ∧ x < bytes.length + n then p (x - bytes.length) else bytes.getD x 0 := by
  by_cases hx : x < bytes.length
  · rw [if_neg (by omega), List.getD_append _ _ _ _ hx]
  · rw [List.getD_append_right _ _ _ _ (by omega)]
    by_cases hn : x < bytes.length + n
    · rw [if_pos ⟨by omega, hn⟩, List.getD_eq_getElem _ _ (by rw [List.length_map, List.length_range]; omega), List.getElem_map,
        List.getElem_range]
    · rw [if_neg (by omega), List.getD_eq_default _ _ (by rw [List.length_map, List.length_range]; omega),
        List.getD_eq_default _ _ (by omega)]

theorem Has.congr (h : Has s i ty bytes) (hcur : u.cur i = s.cur i) (hbyte : ∀ x, u.byte i x = s.byte i x) : Has u i ty bytes where
  type := by rw [hcur, h.type]
  nlink := by rw [hcur, h.nlink]
  size := by rw [State.size, hcur, ← h.size, State.size]
  byte x := (hbyte x).trans (h.byte x)

theorem iappend_spec (h : Built st fs s) (hi : fs[i]? = some (ty, bytes)) (hty : ty ≠ .free) (hN : fs.length < NINODES) (hn : 0 < n)
    (hmax : bytes.length + n ≤ MAXFILE * BSIZE) (hroom : st.freeblock + blocksFor (bytes.length + n) ≤ FSSIZE + blocksFor bytes.length) :
    ∃ st' u, st.iappend (i + 1) p n = some st' ∧ Built st' (fs.set i (ty, bytes ++ (List.range n).map p)) u ∧
      st'.freeblock + blocksFor bytes.length = st.freeblock + blocksFor (bytes.length + n) := by
  have hnode := h.node i ty bytes hi
  have hlen : i < fs.length := (List.getElem?_eq_some_iff.mp hi).1
  have hcur := h.shows.cur (i + 1)
  have hsize : (st.table (i + 1)).size.toNat = bytes.length := by
    rw [← hnode.size, State.size, hcur]
  have ht : (st.table (i + 1)).type ≠ .free := by
    rw [← hcur, hnode.type]
    exact hty
  have hvac := (h.packed (i + 1)).vacant (n := n) (by rwa [hnode.size])
  have hfree := h.shows.freeCount
  have hhi := h.shows.hi
  rw [hnode.size] at hvac
  have hmax' : bytes.length + n ≤ 71680 := hmax
  obtain ⟨st₁, ip, t, he, hs, hk, hw, hfill, ha⟩ := iappendLoop_spec (p := p) h.shows
    (h.sound.guarded (i := i + 1)) ht (Nat.lt_succ_self n) hmax (by omega)
  obtain ⟨a, hmt⟩ := hw.inode _ (h.shows.mem (i + 1))
  obtain rfl : ip = { st.table (i + 1) with addrs := a } := by
    rw [hs.mem, update_self] at hmt
    exact Option.some.inj hmt
  -- the inode that is stored at the end
  have hstor := storable_table st (i + 1)
  have hz : (UInt32.ofNat (bytes.length + n)).toNat = bytes.length + n := by
    rw [UInt32.toNat_ofNat']
    omega
  obtain ⟨st', he', hst⟩ := winode_spec st₁ (i + 1) { st.table (i + 1) with size := UInt32.ofNat (bytes.length + n), addrs := a }
    (by omega) ⟨hstor.major, hstor.nlink, fun l hl => (ha l hl).trans (hstor.addrs l hl)⟩
  have htable : st'.table = update st.table (i + 1)
      { st.table (i + 1) with size := UInt32.ofNat (bytes.length + n), addrs := a } := by rw [hst.table, hk.table]
  have hnn : (UInt32.ofNat n).toNat = n := by
    rw [UInt32.toNat_ofNat']
    omega
  have hsv : Saved sb (i + 1) (st.table (i + 1)).size.toNat (UInt32.ofNat n).toNat p (st.table (i + 1)) s
      (t.store (i + 1) { st.table (i + 1) with size := UInt32.ofNat (bytes.length + n), addrs := a }) := by
    apply Written.saved_store (t := t) (by rw [hsize, hnn]; exact hw) hmt
    · rw [hz, hsize, hnn]
    · rw [hz, hsize]
      omega
  rw [hsize, hnn] at hsv
  generalize hu : t.store (i + 1) { st.table (i + 1) with size := UInt32.ofNat (bytes.length + n), addrs := a } = u at hsv
  have hshows : Shows st' st'.table u := by
    rw [← hu]
    exact hs.stored hst (by rw [htable, update_idem])
  have hrefs : u.refs = t.refs := by
    rw [← hu]
    exact store_refs hmt rfl rfl
  have hother : ∀ j ≠ i + 1, u.cur j = s.cur j := by
    intro j hj
    rw [hshows.cur, h.shows.cur, htable, update_of_ne hj]
  have husize : u.size (i + 1) = bytes.length + n := by
    rw [State.size, hshows.cur, htable, update_self]
    exact hz
  refine ⟨st', u, ?_, ?_, ?_⟩
  · rw [State.iappend, rinode_eq (by omega)]
    dsimp only [Option.bind_eq_bind, Option.bind_some]
    rw [hsize, he]
    exact he'
  · exact {
      shows := hshows
      sound := hsv.sound h.sound
      label := by rw [hst.img 1 (.inl (by decide)), hk.img 1 (by decide), h.label]
      freeinode := by rw [hst.freeinode, hk.freeinode, h.freeinode, List.length_set]
      packed := by
        intro j k
        rw [hrefs]
        by_cases hj : j = i + 1
        · subst hj
          rw [hfill.slots, h.packed, husize, needed_add hmax, Finset.mem_union, not_or, hnode.size]
          exact and_comm
        · rw [hfill.others j hj, h.packed, State.size, State.size, hother j hj]
      node := by
        intro j ty' bytes' hj
        by_cases hji : j = i
        · subst hji
          rw [List.getElem?_set_self hlen] at hj
          cases hj
          refine ⟨?_, ?_, ?_, fun x => ?_⟩
          · rw [hshows.cur, htable, update_self, ← hnode.type, hcur]
          · have hlink := hnode.nlink
            rw [hcur] at hlink
            rw [hshows.cur, htable, update_self]
            exact hlink
          · rw [husize, List.length_append, List.length_map, List.length_range]
          · rw [hsv.byte, getD_append_map, hnode.byte]
        · rw [List.getElem?_set_ne (Ne.symm hji)] at hj
          apply (h.node j ty' bytes' hj).congr (hother (j + 1) (by omega))
          intro x
          unfold State.byte
          rw [hsv.others (j + 1) (by omega)]
      empty := by
        intro j hj
        rw [List.length_set] at hj
        rw [htable, update_of_ne (by omega)]
        exact h.empty j hj }
  · have hc := hfill.count
    rw [hs.freeCount] at hc
    have hlo := hs.hi
    rw [hst.freeblock]
    omega

theorem needed_zero : needed 0 = ∅ := by
  apply Finset.filter_false_of_mem
  intro k _
  exact Nat.not_lt_zero _

theorem ialloc_spec (h : Built st fs s) (hN : fs.length + 1 < NINODES) (ty : Ftype) :
    ∃ st' u, st.ialloc ty = some (fs.length + 1, st') ∧ Built st' (fs ++ [(ty, [])]) u ∧ st'.freeblock = st.freeblock := by
  obtain ⟨st', he, hst⟩ := winode_spec { st with freeinode := fs.length + 1 + 1 } (fs.length + 1) { type := ty, nlink := 1, size := 0 } hN
    ⟨(by decide : (-32768 : ℤ) ≤ 0 ∧ (0 : ℤ) < 32768), (by decide : 1 < 65536), fun _ _ => rfl⟩
  have htable : st'.table = update st.table (fs.length + 1) { type := ty, nlink := 1, size := 0 } := hst.table
  have hold : Shows { st with freeinode := fs.length + 1 + 1 } st.table s :=
    ⟨h.shows.mem, h.shows.block, h.shows.bit, h.shows.zero, h.shows.lo, h.shows.hi⟩
  have hshows := hold.stored hst htable
  generalize hu : s.store (fs.length + 1) { type := ty, nlink := 1, size := 0 } = u at hshows
  have hblock : u.block = s.block := by rw [← hu]; rfl
  have hcur : u.cur (fs.length + 1) = { type := ty, nlink := 1, size := 0 } := by rw [hshows.cur, htable, update_self]
  have hother : ∀ j ≠ fs.length + 1, u.cur j = s.cur j := by
    intro j hj
    rw [hshows.cur, h.shows.cur, htable, update_of_ne hj]
  have hnew : ∀ k, u.refs (fs.length + 1, k) = none := by
    intro k
    apply refs_empty
    intro l _
    rw [hcur]
  have hrefs : u.refs = s.refs := by
    funext x
    obtain ⟨j, k⟩ := x
    by_cases hj : j = fs.length + 1
    · subst hj
      rw [hnew, eq_comm]
      apply refs_empty
      intro l _
      rw [h.shows.cur, h.empty _ (.inr (Nat.lt_succ_self _))]
    · apply refs_congr
      · rw [hother j hj]
      · unfold State.slot
        rw [hother j hj, hblock]
  refine ⟨st', u, ?_, ?_, hst.freeblock⟩
  · rw [State.ialloc, h.freeinode, he]
    rfl
  · exact {
      shows := hshows
      sound := h.sound.congr hblock hrefs
      label := (hst.img 1 (.inl (by decide))).trans h.label
      freeinode := by rw [hst.freeinode, List.length_append, List.length_singleton]
      packed := by
        intro j k
        by_cases hj : j = fs.length + 1
        · subst hj
          have hzero : u.size (fs.length + 1) = 0 := by
            rw [State.size, hcur]
            rfl
          rw [hnew, hzero, needed_zero]
          exact ⟨fun _ => Finset.notMem_empty k, fun _ => rfl⟩
        · rw [hrefs, h.packed, State.size, State.size, hother j hj]
      node := by
        intro j ty' bytes' hj
        by_cases hlt : j < fs.length
        · rw [List.getElem?_append_left hlt] at hj
          apply (h.node j ty' bytes' hj).congr (hother (j + 1) (by omega))
          intro x
          unfold State.byte Blocks.State.file
          rw [hrefs, hblock]
        · obtain rfl : j = fs.length := by
            have hlen := (List.getElem?_eq_some_iff.mp hj).1
            rw [List.length_append, List.length_singleton] at hlen
            omega
          rw [List.getElem?_concat_length] at hj
          cases hj
          refine ⟨by rw [hcur], by rw [hcur], ?_, fun x => ?_⟩
          · rw [State.size, hcur]
            rfl
          · unfold State.byte Blocks.State.file
            rw [hnew]
            rfl
      empty := by
        intro j hj
        rw [List.length_append, List.length_singleton] at hj
        rw [htable, update_of_ne (by omega)]
        exact h.empty j (by omega) }

section Blank

theorem bit_bitmap (n b : ℕ) : bit (bitmap n) b = decide (b < n) := by
  induction n with
  | zero =>
    change bit (fun _ => 0) b = decide (b < 0)
    rw [bit_eq, decide_eq_false (Nat.not_lt_zero b)]
    exact Nat.zero_testBit _
  | succ n ih =>
    rw [bitmap, bit_setBit, ih, ← Bool.decide_or, decide_eq_decide]
    omega

theorem bblock_eq {b : ℕ} (h : b < FSSIZE) : sb.bblock b = bmapstart ∧ b % BPB = b := by
  change b < 1000 at h
  change b / 4096 + 58 = 58 ∧ b % 4096 = b
  omega

def blankView : Blocks.State where
  block b := if b = bmapstart then bitmap nmeta else fun _ => 0
  dinode _ := {}
  mem _ := some {}
  devsw _ := ⟨none, none⟩

theorem blank_label : State.blank.img 1 = setWords (fun _ => 0) 0 superblock 7 := by
  unfold State.blank
  dsimp only
  rw [update_self]

theorem blank_img {b : ℕ} (h : b ≠ 1) : State.blank.img b = fun _ => 0 := by
  unfold State.blank
  dsimp only
  rw [update_of_ne h]

theorem blank_table (i : ℕ) : State.blank.table i = {} := by
  unfold State.table
  split_ifs with hi
  · have hne : iblock inodestart i ≠ 1 := by
      have hlo := (iblock_lt hi).1
      change 32 ≤ _ at hlo
      omega
    have hw : dinodeIn (fun _ => 0) i = ofWords (fun _ => 0) := rfl
    rw [blank_img hne, hw]
    unfold ofWords
    congr 1
    funext k
    exact ite_self 0
  · rfl

theorem blank_refs (x : ℕ × ℕ) : blankView.refs x = none := refs_empty (fun _ _ => rfl)

theorem blank_bit {b : ℕ} (h : b < FSSIZE) : blankView.bit sb b = decide (b < nmeta) := by
  obtain ⟨h1, h2⟩ := bblock_eq h
  rw [State.bit, h1, h2]
  exact bit_bitmap nmeta b

theorem built_blank : Built State.blank [] blankView where
  shows := {
    mem := by
      intro i
      rw [blank_table]
      rfl
    block := by
      intro b hb _
      have h1 : b ≠ bmapstart := by
        rintro rfl
        exact absurd hb (by decide)
      have h2 : b ≠ 1 := by
        rintro rfl
        exact absurd hb (by decide)
      exact (if_neg h1).trans (blank_img h2).symm
    bit := fun b hb => blank_bit hb
    zero := by
      intro b hb _
      have h2 : b ≠ 1 := by
        rintro rfl
        exact absurd hb (by decide)
      exact blank_img h2
    lo := le_refl nmeta
    hi := by decide }
  sound := by
    constructor
    · intro b hb
      rw [blank_bit hb, decide_eq_true_eq, sb_nmeta]
      simp only [blank_refs]
      constructor
      · exact Or.inl
      · rintro (h | ⟨_, h⟩)
        · exact h
        · cases h
    · intro x y b hx
      rw [blank_refs] at hx
      cases hx
    · intro x b hx
      rw [blank_refs] at hx
      cases hx
  label := rfl
  freeinode := rfl
  packed i k := by
    have hzero : blankView.size i = 0 := rfl
    rw [blank_refs, hzero, needed_zero]
    exact ⟨fun _ => Finset.notMem_empty k, fun _ => rfl⟩
  node i _ _ hi := by cases hi
  empty i _ := blank_table i

end Blank

end EnhancedXv6.Mkfs
