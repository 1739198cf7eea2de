import EnhancedXv6.BlockSpecs
import Mathlib.Order.Interval.Finset.Nat

namespace EnhancedXv6.Blocks

open Command Bytes Fs Ownership

variable {sb : Superblock} {s t u : State} {i j b c off n : ℕ} {ip : Inode} {E : Stop → Prop} {src : Mem}

namespace State

def byte (s : State) (i x : ℕ) : UInt8 := (s.file i (x / BSIZE)).getD (fun _ => 0) (x % BSIZE)

def size (s : State) (i : ℕ) : ℕ := (s.cur i).size.toNat

def contents (s : State) (i : ℕ) : List UInt8 := (List.range (s.size i)).map (s.byte i)

def HoleFree (s : State) (i : ℕ) : Prop := ∀ bn, (s.file i bn).isSome ↔ bn * BSIZE < s.size i

end State

def blocks (off n : ℕ) : Finset ℕ := (Finset.Ico off (off + n)).image (· / BSIZE)

def writeSlots (off n : ℕ) : Finset ℕ := (blocks off n).biUnion bmapSlots

def chunk (off n : ℕ) : ℕ := min n (BSIZE - off % BSIZE)

theorem mem_blocks : c ∈ blocks off n ↔ ∃ x, off ≤ x ∧ x < off + n ∧ x / BSIZE = c := by
  simp [blocks, and_assoc]

theorem chunk_pos (off : ℕ) (hn : n ≠ 0) : 0 < chunk off n := by
  simp only [chunk, BSIZE]
  omega

theorem chunk_le (off n : ℕ) : chunk off n ≤ n := Nat.min_le_left _ _

theorem chunk_div {x : ℕ} (hl : off ≤ x) (hx : x < off + chunk off n) : x / BSIZE = off / BSIZE := by
  simp only [chunk, BSIZE] at hx ⊢
  omega

theorem blocks_one (off : ℕ) (hn : n ≠ 0) : blocks off (chunk off n) = {off / BSIZE} := by
  have hpos := chunk_pos off hn
  ext c
  rw [mem_blocks, Finset.mem_singleton]
  constructor
  · rintro ⟨x, h1, h2, rfl⟩
    exact chunk_div h1 h2
  · rintro rfl
    exact ⟨off, le_refl _, by omega, rfl⟩

theorem blocks_chunk (hn : n ≠ 0) : blocks off n = {off / BSIZE} ∪ blocks (off + chunk off n) (n - chunk off n) := by
  have hpos := chunk_pos off hn
  have hle := chunk_le off n
  ext c
  simp only [Finset.mem_union, Finset.mem_singleton, mem_blocks]
  constructor
  · rintro ⟨x, h1, h2, rfl⟩
    by_cases hx : x < off + chunk off n
    · exact .inl (chunk_div h1 hx)
    · exact .inr ⟨x, by omega, by omega, rfl⟩
  · rintro (rfl | ⟨x, h1, h2, rfl⟩)
    · exact ⟨off, le_refl _, by omega, rfl⟩
    · exact ⟨x, by omega, by omega, rfl⟩

theorem writeSlots_chunk (hn : n ≠ 0) :
    writeSlots off n = bmapSlots (off / BSIZE) ∪ writeSlots (off + chunk off n) (n - chunk off n) := by
  unfold writeSlots
  rw [blocks_chunk hn, Finset.union_biUnion, Finset.singleton_biUnion]

theorem pos_mem_bmapSlots {bn : ℕ} : State.pos c ∈ bmapSlots bn ↔ c = bn := by
  unfold bmapSlots State.pos
  split_ifs with h1 h2 h2
  · rw [Finset.mem_singleton]
  · rw [Finset.mem_singleton]
    omega
  · rw [Finset.mem_insert, Finset.mem_singleton]
    omega
  · rw [Finset.mem_insert, Finset.mem_singleton]
    omega

theorem Guarded.setData (h : Guarded sb i s) (hb : s.refs (i, State.pos c) = some b) (d : Mem) :
    (s.setBlock b d).refs = s.refs ∧ Guarded sb i (s.setBlock b d) ∧ (Sound sb s → Sound sb (s.setBlock b d)) ∧
      (s.setBlock b d).freeCount sb = s.freeCount sb ∧
      ∀ j bn, (s.setBlock b d).file j bn = if j = i ∧ bn = c then some d else s.file j bn := by
  have hrefs : (s.setBlock b d).refs = s.refs := by
    apply refs_setBlock
    intro j hj
    exact State.pos_ne c (congrArg Prod.snd (h.owned.inj rfl hb hj))
  have hle : sb.nmeta ≤ b := (h.owned.mem hb).1
  have hbit : ∀ c < sb.size, (s.setBlock b d).bit sb c = s.bit sb c := fun c hc => bit_setBlock s hc hle
  refine ⟨hrefs, ⟨fun c hc => ?_, ?_⟩, fun hs => ?_, ?_, fun j bn => ?_⟩
  · rw [hbit c (lt_of_lt_of_le hc (Nat.sub_le _ _))]
    exact h.marked c hc
  · rw [hrefs]
    refine ⟨h.owned.mem, h.owned.inj, fun {x c} hx => ?_⟩
    change (s.setBlock b d).bit sb c = true
    rw [hbit c (h.owned.mem hx).2]
    exact h.owned.used hx
  · refine ⟨fun c hc => ?_, ?_, ?_⟩
    · rw [hbit c hc, hrefs]
      exact hs.bitmap c hc
    · rw [hrefs]
      exact hs.once
    · rw [hrefs]
      exact hs.data
  · unfold State.freeCount
    congr 1
    apply Finset.filter_congr
    intro c hc
    rw [hbit c (Finset.mem_range.mp hc)]
  · unfold State.file
    rw [hrefs]
    split_ifs with hx
    · obtain ⟨rfl, rfl⟩ := hx
      rw [hb, Option.map_some, State.setBlock_self]
    · cases hr : s.refs (j, State.pos bn) with
      | none => rfl
      | some b' =>
        have hne : b' ≠ b := by
          rintro rfl
          have he := (h.owned.inj rfl hb hr).symm
          exact hx ⟨congrArg Prod.fst he, State.pos_inj (congrArg Prod.snd he)⟩
        rw [Option.map_some, Option.map_some, State.setBlock_of_ne _ _ hne]

structure Written (sb : Superblock) (i off n : ℕ) (src : Mem) (s t : State) : Prop where
  guarded : Guarded sb i t
  sound : Sound sb s → Sound sb t
  dinode : t.dinode = s.dinode
  devsw : t.devsw = s.devsw
  mem : ∀ j ≠ i, t.mem j = s.mem j
  inode : ∀ ip, s.mem i = some ip → ∃ a, t.mem i = some { ip with addrs := a }
  others : ∀ j ≠ i, ∀ bn, t.file j bn = s.file j bn
  has : ∀ bn, (t.file i bn).isSome ↔ (s.file i bn).isSome ∨ bn ∈ blocks off n
  byte : ∀ x, t.byte i x = if off ≤ x ∧ x < off + n then src (x - off) else s.byte i x
  same : (∀ bn ∈ blocks off n, (s.file i bn).isSome) → t.mem i = s.mem i

namespace Written

theorem zero (h : Guarded sb i s) (off : ℕ) (src : Mem) : Written sb i off 0 src s s where
  guarded := h
  sound := id
  dinode := rfl
  devsw := rfl
  mem _ _ := rfl
  inode ip hm := ⟨ip.addrs, hm⟩
  others _ _ _ := rfl
  has bn := by simp [blocks]
  byte x := by rw [if_neg (by omega)]
  same _ := rfl

theorem trans {m : ℕ} (h : Written sb i off m src s t) (h' : Written sb i (off + m) n (fun k => src (m + k)) t u)
    (hb : blocks off (m + n) = blocks off m ∪ blocks (off + m) n) : Written sb i off (m + n) src s u where
  guarded := h'.guarded
  sound hs := h'.sound (h.sound hs)
  dinode := h'.dinode.trans h.dinode
  devsw := h'.devsw.trans h.devsw
  mem j hj := (h'.mem j hj).trans (h.mem j hj)
  inode ip hm := by
    obtain ⟨a, ha⟩ := h.inode ip hm
    obtain ⟨a', ha'⟩ := h'.inode _ ha
    exact ⟨a', ha'⟩
  others j hj bn := (h'.others j hj bn).trans (h.others j hj bn)
  has bn := by
    rw [h'.has, h.has, hb, Finset.mem_union, or_assoc]
  byte x := by
    rw [h'.byte, h.byte]
    by_cases h1 : off + m ≤ x ∧ x < off + m + n
    · rw [if_pos h1, if_pos (by omega), show m + (x - (off + m)) = x - off by omega]
    · rw [if_neg h1]
      by_cases h2 : off ≤ x ∧ x < off + m
      · rw [if_pos h2, if_pos (by omega)]
      · rw [if_neg h2, if_neg (by omega)]
  same hs := by
    refine (h'.same (fun bn hbn => ?_)).trans (h.same (fun bn hbn => hs bn ?_))
    · exact (h.has bn).mpr (.inl (hs bn (by rw [hb]; exact Finset.mem_union_right _ hbn)))
    · rw [hb]
      exact Finset.mem_union_left _ hbn

end Written

theorem refs_of_file {bn : ℕ} (h : (s.file i bn).isSome) {k : ℕ} (hk : k ∈ bmapSlots bn) : s.refs (i, k) ≠ none := by
  unfold State.file at h
  rw [Option.isSome_map] at h
  obtain ⟨b, hb⟩ := Option.isSome_iff_exists.mp h
  unfold bmapSlots at hk
  unfold State.pos at hb
  split_ifs at hk hb with hd
  · obtain rfl := Finset.mem_singleton.mp hk
    rw [hb]
    exact Option.some_ne_none _
  · rcases Finset.mem_insert.mp hk with rfl | hk
    · obtain ⟨ht, hslot, h0⟩ := refs_eq_some.mp hb
      have ha : (s.cur i).addrs NDIRECT ≠ 0 := by
        intro ha
        rw [State.slot, slot, if_neg (by omega), if_neg (by simp [ha])] at hslot
        exact h0 hslot.symm
      rw [refs_eq_some.mpr ⟨ht, slot_of_le (le_refl _), toNat_ne_zero.mpr ha⟩]
      exact Option.some_ne_none _
    · obtain rfl := Finset.mem_singleton.mp hk
      rw [hb]
      exact Option.some_ne_none _

theorem Grown.written (h : Grown sb i (bmapSlots (off / BSIZE)) s t) (hn : n ≠ 0)
    (hb : t.refs (i, State.pos (off / BSIZE)) = some b) :
    Written sb i off (chunk off n) src s (t.setBlock b (splice (t.block b) (off % BSIZE) (chunk off n) src)) := by
  obtain ⟨hrefs, hg, hsound, -, hfile⟩ := h.guarded.setData hb (splice (t.block b) (off % BSIZE) (chunk off n) src)
  have hchunk := blocks_one off hn
  have hcur : t.file i (off / BSIZE) = some ((s.file i (off / BSIZE)).getD (fun _ => 0)) := by
    rw [h.file_eq, if_pos ⟨rfl, pos_mem_bmapSlots.mpr rfl⟩]
  have hblock : t.block b = (s.file i (off / BSIZE)).getD (fun _ => 0) := by
    rw [State.file, hb, Option.map_some] at hcur
    exact Option.some.inj hcur
  have hother : ∀ j bn, ¬ (j = i ∧ bn = off / BSIZE) → t.file j bn = s.file j bn := by
    intro j bn hne
    rw [h.file_eq, if_neg]
    rintro ⟨rfl, hp⟩
    exact hne ⟨rfl, pos_mem_bmapSlots.mp hp⟩
  exact {
    guarded := hg
    sound := fun hs => hsound (h.sound hs)
    dinode := h.dinode
    devsw := h.devsw
    mem := h.mem
    inode := h.inode
    others := fun j hj bn => by
      rw [hfile, if_neg (fun e => hj e.1), hother j bn (fun e => hj e.1)]
    has := fun bn => by
      rw [hfile, hchunk, Finset.mem_singleton]
      by_cases e : bn = off / BSIZE
      · rw [if_pos ⟨rfl, e⟩]
        simp [e]
      · rw [if_neg (fun x => e x.2), hother i bn (fun x => e x.2)]
        simp [e]
    byte := fun x => by
      unfold State.byte
      rw [hfile]
      by_cases e : x / BSIZE = off / BSIZE
      · rw [if_pos ⟨rfl, e⟩, e, Option.getD_some, splice, hblock]
        have hiff : (off % BSIZE ≤ x % BSIZE ∧ x % BSIZE < off % BSIZE + chunk off n) ↔ (off ≤ x ∧ x < off + chunk off n) := by
          simp only [BSIZE] at e ⊢
          omega
        by_cases hx : off ≤ x ∧ x < off + chunk off n
        · rw [if_pos (hiff.mpr hx), if_pos hx]
          congr 1
          simp only [BSIZE] at e ⊢
          omega
        · rw [if_neg (mt hiff.mp hx), if_neg hx]
      · rw [if_neg (fun x => e x.2), hother i _ (fun x => e x.2), if_neg]
        rintro ⟨h1, h2⟩
        exact e (chunk_div h1 h2)
    same := fun hs => by
      have hfull := hs (off / BSIZE) (by rw [hchunk]; exact Finset.mem_singleton_self _)
      have he := h.same (fun k hk => refs_of_file hfull hk)
      rw [he]
      rfl }

theorem writeLoop_succ {fuel : ℕ} (hn : n ≠ 0) : writeLoop i (fuel + 1) off n src =
    bmap i (off / BSIZE) >>= fun b => (op (.setBytes b (off % BSIZE) (chunk off n) src) : Code Unit) >>= fun _ =>
      writeLoop i fuel (off + chunk off n) (n - chunk off n) (fun k => src (chunk off n + k)) := if_neg hn

theorem wp_writeLoop {Q : Unit → State → Prop} {fuel : ℕ} (h : Guarded sb i s) (hm : s.mem i = some ip) (ht : ip.type ≠ .free)
    (hf : n ≤ fuel) (hmax : off + n ≤ MAXFILE * BSIZE)
    (hE : s.freeCount sb < s.vacant i (writeSlots off n) → E (.panic "balloc: out of blocks"))
    (hQ : ∀ t, Written sb i off n src s t → Q () t) : wp (safe sb E) (writeLoop i fuel off n src) s Q := by
  induction fuel generalizing s ip off n src with
  | zero =>
    obtain rfl := Nat.le_zero.mp hf
    exact hQ s (.zero h off src)
  | succ fuel ih =>
    by_cases hn : n = 0
    · subst hn
      exact hQ s (.zero h off src)
    rw [writeLoop_succ hn]
    have hpos := chunk_pos off hn
    have hle := chunk_le off n
    have hbn : off / BSIZE < MAXFILE := by
      apply Nat.div_lt_of_lt_mul
      rw [Nat.mul_comm]
      omega
    refine wp_seq (wp_bmap h hm ht hbn (fun hlt => hE ?_) (fun w t hg hw => ?_))
    · have hsub : s.vacant i (bmapSlots (off / BSIZE)) ≤ s.vacant i (writeSlots off n) := by
        apply Finset.card_le_card
        apply Finset.filter_subset_filter
        rw [writeSlots_chunk hn]
        exact Finset.subset_union_left
      omega
    refine wp_setBytes ?_
    have hone : Written sb i off (chunk off n) src s _ := hg.written hn hw
    obtain ⟨a, hmt⟩ := hg.inode ip hm
    obtain ⟨hrefs, -, -, hcount, -⟩ := hg.guarded.setData hw (splice (t.block w.toNat) (off % BSIZE) (chunk off n) src)
    refine ih hone.guarded hmt ht (by omega) (by omega) (fun hlt => hE ?_) (fun u hu => hQ u ?_)
    · have hc := hg.count
      rw [writeSlots_chunk hn, hg.vacant_union]
      have hv : ∀ K, (t.setBlock w.toNat (splice (t.block w.toNat) (off % BSIZE) (chunk off n) src)).vacant i K = t.vacant i K := by
        intro K
        unfold State.vacant
        rw [hrefs]
      rw [hcount] at hlt
      have := hv (writeSlots (off + chunk off n) (n - chunk off n))
      omega
    · have hall := hone.trans (n := n - chunk off n) hu
      have he : chunk off n + (n - chunk off n) = n := by omega
      rw [he] at hall
      apply hall
      rw [blocks_chunk hn, blocks_one off hn]

section Read

variable {Q : List UInt8 → State → Prop} {fuel : ℕ}

theorem byte_of_refs {x : ℕ} (hb : s.refs (i, State.pos (x / BSIZE)) = some b) : s.byte i x = s.block b (x % BSIZE) := by
  unfold State.byte State.file
  rw [hb]
  rfl

theorem lt_of_file {bn : ℕ} (h : (s.file i bn).isSome) : bn < MAXFILE := by
  unfold State.file at h
  rw [Option.isSome_map] at h
  obtain ⟨b, hb⟩ := Option.isSome_iff_exists.mp h
  obtain ⟨-, hslot, h0⟩ := refs_eq_some.mp hb
  by_contra hge
  have hle : NDIRECT + NINDIRECT ≤ bn := by
    simp only [MAXFILE] at hge
    omega
  unfold State.slot slot State.pos at hslot
  rw [if_neg (by omega : ¬ bn < NDIRECT), if_neg (by omega), if_neg (by simp only [MAXFILE]; omega)] at hslot
  exact h0 hslot.symm

theorem vacant_eq_zero {K : Finset ℕ} (h : ∀ k ∈ K, s.refs (i, k) ≠ none) : s.vacant i K = 0 :=
  Finset.card_eq_zero.mpr (Finset.filter_eq_empty_iff.mpr h)

theorem readLoop_succ (hn : n ≠ 0) : readLoop i (fuel + 1) off n =
    bmap i (off / BSIZE) >>= fun b => (op (.bytes b (off % BSIZE) (chunk off n)) : Code (List UInt8)) >>= fun bytes : List UInt8 =>
      readLoop i fuel (off + chunk off n) (n - chunk off n) >>= fun rest => pure (bytes ++ rest) := if_neg hn

theorem wp_readLoop (h : Guarded sb i s) (hm : s.mem i = some ip) (ht : ip.type ≠ .free) (hf : n ≤ fuel)
    (hfull : ∀ bn ∈ blocks off n, (s.file i bn).isSome)
    (hQ : Q ((List.range n).map (fun k => s.byte i (off + k))) s) : wp (safe sb E) (readLoop i fuel off n) s Q := by
  induction fuel generalizing off n Q with
  | zero =>
    obtain rfl := Nat.le_zero.mp hf
    exact hQ
  | succ fuel ih =>
    by_cases hn : n = 0
    · subst hn
      exact hQ
    rw [readLoop_succ hn, wp_bind]
    have hpos := chunk_pos off hn
    have hle := chunk_le off n
    have hmem : off / BSIZE ∈ blocks off n := mem_blocks.mpr ⟨off, le_refl _, by omega, rfl⟩
    have hslots : ∀ k ∈ bmapSlots (off / BSIZE), s.refs (i, k) ≠ none := fun k hk => refs_of_file (hfull _ hmem) hk
    refine wp_bmap h hm ht (lt_of_file (hfull _ hmem)) (fun hlt => ?_) (fun w t hg hw => ?_)
    · rw [vacant_eq_zero hslots] at hlt
      exact absurd hlt (Nat.not_lt_zero _)
    obtain rfl := hg.same hslots
    refine wp_bytes ?_
    refine wp_seq (ih (by omega) (fun bn hbn => hfull bn ?_) ?_)
    · rw [blocks_chunk hn]
      exact Finset.mem_union_right _ hbn
    · have he : n = chunk off n + (n - chunk off n) := by omega
      rw [he, List.range_add, List.map_append, List.map_map] at hQ
      have hfirst : (List.range (chunk off n)).map (fun k => t.block w.toNat (off % BSIZE + k)) =
          (List.range (chunk off n)).map (fun k => t.byte i (off + k)) := by
        apply List.map_congr_left
        intro k hk
        have hk' := List.mem_range.mp hk
        have hdiv : (off + k) / BSIZE = off / BSIZE := chunk_div (n := n) (by omega) (by omega)
        rw [byte_of_refs (x := off + k) (by rw [hdiv]; exact hw)]
        congr 1
        simp only [BSIZE] at hdiv ⊢
        omega
      rw [wp_pure, hfirst]
      convert hQ using 3
      funext k
      rw [Function.comp_apply, Nat.add_assoc]

end Read

section Sizes

variable {a n : UInt32}

theorem add_lt_left : a + n < a ↔ 4294967296 ≤ a.toNat + n.toNat := by
  have ha := a.toNat_lt
  have hn := n.toNat_lt
  rw [UInt32.lt_iff_toNat_lt, UInt32.toNat_add]
  omega

theorem toNat_add (h : ¬ a + n < a) : (a + n).toNat = a.toNat + n.toNat := by
  rw [add_lt_left] at h
  rw [UInt32.toNat_add]
  omega

theorem toInt_of_le (h : n.toNat ≤ MAXFILE * BSIZE) : n.toBitVec.toInt = n.toNat := by
  simp only [MAXFILE, NDIRECT, NINDIRECT, BSIZE] at h
  rw [BitVec.toInt_eq_toNat_of_lt]
  · rfl
  · change 2 * n.toNat < 2 ^ 32
    omega

end Sizes

def State.Filled (s : State) (i : ℕ) : Prop := ∀ bn, bn * BSIZE < s.size i → (s.file i bn).isSome

theorem State.HoleFree.filled (h : s.HoleFree i) : s.Filled i := fun bn => (h bn).mpr

theorem State.Filled.blocks (h : s.Filled i) (hle : off + n ≤ s.size i) : ∀ bn ∈ blocks off n, (s.file i bn).isSome := by
  intro bn hbn
  obtain ⟨x, -, hx, rfl⟩ := mem_blocks.mp hbn
  apply h
  have hdiv := Nat.div_mul_le_self x BSIZE
  omega

theorem State.Filled.size_le (h : s.Filled i) : s.size i ≤ MAXFILE * BSIZE := by
  by_contra hlt
  exact absurd (lt_of_file (h MAXFILE (by omega))) (lt_irrefl _)

section Readi

variable {Q : ℤ × List UInt8 → State → Prop} {off n : UInt32}

theorem wp_readi (h : Guarded sb i s) (hm : s.mem i = some ip) (ht : ip.type ≠ .free) (hd : ip.type ≠ .dev) (hfull : s.Filled i)
    (hbad : off > ip.size ∨ off + n < off → Q (-1, []) s)
    (hok : off ≤ ip.size → ¬ off + n < off → ∀ m, m = min n.toNat (ip.size.toNat - off.toNat) →
      Q ((m : ℤ), (List.range m).map (fun k => s.byte i (off.toNat + k))) s) :
    wp (safe sb E) (readi i off n) s Q := by
  unfold readi
  refine wp_inode hm ?_
  rw [if_neg hd]
  by_cases hb : off > ip.size ∨ off + n < off
  · rw [if_pos hb]
    exact hbad hb
  rw [if_neg hb]
  obtain ⟨hoff, hwrap⟩ := not_or.mp hb
  have hoff' : off ≤ ip.size := UInt32.not_lt.mp hoff
  have hle := UInt32.le_iff_toNat_le.mp hoff'
  have hsize : s.size i = ip.size.toNat := by rw [State.size, cur_of_mem hm]
  have hmax := hfull.size_le
  generalize hk : (if off + n > ip.size then ip.size - off else n) = k
  have hkm : k.toNat = min n.toNat (ip.size.toNat - off.toNat) := by
    rw [← hk]
    split_ifs with hgt
    · rw [gt_iff_lt, UInt32.lt_iff_toNat_lt, toNat_add hwrap] at hgt
      rw [UInt32.toNat_sub_of_le _ _ hoff']
      omega
    · rw [gt_iff_lt, UInt32.lt_iff_toNat_lt, toNat_add hwrap] at hgt
      omega
  refine wp_seq (wp_readLoop h hm ht (le_refl _) (hfull.blocks (by omega)) ?_)
  rw [wp_pure, toInt_of_le (by omega)]
  exact hok hoff' hwrap _ hkm

end Readi

section Writei

variable {Q : ℤ → State → Prop} {off n : UInt32}

def State.store (s : State) (i : ℕ) (ip : Inode) : State := (s.setMem i (some ip)).setDinode i ip

theorem store_mem (s : State) (i : ℕ) (ip : Inode) : (s.store i ip).mem i = some ip := Function.update_self ..

theorem store_mem_of_ne (s : State) (ip : Inode) (h : j ≠ i) : (s.store i ip).mem j = s.mem j := Function.update_of_ne h ..

theorem store_dinode (s : State) (i : ℕ) (ip : Inode) : (s.store i ip).dinode i = ip := Function.update_self ..

theorem store_dinode_of_ne (s : State) (ip : Inode) (h : j ≠ i) : (s.store i ip).dinode j = s.dinode j := Function.update_of_ne h ..

theorem store_cur_of_ne (s : State) (ip : Inode) (h : j ≠ i) : (s.store i ip).cur j = s.cur j := by
  unfold State.cur
  rw [store_mem_of_ne s ip h, store_dinode_of_ne s ip h]

theorem store_refs {ip' : Inode} (hm : s.mem i = some ip) (ht : ip'.type = ip.type) (ha : ip'.addrs = ip.addrs) :
    (s.store i ip').refs = s.refs := by
  refine refs_of_cur rfl (fun j => ?_)
  by_cases hj : j = i
  · subst hj
    rw [cur_of_mem (store_mem s j ip'), cur_of_mem hm]
    exact ⟨ht, ha⟩
  · rw [store_cur_of_ne s ip' hj]
    exact ⟨rfl, rfl⟩

theorem store_file (hm : s.mem i = some ip) (ip' : Inode) (ht : ip'.type = ip.type) (ha : ip'.addrs = ip.addrs) (j bn : ℕ) :
    (s.store i ip').file j bn = s.file j bn := by
  unfold State.file
  rw [store_refs hm ht ha]
  rfl

theorem Guarded.congr (h : Guarded sb i s) (hblock : t.block = s.block) (hrefs : t.refs = s.refs) : Guarded sb i t := by
  have hbit : t.bit sb = s.bit sb := by
    funext b
    unfold State.bit
    rw [hblock]
  refine ⟨?_, ?_⟩
  · rw [hbit]
    exact h.marked
  · rw [hbit, hrefs]
    exact h.owned

theorem Sound.congr (h : Sound sb s) (hblock : t.block = s.block) (hrefs : t.refs = s.refs) : Sound sb t := by
  have hbit : t.bit sb = s.bit sb := by
    funext b
    unfold State.bit
    rw [hblock]
  refine ⟨?_, ?_, ?_⟩
  · rw [hbit, hrefs]
    exact h.bitmap
  · rw [hrefs]
    exact h.once
  · rw [hrefs]
    exact h.data

def Refused (ip : Inode) (off n : UInt32) : Prop := off > ip.size ∨ off + n < off ∨ (off + n).toNat > MAXFILE * BSIZE

structure Saved (sb : Superblock) (i off n : ℕ) (src : Mem) (ip : Inode) (s u : State) : Prop where
  guarded : Guarded sb i u
  sound : Sound sb s → Sound sb u
  devsw : u.devsw = s.devsw
  mem : ∀ j ≠ i, u.mem j = s.mem j
  dinode : ∀ j ≠ i, u.dinode j = s.dinode j
  others : ∀ j ≠ i, ∀ bn, u.file j bn = s.file j bn
  inode : ∃ a z, u.mem i = some { ip with size := z, addrs := a } ∧ z.toNat = max ip.size.toNat (off + n)
  has : ∀ bn, (u.file i bn).isSome ↔ (s.file i bn).isSome ∨ bn ∈ blocks off n
  byte : ∀ x, u.byte i x = if off ≤ x ∧ x < off + n then src (x - off) else s.byte i x
  kept : off + n ≤ ip.size.toNat → u.dinode = s.dinode
  synced : s.Filled i → s.dinode i = ip ∨ ip.size.toNat < off + n → u.mem i = some (u.dinode i)

theorem Written.saved (h : Written sb i off.toNat n.toNat src s t) (hm : s.mem i = some ip)
    (hle : n.toNat = 0 ∧ off ≤ ip.size ∨ off.toNat + n.toNat ≤ ip.size.toNat) :
    Saved sb i off.toNat n.toNat src ip s t where
  guarded := h.guarded
  sound := h.sound
  devsw := h.devsw
  mem := h.mem
  dinode j _ := congrFun h.dinode j
  others := h.others
  inode := by
    obtain ⟨a, ha⟩ := h.inode ip hm
    refine ⟨a, ip.size, ha, ?_⟩
    rw [UInt32.le_iff_toNat_le] at hle
    omega
  has := h.has
  byte := h.byte
  kept _ := h.dinode
  synced hfull hs := by
    rw [UInt32.le_iff_toNat_le] at hle
    have hsize : s.size i = ip.size.toNat := by rw [State.size, cur_of_mem hm]
    have hd : s.dinode i = ip := hs.resolve_right (by omega)
    rw [h.same (hfull.blocks (by omega)), hm, h.dinode, hd]

theorem Written.saved_store (h : Written sb i off.toNat n.toNat src s t)
    {a : ℕ → UInt32} (ha : t.mem i = some { ip with addrs := a }) {z : UInt32} (hz : z.toNat = off.toNat + n.toNat)
    (hlt : ip.size.toNat < z.toNat) :
    Saved sb i off.toNat n.toNat src ip s (t.store i { ip with size := z, addrs := a }) where
  guarded := h.guarded.congr rfl (store_refs ha rfl rfl)
  sound hs := (h.sound hs).congr rfl (store_refs ha rfl rfl)
  devsw := h.devsw
  mem j hj := (store_mem_of_ne _ _ hj).trans (h.mem j hj)
  dinode j hj := (store_dinode_of_ne _ _ hj).trans (congrFun h.dinode j)
  others j hj bn := (store_file ha { ip with size := z, addrs := a } rfl rfl j bn).trans (h.others j hj bn)
  inode := ⟨a, z, store_mem .., by omega⟩
  has bn := by
    rw [store_file ha { ip with size := z, addrs := a } rfl rfl]
    exact h.has bn
  byte x := by
    unfold State.byte
    rw [store_file ha { ip with size := z, addrs := a } rfl rfl]
    exact h.byte x
  kept hle := by omega
  synced _ _ := by rw [store_mem, store_dinode]

theorem wp_writeSize {R : Unit → State → Prop} (hm : s.mem i = some ip)
    (hbig : n > 0 ∧ off + n > ip.size → R () (s.store i { ip with size := off + n })) (hsame : ¬ (n > 0 ∧ off + n > ip.size) → R () s) :
    wp (safe sb E) (writeSize i off n) s R := by
  unfold writeSize
  refine wp_inode hm (wp_cond (fun h => ?_) hsame)
  refine wp_edit hm ?_
  exact wp_last (wp_iupdate (State.setMem_self _ _ _) (hbig h))

theorem wp_writei (h : Guarded sb i s) (hm : s.mem i = some ip) (ht : ip.type ≠ .free) (hd : ip.type ≠ .dev)
    (hbad : Refused ip off n → Q (-1) s)
    (hE : ¬ Refused ip off n → s.freeCount sb < s.vacant i (writeSlots off.toNat n.toNat) → E (.panic "balloc: out of blocks"))
    (hok : ¬ Refused ip off n → ∀ u, Saved sb i off.toNat n.toNat src ip s u → Q n.toNat u) :
    wp (safe sb E) (writei i src off n) s Q := by
  unfold writei
  refine wp_inode hm ?_
  rw [if_neg hd, wp_ite, wp_ite]
  split_ifs with h1 h2
  · exact hbad (h1.imp id .inl)
  · exact hbad (.inr (.inr h2))
  have hr : ¬ Refused ip off n := by
    rintro (hx | hx | hx)
    · exact h1 (.inl hx)
    · exact h1 (.inr hx)
    · exact h2 hx
  obtain ⟨hoff, hwrap⟩ := not_or.mp h1
  have hoff' : off ≤ ip.size := UInt32.not_lt.mp hoff
  have hadd := toNat_add hwrap
  refine wp_seq (wp_writeLoop h hm ht (le_refl _) (by omega) (hE hr) (fun t hw => ?_))
  obtain ⟨a, ha⟩ := hw.inode ip hm
  have hint := toInt_of_le (n := n) (by omega)
  refine wp_seq (wp_writeSize ha (fun hgt => ?_) (fun hgt => ?_))
  · rw [wp_pure, hint]
    exact hok hr _ (hw.saved_store ha hadd (UInt32.lt_iff_toNat_lt.mp hgt.2))
  · rw [wp_pure, hint]
    refine hok hr _ (hw.saved hm ?_)
    rw [not_and_or, UInt32.not_lt, UInt32.not_lt, UInt32.le_iff_toNat_le, UInt32.le_iff_toNat_le, hadd] at hgt
    rcases hgt with h0 | hle
    · exact .inl ⟨Nat.le_zero.mp h0, hoff'⟩
    · exact .inr hle

theorem Saved.size_eq (h : Saved sb i off.toNat n.toNat src ip s t) (hm : s.mem i = some ip) :
    t.size i = max (s.size i) (off.toNat + n.toNat) := by
  obtain ⟨a, z, hmt, hz⟩ := h.inode
  rw [State.size, State.size, cur_of_mem hmt, cur_of_mem hm]
  exact hz

theorem Saved.holeFree (h : Saved sb i off.toNat n.toNat src ip s t) (hm : s.mem i = some ip) (hh : s.HoleFree i)
    (hle : off.toNat ≤ s.size i) : t.HoleFree i := by
  intro bn
  rw [h.has, hh bn, h.size_eq hm, mem_blocks, lt_max_iff]
  constructor
  · rintro (hlt | ⟨x, -, hx, rfl⟩)
    · exact .inl hlt
    · have hdiv := Nat.div_mul_le_self x BSIZE
      exact .inr (by omega)
  · rintro (hlt | hlt)
    · exact .inl hlt
    · by_cases hb : bn * BSIZE < s.size i
      · exact .inl hb
      · -- the block starts past the old end, so its first byte is written
        exact .inr ⟨bn * BSIZE, by omega, hlt, Nat.mul_div_cancel bn (by decide)⟩

theorem Saved.contents_eq (h : Saved sb i off.toNat n.toNat src ip s t) (hm : s.mem i = some ip) (hle : off.toNat ≤ s.size i) :
    t.contents i = (s.contents i).take off.toNat ++ (List.range n.toNat).map src ++ (s.contents i).drop (off.toNat + n.toNat) := by
  unfold State.contents
  rw [h.size_eq hm]
  exact map_range_overwrite hle h.byte

theorem Saved.contents_of_ne (h : Saved sb i off.toNat n.toNat src ip s t) (hj : j ≠ i) : t.contents j = s.contents j := by
  have hcur : t.cur j = s.cur j := by rw [State.cur, State.cur, h.mem j hj, h.dinode j hj]
  unfold State.contents State.size State.byte
  rw [hcur]
  apply List.map_congr_left
  intro x _
  rw [h.others j hj]

end Writei

theorem contents_slice (s : State) (i off m : ℕ) (hm : off + m ≤ s.size i) :
    (List.range m).map (fun k => s.byte i (off + k)) = ((s.contents i).drop off).take m := by
  unfold State.contents
  apply List.ext_getElem
  · simp only [List.length_map, List.length_range, List.length_take, List.length_drop]
    omega
  · intro k h1 h2
    simp only [List.getElem_map, List.getElem_range, List.getElem_take, List.getElem_drop]

theorem inode_is_bytes {sb : Superblock} {s : State} {i : ℕ} {ip : Inode} (h : Guarded sb i s) (hm : s.mem i = some ip)
    (ht : ip.type ≠ .free) (hd : ip.type ≠ .dev) (hh : s.HoleFree i) (src : Mem) (off n : UInt32) :
    (off ≤ ip.size → off.toNat + n.toNat < 4294967296 → off.toNat + n.toNat ≤ MAXFILE * BSIZE →
      s.vacant i (writeSlots off.toNat n.toNat) ≤ s.freeCount sb →
      ∃ u, run (exec sb) (writei i src off n) s = .ok ((n.toNat : ℤ), u) ∧
        u.contents i = (s.contents i).take off.toNat ++ (List.range n.toNat).map src ++ (s.contents i).drop (off.toNat + n.toNat) ∧
        u.size i = max (s.size i) (off.toNat + n.toNat) ∧ u.HoleFree i ∧ Guarded sb i u ∧
        (∃ ip', u.mem i = some ip' ∧ ip'.type = ip.type ∧ ip'.major = ip.major ∧ ip'.nlink = ip.nlink) ∧
        (s.dinode i = ip ∨ s.size i < off.toNat + n.toNat → u.mem i = some (u.dinode i)) ∧
        ∀ j ≠ i, u.mem j = s.mem j ∧ u.dinode j = s.dinode j ∧ u.contents j = s.contents j) ∧
    (off > ip.size ∨ 4294967296 ≤ off.toNat + n.toNat ∨ MAXFILE * BSIZE < off.toNat + n.toNat →
      run (exec sb) (writei i src off n) s = .ok (-1, s)) ∧
    (off > ip.size ∨ 4294967296 ≤ off.toNat + n.toNat → run (exec sb) (readi i off n) s = .ok ((-1, []), s)) ∧
    (off ≤ ip.size → off.toNat + n.toNat < 4294967296 →
      run (exec sb) (readi i off n) s = .ok (((min (off.toNat + n.toNat) (s.size i) - off.toNat : ℕ),
        ((s.contents i).drop off.toNat).take (min (off.toNat + n.toNat) (s.size i) - off.toNat)), s)) := by
  have hsize : s.size i = ip.size.toNat := by rw [State.size, cur_of_mem hm]
  have hrefused : Refused ip off n ↔ off > ip.size ∨ 4294967296 ≤ off.toNat + n.toNat ∨ MAXFILE * BSIZE < off.toNat + n.toNat := by
    unfold Refused
    rw [add_lt_left]
    by_cases hw : 4294967296 ≤ off.toNat + n.toNat
    · simp [hw]
    · rw [toNat_add (by rwa [add_lt_left])]
  refine ⟨fun hoff hwrap hmax hfree => ?_, fun hbad => ?_, fun hbad => ?_, fun hoff hwrap => ?_⟩
  · have hle : off.toNat ≤ s.size i := by rw [hsize]; exact UInt32.le_iff_toNat_le.mp hoff
    have hr : ¬ Refused ip off n := by
      rw [hrefused, gt_iff_lt, UInt32.lt_iff_toNat_lt]
      omega
    obtain ⟨a, u, hrun, rfl, hu⟩ := run_of_safe
      (wp_writei (Q := fun a u => a = n.toNat ∧ Saved sb i off.toNat n.toNat src ip s u) h hm ht hd
        (fun hx => absurd hx hr) (fun _ hlt => absurd hlt (by omega)) (fun _ u hu => ⟨rfl, hu⟩))
    obtain ⟨a, z, hmu, -⟩ := hu.inode
    refine ⟨u, hrun, hu.contents_eq hm hle, hu.size_eq hm, hu.holeFree hm hh hle, hu.guarded, ⟨_, hmu, rfl, rfl, rfl⟩, ?_,
      fun j hj => ⟨hu.mem j hj, hu.dinode j hj, hu.contents_of_ne hj⟩⟩
    rw [hsize]
    exact hu.synced hh.filled
  · have hr := hrefused.mpr hbad
    obtain ⟨a, u, hrun, rfl, rfl⟩ := run_of_safe
      (wp_writei (Q := fun a u => a = -1 ∧ s = u) h hm ht hd (fun _ => ⟨rfl, rfl⟩) (fun hx => absurd hr hx) (fun hx => absurd hr hx))
    exact hrun
  · rw [← add_lt_left] at hbad
    obtain ⟨a, u, hrun, rfl, rfl⟩ := run_of_safe
      (wp_readi (Q := fun a u => a = (-1, []) ∧ s = u) h hm ht hd hh.filled (fun _ => ⟨rfl, rfl⟩)
        (fun h1 h2 => absurd hbad (not_or.mpr ⟨UInt32.not_lt.mpr h1, h2⟩)))
    exact hrun
  · have hle := UInt32.le_iff_toNat_le.mp hoff
    have hno : ¬ (off > ip.size ∨ off + n < off) := by
      rw [gt_iff_lt, UInt32.lt_iff_toNat_lt, add_lt_left]
      omega
    have hlen : min (off.toNat + n.toNat) (s.size i) - off.toNat = min n.toNat (ip.size.toNat - off.toNat) := by omega
    rw [hlen, ← contents_slice s i off.toNat _ (by omega)]
    obtain ⟨a, u, hrun, rfl, rfl⟩ := run_of_safe
      (wp_readi (Q := fun a u => a = (((min n.toNat (ip.size.toNat - off.toNat) : ℕ) : ℤ),
          (List.range (min n.toNat (ip.size.toNat - off.toNat))).map (fun k => s.byte i (off.toNat + k))) ∧ s = u) h hm ht hd hh.filled
        (fun hx => absurd hx hno)
        (fun _ _ m hk => by rw [hk]; exact ⟨rfl, rfl⟩))
    exact hrun

def small : Superblock := ⟨10, 8, 2, 1, by decide, by decide⟩

def single (bits : UInt8) (ip : Inode) : State where
  block b k := if b = 1 ∧ k = 0 then bits else 0
  dinode j := if j = 1 then ip else {}
  mem j := if j = 1 then some ip else none
  devsw _ := ⟨none, none⟩

def threeBytes : Inode := { type := .file, nlink := 1, size := 3, addrs := fun k => if k = 0 then 2 else 0 }

theorem threeBytes_refs {x : ℕ × ℕ} (h : (single 7 threeBytes).refs x = some b) : x = (1, 0) ∧ b = 2 := by
  obtain ⟨j, k⟩ := x
  obtain ⟨ht, hslot, h0⟩ := refs_eq_some.mp h
  by_cases hj : j = 1
  · subst hj
    change (if k ≤ 12 then (if k = 0 then (2 : UInt32) else 0).toNat else if k ≤ MAXFILE ∧ (0 : UInt32) ≠ 0 then _ else 0) = b at hslot
    by_cases hk : k = 0
    · subst hk
      exact ⟨rfl, hslot.symm⟩
    · have hind : ¬ (k ≤ MAXFILE ∧ (0 : UInt32) ≠ 0) := fun e => e.2 rfl
      rw [if_neg hk, if_neg hind, UInt32.toNat_zero, ite_self] at hslot
      exact absurd hslot.symm h0
  · have hcur : (single 7 threeBytes).cur j = {} := by simp [State.cur, single, hj]
    rw [hcur] at ht
    exact absurd rfl ht

theorem threeBytes_guarded : Guarded small 1 (single 7 threeBytes) where
  marked := by decide
  owned := by
    refine ⟨fun h => ?_, fun _ h h' => ?_, fun h => ?_⟩
    · rw [(threeBytes_refs h).2]
      exact ⟨by decide, by decide⟩
    · rw [(threeBytes_refs h).1, (threeBytes_refs h').1]
    · rw [(threeBytes_refs h).2]
      decide

theorem threeBytes_holeFree : (single 7 threeBytes).HoleFree 1 := by
  intro bn
  change _ ↔ bn * 512 < 3
  rw [State.file, Option.isSome_map]
  constructor
  · intro h
    obtain ⟨b, hb⟩ := Option.isSome_iff_exists.mp h
    have hpos : State.pos bn = State.pos 0 := congrArg Prod.snd (threeBytes_refs hb).1
    rw [State.pos_inj hpos]
    decide
  · intro h
    obtain rfl : bn = 0 := by omega
    decide

theorem inode_is_bytes_three : ∃ u, run (exec small) (writei 1 (fun k => UInt8.ofNat (k + 1)) 2 3) (single 7 threeBytes) = .ok (3, u) ∧
    u.contents 1 = [0, 0, 1, 2, 3] ∧ u.size 1 = 5 ∧ u.HoleFree 1 := by
  obtain ⟨u, hrun, hc, hs, hh, -⟩ := (inode_is_bytes threeBytes_guarded rfl (by decide) (by decide) threeBytes_holeFree
    (fun k => UInt8.ofNat (k + 1)) 2 3).1 (by decide) (by decide) (by decide) (by decide +kernel)
  exact ⟨u, hrun, hc.trans (by decide +kernel), hs.trans (by decide), hh⟩

end EnhancedXv6.Blocks
