
import EnhancedXv6.FileBytes
import EnhancedXv6.Mkfs

namespace EnhancedXv6.Mkfs

open Function (update update_eq_self update_idem update_of_ne update_self)
open Bytes Fs Blocks

section Inodes

structure Storable (ip : Inode) : Prop where
  major : -32768 ≤ ip.major ∧ ip.major < 32768
  nlink : ip.nlink < 65536
  addrs : ∀ k, NDIRECT < k → ip.addrs k = 0

theorem typeOf_typeCode (t : Ftype) : typeOf (typeCode t) = t := by cases t <;> rfl

theorem typeCode_lt (t : Ftype) : typeCode t < 4 := by cases t <;> decide

theorem ofWords_dinodeWord {ip : Inode} (h : Storable ip) : ofWords (dinodeWord ip) = ip := by
  obtain ⟨hlo, hhi⟩ := h.major
  have hcode := typeCode_lt ip.type
  have hn := h.nlink
  have h0 : (dinodeWord ip 0).toNat = typeCode ip.type + 65536 * (ip.major % 65536).toNat := by
    rw [dinodeWord, UInt32.toNat_ofNat']
    omega
  have h1 : (dinodeWord ip 1).toNat = 65536 * ip.nlink := by
    rw [dinodeWord, UInt32.toNat_ofNat']
    omega
  obtain ⟨type, major, nlink, size, addrs⟩ := ip
  unfold ofWords
  rw [h0, h1]
  dsimp only at *
  congr 1
  · have hm : (typeCode type + 65536 * (major % 65536).toNat) % 65536 = typeCode type := by omega
    rw [hm, typeOf_typeCode]
  · have hm : (typeCode type + 65536 * (major % 65536).toNat) / 65536 = (major % 65536).toNat := by omega
    rw [hm]
    split_ifs <;> omega
  · omega
  · funext k
    by_cases hk : k ≤ NDIRECT
    · rw [if_pos hk]
      rfl
    · rw [if_neg hk]
      exact (h.addrs k (by omega)).symm

theorem storable_ofWords (w : ℕ → UInt32) : Storable (ofWords w) where
  major := by
    have h := (w 0).toNat_lt
    unfold ofWords
    dsimp only
    split_ifs <;> omega
  nlink := by
    have h := (w 1).toNat_lt
    unfold ofWords
    dsimp only
    omega
  addrs k hk := if_neg (by omega)

theorem ofWords_congr {v w : ℕ → UInt32} (h : ∀ j < 16, v j = w j) : ofWords v = ofWords w := by
  unfold ofWords
  rw [h 0 (by omega), h 1 (by omega), h 2 (by omega)]
  congr 1
  funext k
  by_cases hk : k ≤ NDIRECT
  · rw [if_pos hk, if_pos hk, h (k + 3) (by change k ≤ 12 at hk; omega)]
  · rw [if_neg hk, if_neg hk]

theorem dinodeIn_self {ip : Inode} (h : Storable ip) (buf : Mem) (i : ℕ) :
    dinodeIn (setWords buf (16 * (i % IPB)) (dinodeWord ip) 16) i = ip := by
  have he : dinodeIn (setWords buf (16 * (i % IPB)) (dinodeWord ip) 16) i = ofWords (dinodeWord ip) := by
    apply ofWords_congr
    intro j hj
    rw [word_setWords, if_pos (by omega), Nat.add_sub_cancel_left]
  rw [he, ofWords_dinodeWord h]

theorem dinodeIn_of_ne (buf : Mem) (v : ℕ → UInt32) {i j : ℕ} (h : j % IPB ≠ i % IPB) :
    dinodeIn (setWords buf (16 * (i % IPB)) v 16) j = dinodeIn buf j := by
  apply ofWords_congr
  intro l hl
  rw [word_setWords, if_neg (by omega)]

end Inodes

def State.table (st : State) (i : ℕ) : Inode := if i < NINODES then dinodeIn (st.img (iblock inodestart i)) i else {}

variable {st st' : State} {i j k b n off fuel : ℕ} {ip : Inode}

theorem storable_table (st : State) (i : ℕ) : Storable (st.table i) := by
  unfold State.table
  split_ifs
  · exact storable_ofWords _
  · exact ⟨by decide, by decide, fun _ _ => rfl⟩

theorem iblock_lt (h : i < NINODES) : inodestart ≤ iblock inodestart i ∧ iblock inodestart i < bmapstart := by
  change i < 200 at h
  change 32 ≤ i / 8 + 32 ∧ i / 8 + 32 < 58
  omega

theorem rsect_of_lt (h : b < FSSIZE) : st.rsect b = some (st.img b) := if_pos h

@[simp] theorem wsect_self (st : State) (b : ℕ) (buf : Mem) : (st.wsect b buf).img b = buf := update_self ..

theorem wsect_of_ne (st : State) {c : ℕ} (buf : Mem) (h : c ≠ b) : (st.wsect b buf).img c = st.img c := update_of_ne h ..

theorem rinode_eq (h : i < NINODES) : st.rinode i = some (st.table i) := by
  have hb := (iblock_lt h).2
  unfold State.rinode State.table
  rw [rsect_of_lt (lt_trans hb (by decide)), if_pos h]
  rfl

structure Stored (st : State) (i : ℕ) (ip : Inode) (st' : State) : Prop where
  table : st'.table = Function.update st.table i ip
  freeinode : st'.freeinode = st.freeinode
  freeblock : st'.freeblock = st.freeblock
  img : ∀ b, b < inodestart ∨ bmapstart ≤ b → st'.img b = st.img b

theorem winode_spec (st : State) (i : ℕ) (ip : Inode) (hi : i < NINODES) (hs : Storable ip) : ∃ st', st.winode i ip = some st' ∧ Stored st i ip st' := by
  have hb := iblock_lt hi
  have he : st.winode i ip = some (st.wsect (iblock inodestart i)
      (setWords (st.img (iblock inodestart i)) (16 * (i % IPB)) (dinodeWord ip) 16)) := by
    rw [State.winode, rsect_of_lt (lt_trans hb.2 (by decide))]
    rfl
  refine ⟨_, he, ?_, rfl, rfl, ?_⟩
  · funext j
    by_cases hj : j = i
    · subst hj
      rw [update_self, State.table, if_pos hi, wsect_self]
      exact dinodeIn_self hs _ _
    · rw [update_of_ne hj, State.table, State.table]
      split_ifs with hjn
      · by_cases he : iblock inodestart j = iblock inodestart i
        · have hne : j % IPB ≠ i % IPB := by
            change j / 8 + 32 = i / 8 + 32 at he
            change j % 8 ≠ i % 8
            omega
          rw [he, wsect_self]
          exact dinodeIn_of_ne _ _ hne
        · rw [wsect_of_ne _ _ he]
      · rfl
  · intro b hb'
    exact wsect_of_ne _ _ (by omega)

theorem sb_bmap_lt : ∀ b < FSSIZE, b / BPB + bmapstart < FSSIZE - nblocks := by
  intro b hb
  change b < 1000 at hb
  change b / 4096 + 58 < 59
  omega

def sb : Superblock := ⟨FSSIZE, nblocks, NINODES, bmapstart, sb_bmap_lt, by decide⟩

theorem sb_nmeta : sb.nmeta = nmeta := rfl

theorem sb_size : sb.size = FSSIZE := rfl

structure Shows (st : State) (din : ℕ → Inode) (s : Blocks.State) : Prop where
  mem : ∀ i, s.mem i = some (din i)
  block : ∀ b, nmeta ≤ b → b < FSSIZE → s.block b = st.img b
  bit : ∀ b < FSSIZE, s.bit sb b = decide (b < st.freeblock)
  zero : ∀ b, st.freeblock ≤ b → b < FSSIZE → st.img b = fun _ => 0
  lo : nmeta ≤ st.freeblock
  hi : st.freeblock ≤ FSSIZE

variable {din : ℕ → Inode} {s t u : Blocks.State} {p : Mem}

theorem freeCount_of_bit {n : ℕ} (h : ∀ b < FSSIZE, s.bit sb b = decide (b < n)) : s.freeCount sb = FSSIZE - n := by
  have hf : (Finset.range FSSIZE).filter (fun b => s.bit sb b = false) = Finset.Ico n FSSIZE := by
    ext b
    rw [Finset.mem_filter, Finset.mem_range, Finset.mem_Ico]
    constructor
    · rintro ⟨hb, hbit⟩
      rw [h b hb, decide_eq_false_iff_not] at hbit
      omega
    · rintro ⟨hle, hb⟩
      rw [h b hb, decide_eq_false_iff_not]
      omega
  unfold State.freeCount
  rw [sb_size, hf, Nat.card_Ico]

theorem Shows.freeCount (h : Shows st din s) : s.freeCount sb = FSSIZE - st.freeblock := freeCount_of_bit h.bit

structure Kept (st st' : State) : Prop where
  freeinode : st'.freeinode = st.freeinode
  img : ∀ b < nmeta, st'.img b = st.img b

theorem Kept.refl (st : State) : Kept st st := ⟨rfl, fun _ _ => rfl⟩

theorem Kept.trans {st'' : State} (h : Kept st st') (h' : Kept st' st'') : Kept st st'' where
  freeinode := h'.freeinode.trans h.freeinode
  img b hb := (h'.img b hb).trans (h.img b hb)

theorem Kept.wsect (h : Kept st st') (hb : nmeta ≤ b) (buf : Mem) : Kept st (st'.wsect b buf) where
  freeinode := h.freeinode
  img c hc := (wsect_of_ne st' buf (by omega)).trans (h.img c hc)

theorem Kept.table (h : Kept st st') : st'.table = st.table := by
  funext j
  unfold State.table
  split_ifs with hj
  · rw [h.img _ (lt_trans (iblock_lt hj).2 (by decide))]
  · rfl

theorem Shows.mark (h : Shows st din s) (hb : st.freeblock < FSSIZE) (hg : Guarded sb i s) :
    Shows { st with freeblock := st.freeblock + 1 } din (s.mark sb st.freeblock) where
  mem := h.mem
  block c hc hc' := by
    change (s.mark sb st.freeblock).block c = st.img c
    unfold State.mark
    by_cases he : c = st.freeblock
    · subst he
      rw [State.setBlock_self, h.zero _ le_rfl hb]
    · rw [State.setBlock_of_ne _ _ he, State.setBlock_of_ne, h.block c hc hc']
      have hlt := sb.bblock_lt (b := st.freeblock) hb
      rw [sb_nmeta] at hlt
      omega
  bit c hc := by
    change (s.mark sb st.freeblock).bit sb c = decide (c < st.freeblock + 1)
    have hbit : s.bit sb st.freeblock = false := by
      rw [h.bit _ hb, decide_eq_false_iff_not]
      omega
    rw [mark_bit hg hbit hc, h.bit c hc, ← Bool.decide_or, decide_eq_decide]
    omega
  zero c hc hc' := h.zero c (le_trans (Nat.le_succ _) hc) hc'
  lo := le_trans h.lo (Nat.le_succ _)
  hi := hb

theorem Shows.setMem (h : Shows st din s) (i : ℕ) (ip : Inode) : Shows st (update din i ip) (s.setMem i (some ip)) where
  mem j := by
    by_cases hj : j = i
    · subst hj
      rw [update_self]
      exact State.setMem_self ..
    · rw [update_of_ne hj]
      exact (State.setMem_of_ne _ _ hj).trans (h.mem j)
  block := h.block
  bit := h.bit
  zero := h.zero
  lo := h.lo
  hi := h.hi

theorem Shows.bit_freeblock (h : Shows st din s) (hb : st.freeblock < FSSIZE) : s.bit sb st.freeblock = false := by
  rw [h.bit _ hb, decide_eq_false_iff_not]
  omega

theorem Shows.wsect (h : Shows st din s) (hlo : nmeta ≤ b) (hb : b < st.freeblock) (buf : Mem) :
    Shows (st.wsect b buf) din (s.setBlock b buf) where
  mem := h.mem
  block c hc hc' := by
    by_cases he : c = b
    · subst he
      rw [State.setBlock_self, wsect_self]
    · rw [State.setBlock_of_ne _ _ he, wsect_of_ne _ _ he, h.block c hc hc']
  bit c hc := (bit_setBlock s hc hlo).trans (h.bit c hc)
  zero c hc hc' := by
    change st.freeblock ≤ c at hc
    rw [wsect_of_ne _ _ (by omega)]
    exact h.zero c hc hc'
  lo := h.lo
  hi := h.hi

theorem Shows.range_of_refs (h : Shows st din s) (hg : Guarded sb i s) {x : ℕ × ℕ} (hx : s.refs x = some b) :
    nmeta ≤ b ∧ b < st.freeblock ∧ b < FSSIZE := by
  obtain ⟨hlo, hhi⟩ := hg.owned.mem hx
  have hbit : s.bit sb b = true := hg.owned.used hx
  rw [h.bit b hhi, decide_eq_true_eq] at hbit
  exact ⟨hlo, hbit, hhi⟩

theorem Shows.lt_of_vacant (h : Shows st din s) (hnone : s.refs (i, k) = none) (hroom : s.vacant i {k} ≤ s.freeCount sb) :
    st.freeblock < FSSIZE := by
  rw [h.freeCount, State.vacant, Finset.filter_singleton, if_pos hnone, Finset.card_singleton] at hroom
  omega

theorem fillSlot_spec (h : Shows st din s) (hg : Guarded sb i s) (ht : (din i).type ≠ .free) (hk : k ≤ NDIRECT)
    (hroom : s.vacant i {k} ≤ s.freeCount sb) :
    ∃ st' ip t, st.fillSlot (din i) k = (st', ip) ∧ Shows st' (update din i ip) t ∧ Kept st st' ∧ Grown sb i {k} s t ∧
      t.refs (i, k) = some (ip.addrs k).toNat ∧ ∀ l, NDIRECT < l → ip.addrs l = (din i).addrs l := by
  have hm := h.mem i
  by_cases h0 : (din i).addrs k = 0
  · have hnone : s.refs (i, k) = none := by
      have hcur := cur_of_mem hm
      apply (refs_eq_none (by rwa [hcur])).mpr
      rw [slot_of_le hk, hcur, h0]
      rfl
    have hb := h.lt_of_vacant hnone hroom
    obtain ⟨hgrown, hrefs⟩ := Grown.addr hg hm ht hk h0 hb (h.bit_freeblock hb)
    have hself : ((din i).setAddr k (UInt32.ofNat st.freeblock)).addrs k = UInt32.ofNat st.freeblock := update_self ..
    have hsize : st.freeblock < sb.size := hb
    refine ⟨_, _, _, if_pos h0, (h.mark hb hg).setMem i _, ⟨rfl, fun _ _ => rfl⟩, hgrown, ?_, fun l hl => ?_⟩
    · rw [hrefs, hself, Superblock.toNat_ofNat hsize]
    · exact update_of_ne (by omega) ..
  · have hsome := refs_of_addr hm ht hk h0
    refine ⟨st, din i, s, if_neg h0, ?_, .refl st, .refl_of_refs hg hsome, hsome, fun _ _ => rfl⟩
    rwa [update_eq_self]

theorem iappendBlock_spec {bn : ℕ} (h : Shows st din s) (hg : Guarded sb i s) (ht : (din i).type ≠ .free) (hbn : bn < MAXFILE)
    (hroom : s.vacant i (bmapSlots bn) ≤ s.freeCount sb) :
    ∃ w st' ip t, st.iappendBlock (din i) bn = some (w, st', ip) ∧ Shows st' (update din i ip) t ∧ Kept st st' ∧
      Grown sb i (bmapSlots bn) s t ∧ t.refs (i, State.pos bn) = some w.toNat ∧ ∀ l, NDIRECT < l → ip.addrs l = (din i).addrs l := by
  unfold bmapSlots State.pos at *
  by_cases hd : bn < NDIRECT
  · rw [if_pos hd] at hroom
    obtain ⟨st', ip, t, he, hs, hk, hgrown, hrefs, ha⟩ := fillSlot_spec h hg ht hd.le hroom
    refine ⟨ip.addrs bn, st', ip, t, ?_, hs, hk, ?_, ?_, ha⟩
    · rw [State.iappendBlock, if_pos hd, he]
    · rwa [if_pos hd]
    · rwa [if_pos hd]
  · rw [if_neg hd] at hroom
    have hj : bn - NDIRECT < NINDIRECT := by
      simp only [MAXFILE] at hbn
      omega
    have hpos : NDIRECT + 1 + (bn - NDIRECT) = bn + 1 := by omega
    have hK : ({NDIRECT, bn + 1} : Finset ℕ) = {NDIRECT} ∪ {bn + 1} := rfl
    rw [hK] at hroom
    have hle : s.vacant i {NDIRECT} ≤ s.vacant i ({NDIRECT} ∪ {bn + 1}) :=
      Finset.card_le_card (Finset.filter_subset_filter _ Finset.subset_union_left)
    obtain ⟨st₁, ip, u, he, hs, hk, hu, hw, ha⟩ := fillSlot_spec h hg ht (le_refl NDIRECT) (le_trans hle hroom)
    have hcount := hu.count
    rw [hu.vacant_union] at hroom
    obtain ⟨hlo, hfb, hhi⟩ := hs.range_of_refs hu.guarded hw
    have hword := refs_of_word hw hj
    rw [hpos, hs.block _ hlo hhi] at hword
    rw [if_neg hd, if_neg hd, hK]
    have hcode : st.iappendBlock (din i) bn =
        if word (st₁.img (ip.addrs NDIRECT).toNat) (bn - NDIRECT) = 0 then
          some (UInt32.ofNat st₁.freeblock, ({ st₁ with freeblock := st₁.freeblock + 1 }).wsect (ip.addrs NDIRECT).toNat
            (setWord (st₁.img (ip.addrs NDIRECT).toNat) (bn - NDIRECT) (UInt32.ofNat st₁.freeblock)), ip)
        else some (word (st₁.img (ip.addrs NDIRECT).toNat) (bn - NDIRECT), st₁, ip) := by
      rw [State.iappendBlock, if_neg hd, he]
      dsimp only
      rw [rsect_of_lt hhi]
      dsimp only [Option.bind_eq_bind, Option.bind_some]
      rw [word_setWord_self]
    by_cases h0 : word (st₁.img (ip.addrs NDIRECT).toNat) (bn - NDIRECT) = 0
    · rw [if_pos h0] at hword hcode
      have hb := hs.lt_of_vacant hword (by omega)
      have hsize : st₁.freeblock < sb.size := hb
      have hmark := hs.mark hb hu.guarded
      obtain ⟨hgrown, hrefs⟩ := Grown.word hu.guarded hw hj (hpos ▸ hword) hb (hs.bit_freeblock hb)
      rw [hpos] at hgrown hrefs
      refine ⟨_, _, ip, _, hcode, ?_, ?_, hu.trans hgrown, ?_, ha⟩
      · rw [hmark.block _ hlo hhi]
        exact hmark.wsect hlo (Nat.lt_succ_of_lt hfb) _
      · have hk' : Kept st { st₁ with freeblock := st₁.freeblock + 1 } := ⟨hk.freeinode, hk.img⟩
        exact hk'.wsect hlo _
      · rw [hrefs, Superblock.toNat_ofNat hsize]
    · rw [if_neg h0] at hword hcode
      exact ⟨_, st₁, ip, u, hcode, hs, hk, hu.trans (.refl_of_refs hu.guarded hword), hword, ha⟩

structure Filling (i : ℕ) (K : Finset ℕ) (s t : Blocks.State) : Prop where
  slots : ∀ k, t.refs (i, k) = none ↔ s.refs (i, k) = none ∧ k ∉ K
  others : ∀ j ≠ i, ∀ k, t.refs (j, k) = s.refs (j, k)
  count : t.freeCount sb + s.vacant i K = s.freeCount sb

theorem Filling.trans {K L : Finset ℕ} (h : Filling i K s t) (h' : Filling i L t u) : Filling i (K ∪ L) s u where
  slots k := by
    rw [h'.slots, h.slots, Finset.mem_union, not_or, and_assoc]
  others j hj k := (h'.others j hj k).trans (h.others j hj k)
  count := by
    have h1 := h.count
    have h2 := h'.count
    rw [State.vacant_union h.slots]
    omega

theorem iappendLoop_spec (h : Shows st din s) (hg : Guarded sb i s) (ht : (din i).type ≠ .free) (hf : n < fuel)
    (hmax : off + n ≤ MAXFILE * BSIZE) (hroom : s.vacant i (writeSlots off n) ≤ s.freeCount sb) :
    ∃ st' ip t, State.iappendLoop fuel st (din i) off n p = some (st', ip, off + n) ∧ Shows st' (update din i ip) t ∧
      Kept st st' ∧ Written sb i off n p s t ∧ Filling i (writeSlots off n) s t ∧ ∀ l, NDIRECT < l → ip.addrs l = (din i).addrs l := by
  induction fuel generalizing st din s off n p with
  | zero => exact absurd hf (Nat.not_lt_zero n)
  | succ fuel ih =>
    by_cases hn : n = 0
    · subst hn
      refine ⟨st, din i, s, if_pos rfl, ?_, .refl st, .zero hg off p, ⟨fun k => ?_, fun _ _ _ => rfl, ?_⟩, fun _ _ => rfl⟩
      · rwa [update_eq_self]
      · simp [writeSlots, blocks]
      · simp [writeSlots, blocks, State.vacant]
    have hpos := chunk_pos off hn
    have hle := chunk_le off n
    have hbn : off / BSIZE < MAXFILE := by
      apply Nat.div_lt_of_lt_mul
      rw [Nat.mul_comm]
      omega
    rw [writeSlots_chunk hn] at hroom
    have hsub : s.vacant i (bmapSlots (off / BSIZE)) ≤
        s.vacant i (bmapSlots (off / BSIZE) ∪ writeSlots (off + chunk off n) (n - chunk off n)) :=
      Finset.card_le_card (Finset.filter_subset_filter _ Finset.subset_union_left)
    obtain ⟨w, st₁, ip, t, he, hs, hk, hgrown, hw, ha⟩ := iappendBlock_spec h hg ht hbn (le_trans hsub hroom)
    obtain ⟨hlo, hfb, hhi⟩ := hs.range_of_refs hgrown.guarded hw
    -- the turn writes what the kernel writes
    obtain ⟨a, hmt⟩ := hgrown.inode (din i) (h.mem i)
    have hip : ip = { din i with addrs := a } := by
      rw [hs.mem i, update_self] at hmt
      exact Option.some.inj hmt
    have hone : Written sb i off (chunk off n) p s _ := hgrown.written hn hw
    obtain ⟨hrefs, -, -, hcount, -⟩ := hgrown.guarded.setData hw (splice (t.block w.toNat) (off % BSIZE) (chunk off n) p)
    have hfill : Filling i (bmapSlots (off / BSIZE)) s
        (t.setBlock w.toNat (splice (t.block w.toNat) (off % BSIZE) (chunk off n) p)) := by
      constructor
      · intro k
        rw [hrefs]
        exact hgrown.refs_none
      · intro j hj k
        rw [hrefs]
        exact hgrown.refs_of_ne hj k
      · rw [hcount]
        exact hgrown.count
    have hshows := hs.wsect hlo hfb (splice (t.block w.toNat) (off % BSIZE) (chunk off n) p)
    have hself : update din i ip i = ip := update_self ..
    rw [State.vacant_union hfill.slots] at hroom
    have hc := hfill.count
    obtain ⟨st', ip', u, he', hs', hk', hwr, hfill', ha'⟩ := ih (p := fun k => p (chunk off n + k)) hshows hone.guarded
      (by rw [hself, hip]; exact ht) (by omega) (by omega : off + chunk off n + (n - chunk off n) ≤ MAXFILE * BSIZE) (by omega)
    rw [hself] at he' ha'
    rw [update_idem] at hs'
    have hn1 : min n ((off / BSIZE + 1) * BSIZE - off) = chunk off n := by
      simp only [chunk, BSIZE]
      omega
    have hstart : off - off / BSIZE * BSIZE = off % BSIZE := by
      simp only [BSIZE]
      omega
    have hsum : off + chunk off n + (n - chunk off n) = off + n := by omega
    refine ⟨st', ip', u, ?_, hs', (hk.wsect hlo _).trans hk', ?_, ?_, fun l hl => (ha' l hl).trans (ha l hl)⟩
    · rw [State.iappendLoop, if_neg hn, if_neg (by omega), he]
      dsimp only [Option.bind_eq_bind, Option.bind_some]
      rw [rsect_of_lt hhi]
      dsimp only [Option.bind_some]
      rw [hn1, hstart, ← hs.block _ hlo hhi, he', hsum]
    · have hall := hone.trans (n := n - chunk off n) hwr
      have he : chunk off n + (n - chunk off n) = n := by omega
      rw [he] at hall
      apply hall
      rw [blocks_chunk hn, blocks_one off hn]
    · rw [writeSlots_chunk hn]
      exact hfill.trans hfill'

end EnhancedXv6.Mkfs
