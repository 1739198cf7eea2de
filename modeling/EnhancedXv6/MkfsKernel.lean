import EnhancedXv6.Lookup
import EnhancedXv6.MkfsMain

namespace EnhancedXv6.Mkfs

open Command Bytes Blocks Names
open Fs (Ftype Stop)

variable {st : State} {m s t : Blocks.State} {i j k n : ℕ} {files : List HostFile} {f : HostFile}

section Entries

def numbered : ℕ → List HostFile → List (Mem × ℕ)
  | _, [] => []
  | i, f :: files => (str f.fsName, i) :: numbered (i + 1) files

theorem getElem?_numbered (i : ℕ) (files : List HostFile) (j : ℕ) :
    (numbered i files)[j]? = files[j]?.map (fun f => (str f.fsName, i + j)) := by
  induction files generalizing i j with
  | nil => rfl
  | cons f files ih =>
    cases j with
    | zero => rfl
    | succ j =>
      rw [numbered, List.getElem?_cons_succ, ih, List.getElem?_cons_succ, Nat.add_assoc, Nat.add_comm 1 j]

def entries (files : List HostFile) : List (Mem × ℕ) := (dot, ROOTINO) :: (dotdot, ROOTINO) :: numbered 2 files

theorem dirents_eq (i : ℕ) (files : List HostFile) : dirents i files = (numbered i files).flatMap (fun e => direntBytes e.1 e.2) := by
  induction files generalizing i with
  | nil => rfl
  | cons f files ih => rw [dirents, numbered, List.flatMap_cons, ih]

theorem rootBytes_eq (files : List HostFile) : rootBytes files = (entries files).flatMap (fun e => direntBytes e.1 e.2) := by
  rw [rootBytes, entries, List.flatMap_cons, List.flatMap_cons, dirents_eq, List.append_assoc]

theorem getD_entries (es : List (Mem × ℕ)) (j : ℕ) (hk : k < 16) : (es.flatMap (fun e => direntBytes e.1 e.2)).getD (16 * j + k) 0 =
    match es[j]? with
    | some e => dirent e.1 e.2 k
    | none => 0 := by
  induction es generalizing j with
  | nil => rfl
  | cons e es ih =>
    have hlen := length_direntBytes e.1 e.2
    rw [List.flatMap_cons]
    cases j with
    | zero =>
      rw [List.getD_append _ _ _ _ (by omega), Nat.mul_zero, Nat.zero_add, List.getD_eq_getElem _ _ (by omega)]
      unfold direntBytes
      rw [List.getElem_map, List.getElem_range]
      rfl
    | succ j =>
      have hsub : 16 * (j + 1) + k - 16 = 16 * j + k := by omega
      rw [List.getD_append_right _ _ _ _ (by omega), hlen, hsub, ih]
      rfl

theorem key_str {name : List UInt8} (h0 : 0 ∉ name) : key (str name) 0 = name.take DIRSIZ := by
  have hh : Holds (str name) 0 name := holds_getD name
  by_cases hlen : name.length < DIRSIZ
  · rw [List.take_of_length_le (by omega)]
    have hend : Holds (str name) 0 (name ++ [0]) := by
      apply holds_append.mpr
      refine ⟨hh, ?_, trivial⟩
      rw [Nat.zero_add, str, List.getD_eq_default _ _ (le_refl _)]
    exact hend.cString_eq h0 hlen
  · have ht := (hh.take DIRSIZ).cString_length (fun hm => h0 (List.mem_of_mem_take hm))
    rwa [List.length_take_of_le (by omega)] at ht

end Entries

section Root

def slotOf (files : List HostFile) (j : ℕ) : Option (List UInt8 × ℕ) := (entries files)[j]?.map (fun e => (key e.1 0, e.2))

theorem root_slot (h : Mounted files st m) (hi : files.length < 199) (j : ℕ) : (nodeOf m ROOTINO).slot j = slotOf files j := by
  have hdata : ∀ k < 16, (nodeOf m ROOTINO).data (16 * j + k) = match (entries files)[j]? with
      | some e => dirent e.1 e.2 k
      | none => 0 := by
    intro k hk
    change m.byte ROOTINO (16 * j + k) = _
    rw [h.rootByte, rootBytes_eq, getD_entries _ _ hk]
  unfold slotOf
  cases he : (entries files)[j]? with
  | none =>
    rw [he] at hdata
    rw [Option.map_none, ← Node.slot_zero]
    apply Node.slot_congr
    intro k hk
    exact hdata k hk
  | some e =>
    rw [he] at hdata
    have hrange : 1 ≤ e.2 ∧ e.2 ≤ 65535 := by
      match j with
      | 0 => cases he; decide
      | 1 => cases he; decide
      | j + 2 =>
        change (numbered 2 files)[j]? = some e at he
        rw [getElem?_numbered] at he
        obtain ⟨f, hf, rfl⟩ := Option.map_eq_some_iff.mp he
        have hlt := (List.getElem?_eq_some_iff.mp hf).1
        dsimp only
        omega
    rw [Option.map_some, ← Node.slot_dirent e.1 hrange.1 hrange.2]
    apply Node.slot_congr
    intro k hk
    rw [Nat.mul_zero, Nat.zero_add]
    exact hdata k hk

theorem Mounted.size_root (h : Mounted files st m) (hi : files.length < 199) : m.size ROOTINO % 16 = 0 ∧ 16 * (files.length + 2) ≤ m.size ROOTINO ∧
    m.size ROOTINO ≤ 3584 := by
  have hs : m.size ROOTINO = (16 * (files.length + 2) / 512 + 1) * 512 := h.rootSize
  omega

structure Distinct (files : List HostFile) : Prop where
  some_name : ∀ f ∈ files, f.fsName ≠ []
  not_dot : ∀ f ∈ files, f.fsName.take DIRSIZ ≠ [46] ∧ f.fsName.take DIRSIZ ≠ [46, 46]
  nodup : (files.map (fun f => f.fsName.take DIRSIZ)).Nodup

theorem fsName_sub (f : HostFile) {c : UInt8} (hc : c ∈ f.fsName) : c ∈ f.name := by
  unfold HostFile.fsName at hc
  split_ifs at hc
  · exact List.mem_of_mem_tail hc
  · exact hc

theorem slotOf_file (hf : files[i]? = some f) : slotOf files (i + 2) = some (f.fsName.take DIRSIZ, i + 2) := by
  change (numbered 2 files)[i]?.map _ = _
  rw [getElem?_numbered, hf, Option.map_some, Option.map_some, key_str (fun hm => f.no_zero (fsName_sub f hm)), Nat.add_comm 2 i]

theorem slotOf_cases {x : List UInt8} {v : ℕ} (h : slotOf files j = some (x, v)) : x = [46] ∨ x = [46, 46] ∨
    ∃ i f, files[i]? = some f ∧ j = i + 2 ∧ x = f.fsName.take DIRSIZ ∧ v = i + 2 := by
  match j with
  | 0 =>
    cases h
    exact .inl rfl
  | 1 =>
    cases h
    exact .inr (.inl rfl)
  | i + 2 =>
    cases hf : files[i]? with
    | none =>
      change (numbered 2 files)[i]?.map _ = _ at h
      rw [getElem?_numbered, hf] at h
      cases h
    | some f =>
      rw [slotOf_file hf] at h
      cases h
      exact .inr (.inr ⟨i, f, hf, rfl, rfl, rfl⟩)

theorem find_root (h : Mounted files st m) (hi : files.length < 199) {x : List UInt8} (hx : x ≠ [46] ∧ x ≠ [46, 46]) {v j : ℕ} :
    (nodeOf m ROOTINO).slots[j]? = some (some (x, v)) ↔ ∃ i f, files[i]? = some f ∧ j = i + 2 ∧ x = f.fsName.take DIRSIZ ∧ v = i + 2 := by
  obtain ⟨-, hle, -⟩ := h.size_root hi
  rw [Node.getElem?_slots, root_slot h hi]
  constructor
  · intro hj
    split_ifs at hj
    obtain rfl | rfl | hex := slotOf_cases (Option.some.inj hj)
    · exact absurd rfl hx.1
    · exact absurd rfl hx.2
    · exact hex
  · rintro ⟨i, f, hf, rfl, rfl, rfl⟩
    have hlt := (List.getElem?_eq_some_iff.mp hf).1
    have hsize : (nodeOf m ROOTINO).size = m.size ROOTINO := rfl
    rw [if_pos (by omega), slotOf_file hf]

theorem lookup_root (h : Mounted files st m) (hi : files.length < 199) (hd : Distinct files) {x : List UInt8} (hx : x ≠ [46] ∧ x ≠ [46, 46]) :
    (∀ i f, files[i]? = some f → x = f.fsName.take DIRSIZ → (nodeOf m ROOTINO).lookup x = .ok (some (i + 2, 16 * (i + 2)))) ∧
    ((∀ f ∈ files, x ≠ f.fsName.take DIRSIZ) → (nodeOf m ROOTINO).lookup x = .ok none) := by
  obtain ⟨h16, -, -⟩ := h.size_root hi
  unfold Node.lookup
  constructor
  · intro i f hf he
    have hs : (nodeOf m ROOTINO).slots[i + 2]? = some (some (x, i + 2)) := (find_root h hi hx).mpr ⟨i, f, hf, rfl, he, rfl⟩
    cases hfind : SlotMap.find (nodeOf m ROOTINO).slots x with
    | none => exact absurd hs (SlotMap.find_eq_none hfind)
    | some p =>
      obtain ⟨v, j⟩ := p
      have hj : (nodeOf m ROOTINO).slots[j]? = some (some (x, v)) := (SlotMap.findFrom_eq_some hfind).2
      obtain ⟨i', f', hf', rfl, he', rfl⟩ := (find_root h hi hx).mp hj
      -- the names are distinct
      have hget : ∀ (l : ℕ) (g : HostFile), files[l]? = some g → x = g.fsName.take DIRSIZ →
          (files.map (fun f => f.fsName.take DIRSIZ))[l]? = some x := by
        intro l g hg hxg
        rw [List.getElem?_map, hg, Option.map_some, ← hxg]
      have hlt := (List.getElem?_eq_some_iff.mp (hget i f hf he)).1
      obtain rfl : i = i' := (List.getElem?_inj hlt hd.nodup).mp ((hget i f hf he).trans (hget i' f' hf' he').symm)
      rfl
  · intro hno
    cases hfind : SlotMap.find (nodeOf m ROOTINO).slots x with
    | none => exact if_pos h16
    | some p =>
      obtain ⟨v, j⟩ := p
      have hj : (nodeOf m ROOTINO).slots[j]? = some (some (x, v)) := (SlotMap.findFrom_eq_some hfind).2
      obtain ⟨i, f, hf, -, he, -⟩ := (find_root h hi hx).mp hj
      exact absurd he (hno f (List.mem_of_getElem? hf))

end Root

section Blocks

theorem Mounted.vacant_root (h : Mounted files st m) (hi : files.length < 199) :
    m.vacant ROOTINO (writeSlots 0 (m.size ROOTINO)) = if (files.length + 2) % 32 = 0 then 1 else 0 := by
  obtain ⟨-, hle, hmax⟩ := h.size_root hi
  have hs : m.size ROOTINO = (16 * (files.length + 2) / 512 + 1) * 512 := h.rootSize
  have hbound : 0 + m.size ROOTINO ≤ MAXFILE * BSIZE := by
    change _ ≤ 71680
    omega
  have hneeded := needed_add hbound
  rw [needed_zero, Finset.union_empty, Nat.zero_add] at hneeded
  have hf : (writeSlots 0 (m.size ROOTINO)).filter (fun k => m.refs (ROOTINO, k) = none) =
      needed (m.size ROOTINO) \ needed (16 * (files.length + 2)) := by
    ext k
    rw [Finset.mem_filter, Finset.mem_sdiff, h.rootRefs k, hneeded]
  have hsub : needed (16 * (files.length + 2)) ⊆ needed (m.size ROOTINO) := by
    intro k hk
    rw [mem_needed] at hk ⊢
    exact ⟨hk.1, lt_of_lt_of_le hk.2 hle⟩
  rw [State.vacant, hf, Finset.card_sdiff_of_subset hsub, card_needed (by omega), card_needed (by omega), hs]
  change ((16 * (files.length + 2) / 512 + 1) * 512 + 511) / 512 + (if 6144 < (16 * (files.length + 2) / 512 + 1) * 512 then 1 else 0) -
    ((16 * (files.length + 2) + 511) / 512 + if 6144 < 16 * (files.length + 2) then 1 else 0) = _
  rw [if_neg (by omega), if_neg (by omega)]
  split_ifs <;> omega

theorem Mounted.cases (h : Mounted files st m) (ht : (m.cur i).type ≠ .free) : i = ROOTINO ∨ ∃ l f, files[l]? = some f ∧ i = l + 2 := by
  have hi : ¬ (i = 0 ∨ files.length + 1 < i) := fun hx => ht (h.free i hx)
  by_cases h1 : i = 1
  · exact .inl h1
  · right
    have hlt : i - 2 < files.length := by omega
    exact ⟨i - 2, files.get ⟨i - 2, hlt⟩, List.getElem?_eq_getElem hlt, by omega⟩

theorem pos_mem_needed {bn n : ℕ} (h : bn * BSIZE < n) (hmax : n ≤ MAXFILE * BSIZE) : State.pos bn ∈ needed n := by
  rw [mem_needed]
  change n ≤ 71680 at hmax
  change bn * 512 < n at h
  unfold State.pos
  change (if bn < 12 then bn else bn + 1) ≤ 140 ∧
    (if (if bn < 12 then bn else bn + 1) ≤ 12 then if bn < 12 then bn else bn + 1 else (if bn < 12 then bn else bn + 1) - 1) * 512 < n
  by_cases hd : bn < 12
  · rw [if_pos hd, if_pos (by omega)]
    omega
  · rw [if_neg hd, if_neg (by omega)]
    omega

theorem isSome_file {bn : ℕ} (h : m.refs (i, State.pos bn) ≠ none) : (m.file i bn).isSome := by
  unfold Blocks.State.file
  rw [Option.isSome_map, Option.isSome_iff_ne_none]
  exact h

theorem Mounted.filled (h : Mounted files st m) (hf : Fits files) (ht : (m.cur i).type ≠ .free)
    (hi : i = ROOTINO → (files.length + 2) % 32 ≠ 0) : m.Filled i := by
  intro bn hbn
  apply isSome_file
  have hlen : files.length < 199 := hf.inodes
  obtain rfl | ⟨l, f, hl, rfl⟩ := h.cases ht
  · have hs : m.size ROOTINO = (16 * (files.length + 2) / 512 + 1) * 512 := h.rootSize
    have hmod := hi rfl
    intro hnone
    apply (h.rootRefs _).mp hnone
    apply pos_mem_needed
    · change bn * 512 < _ at hbn
      change bn * 512 < 16 * (files.length + 2)
      omega
    · change _ ≤ 71680
      omega
  · have hne : l + 2 ≠ ROOTINO := by
      change l + 2 ≠ 1
      omega
    intro hnone
    apply (h.packed _ hne _).mp hnone
    apply pos_mem_needed hbn
    rw [(h.file l f hl).size]
    exact hf.sizes f (List.mem_of_getElem? hl)

theorem Mounted.type_ne_dev (h : Mounted files st m) : (m.cur i).type ≠ .dev := by
  intro hdev
  obtain rfl | ⟨l, f, hl, rfl⟩ := h.cases (i := i) (by rw [hdev]; decide)
  · rw [h.rootType.1] at hdev
    cases hdev
  · rw [(h.file l f hl).type] at hdev
    cases hdev

end Blocks

section Reads

structure Cached (m s : Blocks.State) : Prop where
  block : s.block = m.block
  dinode : s.dinode = m.dinode
  cur : ∀ i, s.cur i = m.dinode i

theorem Mounted.cur_eq (h : Mounted files st m) (i : ℕ) : m.cur i = m.dinode i := by
  unfold State.cur
  rw [h.mem]
  rfl

theorem Cached.refs (h : Cached m s) (hm : Mounted files st m) : s.refs = m.refs := by
  refine refs_of_cur h.block (fun j => ?_)
  rw [h.cur, hm.cur_eq]
  exact ⟨rfl, rfl⟩

theorem Cached.load (h : Cached m s) (i : ℕ) : Cached m (s.setMem i (some (s.cur i))) where
  block := h.block
  dinode := h.dinode
  cur j := (cur_load s i j).trans (h.cur j)

theorem Cached.filled (h : Cached m s) (hm : Mounted files st m) (hf : m.Filled i) : s.Filled i := by
  intro bn hbn
  have hsize : s.size i = m.size i := by rw [State.size, h.cur, ← hm.cur_eq, State.size]
  rw [hsize] at hbn
  have hfile := hf bn hbn
  unfold Blocks.State.file at hfile ⊢
  rw [h.refs hm, h.block]
  exact hfile

theorem Cached.guarded (h : Cached m s) (hm : Mounted files st m) : Guarded sb i s := (hm.sound.congr h.block (h.refs hm)).guarded

theorem filled_slots (h : s.Filled i) : ∀ k ∈ writeSlots 0 (s.size i), s.refs (i, k) ≠ none := by
  intro k hk
  obtain ⟨bn, hbn, hk⟩ := Finset.mem_biUnion.mp hk
  exact refs_of_file (h.blocks (by omega) bn hbn) hk

theorem Cached.readi (h : Cached m s) (hm : Mounted files st m) (ht : (m.dinode i).type ≠ .free) (hf : m.Filled i) (off n : UInt32) :
    ∃ r t, run (exec sb) (do op (.load i); Blocks.readi i off n) s = .ok (r, t) ∧ Cached m t := by
  apply run_of_safe
  have hc := h.load i
  rw [← h.cur] at ht
  apply wp_load ht
  have hd : (s.cur i).type ≠ .dev := by
    rw [h.cur, ← hm.cur_eq]
    exact hm.type_ne_dev
  exact wp_readi (hc.guarded hm) (State.setMem_self ..) ht hd (hc.filled hm hf) (fun _ => hc) (fun _ _ _ _ => hc)

theorem Cached.dirlookup (h : Cached m s) (hm : Mounted files st m) (hlen : files.length < 199) (ht : (m.dinode i).type = .dir) (hf : m.Filled i)
    (name : Mem) : ∃ r t, run (exec sb) (do op (.load i); dirlookup i name) s = .ok (r, t) ∧ Cached m t := by
  obtain rfl : i = ROOTINO := by
    rw [← hm.cur_eq] at ht
    obtain rfl | ⟨l, f, hl, rfl⟩ := hm.cases (i := i) (by rw [ht]; decide)
    · rfl
    · rw [(hm.file l f hl).type] at ht
      cases ht
  apply run_of_safe
  have hc := h.load ROOTINO
  rw [← h.cur] at ht
  apply wp_load (by rw [ht]; decide)
  have hs : (s.cur ROOTINO).size.toNat = m.size ROOTINO := by rw [h.cur, ← hm.cur_eq, State.size]
  obtain ⟨h16, -, hmax⟩ := hm.size_root hlen
  have hslots := filled_slots (hc.filled hm hf)
  rw [State.size, cur_load] at hslots
  apply wp_dirlookup (hc.guarded hm) (State.setMem_self ..) ht
  · rw [hs]
    exact le_trans hmax (by decide)
  · rw [hs]
    exact h16
  · intro hlt
    rw [vacant_eq_zero hslots] at hlt
    exact absurd hlt (Nat.not_lt_zero _)
  · rintro r t - ⟨K, hK, hg⟩ -
    rw [hg.same (fun k hk => hslots k (hK hk))]
    exact hc

end Reads

section Images

theorem Mounted.refs_filled (h : Mounted files st m) (hf : m.Filled i) {bn : ℕ}
    (hbn : bn * BSIZE < (m.dinode i).size.toNat) : m.refs (i, State.pos bn) = some (m.slot i (State.pos bn)) ∧ m.slot i (State.pos bn) ≠ 0 := by
  have hsize : m.size i = (m.dinode i).size.toNat := by rw [State.size, h.cur_eq]
  have hsome := hf bn (by rwa [hsize])
  unfold Blocks.State.file at hsome
  rw [Option.isSome_map, Option.isSome_iff_exists] at hsome
  obtain ⟨b, hb⟩ := hsome
  obtain ⟨-, rfl, hne⟩ := refs_eq_some.mp hb
  exact ⟨hb, hne⟩

structure WithoutHoles (st : State) (m : Blocks.State) : Prop where
  blocks : ∀ i, (m.dinode i).type ≠ .free → ∀ bn, bn * BSIZE < (m.dinode i).size.toNat →
    m.slot i (State.pos bn) ≠ 0 ∧ nmeta ≤ m.slot i (State.pos bn) ∧ m.slot i (State.pos bn) < st.freeblock
  distinct : ∀ i j, (m.dinode i).type ≠ .free → (m.dinode j).type ≠ .free → ∀ bn bn',
    bn * BSIZE < (m.dinode i).size.toNat → bn' * BSIZE < (m.dinode j).size.toNat →
      m.slot i (State.pos bn) = m.slot j (State.pos bn') → i = j ∧ bn = bn'
  bitmap : ∀ b, bit (st.img bmapstart) b = decide (b < st.freeblock)
  readi : ∀ s, Cached m s → ∀ i, (m.dinode i).type ≠ .free → ∀ off n,
    ∃ r t, run (exec sb) (do op (.load i); readi i off n) s = .ok (r, t) ∧ Cached m t
  dirlookup : ∀ s, Cached m s → ∀ i, (m.dinode i).type = .dir → ∀ name,
    ∃ r t, run (exec sb) (do op (.load i); dirlookup i name) s = .ok (r, t) ∧ Cached m t

theorem Mounted.withoutHoles (hm : Mounted files st m) (h : Fits files) (hmod : (files.length + 2) % 32 ≠ 0) :
    WithoutHoles st m := by
  have hfill : ∀ i, (m.dinode i).type ≠ .free → m.Filled i := by
    intro i ht
    rw [← hm.cur_eq] at ht
    exact hm.filled h ht (fun _ => hmod)
  refine ⟨?_, ?_, ?_, ?_, ?_⟩
  · intro i ht bn hbn
    obtain ⟨hr, hne⟩ := hm.refs_filled (hfill i ht) hbn
    obtain ⟨hlo, hhi⟩ := hm.sound.data _ _ hr
    have hbit := (hm.sound.bitmap _ hhi).mpr (.inr ⟨_, hr⟩)
    rw [hm.bit _ hhi, decide_eq_true_eq] at hbit
    exact ⟨hne, hlo, hbit⟩
  · intro i j hi hj bn bn' hbn hbn' hslot
    obtain ⟨hr, -⟩ := hm.refs_filled (hfill i hi) hbn
    obtain ⟨hr', -⟩ := hm.refs_filled (hfill j hj) hbn'
    rw [← hslot] at hr'
    have hxy := hm.sound.once _ _ _ hr hr'
    exact ⟨congrArg Prod.fst hxy, State.pos_inj (congrArg Prod.snd hxy)⟩
  · intro b
    rw [hm.bitmap, bit_bitmap]
  · intro s hs i ht off n
    exact hs.readi hm ht (hfill i ht) off n
  · intro s hs i ht name
    exact hs.dirlookup hm h.inodes ht (hfill i (by rw [ht]; decide)) name

theorem Mounted.root_hole (hm : Mounted files st m) (hi : files.length < 199) (hmod : (files.length + 2) % 32 = 0) :
    (m.dinode ROOTINO).type = .dir ∧ (files.length + 2) / 32 * BSIZE < (m.dinode ROOTINO).size.toNat ∧
      m.slot ROOTINO (State.pos ((files.length + 2) / 32)) = 0 := by
  have ht := hm.rootType.1
  have hs : m.size ROOTINO = (16 * (files.length + 2) / 512 + 1) * 512 := hm.rootSize
  rw [State.size, hm.cur_eq] at hs
  refine ⟨?_, ?_, ?_⟩
  · rw [← hm.cur_eq]
    exact ht
  · rw [hs]
    change (files.length + 2) / 32 * 512 < _
    omega
  · apply (refs_eq_none (by rw [ht]; decide)).mp
    apply (hm.rootRefs _).mpr
    have hpos : State.pos ((files.length + 2) / 32) = (files.length + 2) / 32 := if_pos (show _ < 12 by omega)
    rw [hpos, mem_needed]
    change ¬ (_ ∧ (if (files.length + 2) / 32 ≤ 12 then _ else _) * 512 < _)
    rw [if_pos (by omega)]
    omega

theorem image_without_holes (files : List HostFile) (h : Fits files) (devsw : ℤ → Dev) :
    (∃ st, main files = some st ∧ WithoutHoles st (mount st.img devsw)) ↔ (files.length + 2) % 32 ≠ 0 := by
  obtain ⟨st, he, hm⟩ := main_spec h devsw
  constructor
  · rintro ⟨st', he', hw⟩ hmod
    obtain rfl := Option.some.inj (he.symm.trans he')
    obtain ⟨ht, hsize, hslot⟩ := hm.root_hole h.inodes hmod
    exact (hw.blocks ROOTINO (by rw [ht]; decide) _ hsize).1 hslot
  · intro hmod
    exact ⟨st, he, hm.withoutHoles h hmod⟩

def readWhole (i : ℕ) : Code (Ftype × ℤ × List UInt8) := do
  op (.load i)
  let ip ← op (.inode i)
  let r ← readi i 0 ip.size
  pure (ip.type, r)

theorem readWhole_spec (h : Sound sb s) {bytes : List UInt8} (hh : Has s i .file bytes) (hf : s.Filled i) :
    ∃ t, run (exec sb) (readWhole i) s = .ok ((.file, (bytes.length : ℤ), bytes), t) := by
  have ht := hh.type
  have hguard : Guarded sb i (s.setMem i (some (s.cur i))) := h.guarded.congr rfl (refs_load s i)
  have hsize : (s.cur i).size.toNat = bytes.length := hh.size
  have hz : (0 : UInt32).toNat = 0 := rfl
  have hfill : (s.setMem i (some (s.cur i))).Filled i := by
    intro bn hbn
    rw [State.size, cur_load] at hbn
    have hs := hf bn hbn
    unfold Blocks.State.file at hs ⊢
    rw [refs_load]
    exact hs
  have hwp : wp (safe sb (fun _ => False)) (readWhole i) s (fun r _ => r = (.file, (bytes.length : ℤ), bytes)) := by
    unfold readWhole
    apply wp_load
    · rw [ht]
      decide
    refine wp_inode (State.setMem_self ..) ?_
    rw [wp_bind]
    apply wp_readi hguard (State.setMem_self ..) (by rw [ht]; decide) (by rw [ht]; decide) hfill
    · rintro (hx | hx)
      · rw [gt_iff_lt, UInt32.lt_iff_toNat_lt, hz] at hx
        exact absurd hx (Nat.not_lt_zero _)
      · rw [UInt32.lt_iff_toNat_lt, hz] at hx
        exact absurd hx (Nat.not_lt_zero _)
    · intro _ _ l hl
      rw [hz, Nat.sub_zero, Nat.min_self, hsize] at hl
      subst hl
      rw [wp_pure, ht]
      congr 2
      apply List.ext_getElem
      · rw [List.length_map, List.length_range]
      · intro x h1 h2
        rw [List.getElem_map, List.getElem_range, byte_load, hh.byte, hz, Nat.zero_add, List.getD_eq_getElem _ _ h2]
  obtain ⟨r, t, hrun, rfl⟩ := run_of_safe hwp
  exact ⟨t, hrun⟩

theorem Mounted.namei (h : Mounted files st m) (hf : Fits files) {E : Stop → Prop} {Q : Option ℕ → Blocks.State → Prop} (last : ℕ → Bool)
    (cwd : ℕ) (buf : Mem) (name : List UInt8) (h0 : 0 ∉ name) (h47 : 47 ∉ name) (hne : name ≠ [])
    (hE : FSSIZE - st.freeblock < (if (files.length + 2) % 32 = 0 then 1 else 0) → E (.panic "balloc: out of blocks"))
    (hQ : ∀ r t, (nodeOf m ROOTINO).lookup (name.take DIRSIZ) = .ok r →
      (∃ K, Grown sb ROOTINO K (m.setMem ROOTINO (some (m.cur ROOTINO))) t) →
      (r = none → (if (files.length + 2) % 32 = 0 then 1 else 0) ≤ FSSIZE - st.freeblock) → Q (r.map Prod.fst) t) :
    wp (safe sb E) (nameiCode last cwd (47 :: name) buf) m Q := by
  have hlen : files.length < 199 := hf.inodes
  obtain ⟨h16, -, hmax⟩ := h.size_root hlen
  have hfree : m.freeCount sb = FSSIZE - st.freeblock := freeCount_of_bit h.bit
  have hvac := h.vacant_root hlen
  apply wp_namei_root last cwd buf h0 h47 hne h.sound.guarded h.rootType.1
  · rw [h.rootType.2]
    decide
  · exact le_trans hmax (by decide)
  · exact h16
  · rw [hvac, hfree]
    exact hE
  · rintro r t hr ⟨K, -, hg⟩ hnone
    apply hQ r t hr ⟨K, hg⟩
    intro he
    have hcount := (hnone he).count
    have hv : (m.setMem ROOTINO (some (m.cur ROOTINO))).vacant ROOTINO (writeSlots 0 (m.size ROOTINO)) =
        m.vacant ROOTINO (writeSlots 0 (m.size ROOTINO)) := by
      unfold State.vacant
      rw [refs_load]
    have hfc : (m.setMem ROOTINO (some (m.cur ROOTINO))).freeCount sb = m.freeCount sb := rfl
    rw [hv, hvac, hfc, hfree] at hcount
    omega

structure Agrees (files : List HostFile) (st : State) (m : Blocks.State) (last : ℕ → Bool) (cwd : ℕ) (buf : Mem) :
    Prop where
  label : ∀ j < 7, word (st.img 1) j = superblock j
  found : ∀ i f, files[i]? = some f → ∃ t u,
    run (exec sb) (nameiCode last cwd (47 :: f.fsName) buf) m = .ok (some (i + 2), t) ∧
      run (exec sb) (readWhole (i + 2)) t = .ok ((.file, (f.bytes.length : ℤ), f.bytes), u)
  absent : ∀ name, 0 ∉ name → 47 ∉ name → name ≠ [] → name.take DIRSIZ ≠ [46] → name.take DIRSIZ ≠ [46, 46] →
    (∀ f ∈ files, name.take DIRSIZ ≠ f.fsName.take DIRSIZ) →
      ∃ t, run (exec sb) (nameiCode last cwd (47 :: name) buf) m = .ok (none, t)

theorem Mounted.found (hm : Mounted files st m) (h : Fits files) (hd : Distinct files)
    (hno : ¬ FSSIZE - st.freeblock < if (files.length + 2) % 32 = 0 then 1 else 0) (last : ℕ → Bool) (cwd : ℕ)
    (buf : Mem) (hf : files[i]? = some f) : ∃ t u,
      run (exec sb) (nameiCode last cwd (47 :: f.fsName) buf) m = .ok (some (i + 2), t) ∧
        run (exec sb) (readWhole (i + 2)) t = .ok ((.file, (f.bytes.length : ℤ), f.bytes), u) := by
  have hmem := List.mem_of_getElem? hf
  have hlook := (lookup_root hm h.inodes hd (hd.not_dot f hmem)).1 i f hf rfl
  obtain ⟨r, t, hrun, rfl, K, hg⟩ := run_of_safe (hm.namei h (E := fun _ => False)
    (Q := fun r t => r = some (i + 2) ∧ ∃ K, Grown sb ROOTINO K (m.setMem ROOTINO (some (m.cur ROOTINO))) t)
    last cwd buf f.fsName (fun hx => f.no_zero (fsName_sub f hx)) (fun hx => h.names f hmem (fsName_sub f hx))
    (hd.some_name f hmem) (fun hlt => hno hlt) (fun r t hr hK _ => by
      rw [hlook] at hr
      cases hr
      exact ⟨rfl, hK⟩))
  have hsound : Sound sb (m.setMem ROOTINO (some (m.cur ROOTINO))) := hm.sound.congr rfl (refs_load _ _)
  have hne : i + 2 ≠ ROOTINO := by
    change i + 2 ≠ 1
    omega
  -- the file is as it was
  have hcur : t.cur (i + 2) = m.cur (i + 2) := by
    unfold State.cur
    rw [hg.mem _ hne, hg.dinode, State.setMem_of_ne _ _ hne]
    rfl
  have hhas : Has t (i + 2) .file f.bytes := by
    apply (hm.file i f hf).congr hcur
    intro x
    rw [hg.byte, byte_load]
  have hfill : t.Filled (i + 2) := by
    intro bn hbn
    apply isSome_file
    rw [hg.refs_of_ne hne, refs_load]
    have hsz : m.size (i + 2) = t.size (i + 2) := by rw [State.size, State.size, hcur]
    rw [← hsz] at hbn
    have hs := hm.filled h (by rw [(hm.file i f hf).type]; decide) (fun hx => absurd hx hne) bn hbn
    unfold Blocks.State.file at hs
    rwa [Option.isSome_map, Option.isSome_iff_ne_none] at hs
  obtain ⟨u, hu⟩ := readWhole_spec (hg.sound hsound) hhas hfill
  exact ⟨t, u, hrun, hu⟩

theorem Mounted.panics (hm : Mounted files st m) (h : Fits files) (hd : Distinct files) (last : ℕ → Bool) (cwd : ℕ)
    (buf : Mem) (hmod : (files.length + 2) % 32 = 0) (hfull : FSSIZE ≤ st.freeblock) {name : List UInt8} (h0 : 0 ∉ name)
    (h47 : 47 ∉ name) (hne : name ≠ []) (hdot : name.take DIRSIZ ≠ [46] ∧ name.take DIRSIZ ≠ [46, 46])
    (hnot : ∀ f ∈ files, name.take DIRSIZ ≠ f.fsName.take DIRSIZ) :
    run (exec sb) (nameiCode last cwd (47 :: name) buf) m = .error (.panic "balloc: out of blocks") := by
  have hlook := (lookup_root hm h.inodes hd hdot).2 hnot
  have hwp := hm.namei h (E := fun e => e = .panic "balloc: out of blocks") (Q := fun _ _ => False) last cwd buf name
    h0 h47 hne (fun _ => rfl) (fun r t hr _ hroom => by
      rw [hlook] at hr
      cases hr
      have hle := hroom rfl
      rw [if_pos hmod] at hle
      omega)
  obtain ⟨e, hrun, rfl⟩ | ⟨_, _, _, hfalse⟩ := run_of_wp hwp
  · exact hrun
  · exact hfalse.elim

theorem exists_other_name (files : List HostFile) (hi : files.length < 199) : ∃ c : UInt8, c ≠ 0 ∧ c ≠ 46 ∧ c ≠ 47 ∧
    ∀ f ∈ files, [c].take DIRSIZ ≠ f.fsName.take DIRSIZ := by
  by_contra hall
  -- there are 199 names of one byte from 48 on
  have hsub : (List.range 199).map (fun k => [UInt8.ofNat (48 + k)]) ⊆ files.map (fun f => f.fsName.take DIRSIZ) := by
    intro x hx
    obtain ⟨k, hk, rfl⟩ := List.mem_map.mp hx
    have hc : (UInt8.ofNat (48 + k)).toNat = 48 + k := by
      rw [List.mem_range] at hk
      exact UInt8.toNat_ofNat_of_lt' (by change 48 + k < 256; omega)
    by_contra hout
    apply hall
    have hne : ∀ n < 48, UInt8.ofNat (48 + k) ≠ UInt8.ofNat n := by
      intro n hn he
      rw [he, UInt8.toNat_ofNat_of_lt' (by change n < 256; omega)] at hc
      omega
    exact ⟨UInt8.ofNat (48 + k), hne 0 (by decide), hne 46 (by decide), hne 47 (by decide),
      fun f hf he => hout (List.mem_map.mpr ⟨f, hf, he.symm⟩)⟩
  have hnodup : ((List.range 199).map (fun k => [UInt8.ofNat (48 + k)])).Nodup := by
    apply List.Nodup.map_on _ List.nodup_range
    intro j hj k hk hjk
    rw [List.mem_range] at hj hk
    have hjk := congrArg UInt8.toNat (List.cons.inj hjk).1
    rw [UInt8.toNat_ofNat_of_lt' (by change 48 + j < 256; omega), UInt8.toNat_ofNat_of_lt' (by change 48 + k < 256; omega)]
      at hjk
    omega
  have hle := (List.subperm_of_subset hnodup hsub).length_le
  rw [List.length_map, List.length_map, List.length_range] at hle
  omega

theorem kernel_finds_files (files : List HostFile) (h : Fits files) (hd : Distinct files) (devsw : ℤ → Dev)
    (last : ℕ → Bool) (cwd : ℕ) (buf : Mem) :
    (∃ st, main files = some st ∧ Agrees files st (mount st.img devsw) last cwd buf) ↔
      (files.length + 2) % 32 ≠ 0 ∨ nmeta + blocksFor (16 * (files.length + 2)) + totalBlocks files < FSSIZE := by
  obtain ⟨st, he, hm⟩ := main_spec h devsw
  constructor
  · rintro ⟨st', he', hag⟩
    obtain rfl := Option.some.inj (he.symm.trans he')
    by_contra hout
    rw [not_or, not_not, not_lt] at hout
    obtain ⟨hmod, hfull⟩ := hout
    obtain ⟨c, h0, h46, h47, hnot⟩ := exists_other_name files h.inodes
    have hne0 : 0 ∉ [c] := fun hx => h0 (List.mem_singleton.mp hx).symm
    have hne47 : 47 ∉ [c] := fun hx => h47 (List.mem_singleton.mp hx).symm
    have hdot : [c].take DIRSIZ ≠ [46] ∧ [c].take DIRSIZ ≠ [46, 46] := by
      refine ⟨fun hx => h46 (List.cons.inj hx).1, fun hx => ?_⟩
      cases (List.cons.inj hx).2
    obtain ⟨t, hrun⟩ := hag.absent [c] hne0 hne47 (List.cons_ne_nil _ _) hdot.1 hdot.2 hnot
    rw [hm.panics h hd last cwd buf hmod (by rwa [hm.freeblock]) hne0 hne47 (List.cons_ne_nil _ _) hdot hnot] at hrun
    cases hrun
  · intro hroom
    have hno : ¬ FSSIZE - st.freeblock < if (files.length + 2) % 32 = 0 then 1 else 0 := by
      rw [hm.freeblock]
      split_ifs with hz
      · have := hroom.resolve_left (not_not.mpr hz)
        omega
      · exact Nat.not_lt_zero _
    refine ⟨st, he, hm.label, fun i f hf => hm.found h hd hno last cwd buf hf, ?_⟩
    intro name h0 h47 hne hd1 hd2 hnot
    have hlook := (lookup_root hm h.inodes hd ⟨hd1, hd2⟩).2 hnot
    obtain ⟨r, t, hrun, rfl⟩ := run_of_safe (hm.namei h (E := fun _ => False) (Q := fun r _ => r = none) last cwd buf
      name h0 h47 hne (fun hlt => hno hlt) (fun r t hr _ _ => by
        rw [hlook] at hr
        cases hr
        rfl))
    exact ⟨t, hrun⟩

end Images

section Thirty

def letter (i : Fin 30) : UInt8 := UInt8.ofNat (97 + i)

theorem letter_spec : ∀ i : Fin 30, 0 ∉ [letter i] ∧ 47 ∉ [letter i] := by decide

theorem letter_other : ∀ i : Fin 30, ([letter i].take DIRSIZ ≠ [46] ∧ [letter i].take DIRSIZ ≠ [46, 46]) ∧ [letter i].take DIRSIZ ≠ [33] := by decide

def plain (i : Fin 30) (n : ℕ) : HostFile where
  name := [letter i]
  reads := List.replicate n (List.replicate BSIZE 0)
  no_zero := (letter_spec i).1
  some_bytes r hr := by
    rw [List.eq_of_mem_replicate hr, List.length_replicate]
    exact ⟨by decide, le_refl _⟩

theorem length_plain (i : Fin 30) (n : ℕ) : (plain i n).bytes.length = n * BSIZE := by
  change (List.replicate n (List.replicate BSIZE 0)).flatten.length = _
  rw [List.length_flatten, List.map_replicate, List.length_replicate, List.sum_replicate_nat]

def thirty (n : Fin 30 → ℕ) : List HostFile := List.ofFn (fun i => plain i (n i))

theorem length_thirty (n : Fin 30 → ℕ) : (thirty n).length = 30 := List.length_ofFn

theorem totalBlocks_thirty (n : Fin 30 → ℕ) : totalBlocks (thirty n) = (List.ofFn (fun i => blocksFor (n i * BSIZE))).sum := by
  unfold totalBlocks thirty
  rw [List.map_ofFn]
  congr 2
  funext i
  rw [Function.comp_apply, length_plain]

theorem fits_thirty {n : Fin 30 → ℕ} (hn : ∀ i, n i ≤ MAXFILE) (h : (List.ofFn (fun i => blocksFor (n i * BSIZE))).sum ≤ 940) : Fits (thirty n) where
  names f hf := by
    obtain ⟨i, rfl⟩ := List.mem_ofFn.mp hf
    exact (letter_spec i).2
  sizes f hf := by
    obtain ⟨i, rfl⟩ := List.mem_ofFn.mp hf
    rw [length_plain]
    exact Nat.mul_le_mul_right _ (hn i)
  inodes := by
    rw [length_thirty]
    decide
  blocks := by
    rw [length_thirty, totalBlocks_thirty]
    change 60 + _ ≤ 1000
    omega

theorem fsName_plain (i : Fin 30) (n : ℕ) : (plain i n).fsName = [letter i] := by
  have h : ∀ i : Fin 30, letter i ≠ 95 := by decide
  unfold HostFile.fsName
  exact if_neg (fun he => h i (Option.some.inj he))

theorem distinct_thirty (n : Fin 30 → ℕ) : Distinct (thirty n) where
  some_name f hf := by
    obtain ⟨i, rfl⟩ := List.mem_ofFn.mp hf
    rw [fsName_plain]
    exact List.cons_ne_nil _ _
  not_dot f hf := by
    obtain ⟨i, rfl⟩ := List.mem_ofFn.mp hf
    rw [fsName_plain]
    exact (letter_other i).1
  nodup := by
    have hinj : ∀ i j : Fin 30, letter i = letter j → i = j := by decide
    unfold thirty
    rw [List.map_ofFn, List.nodup_ofFn]
    intro i j hij
    rw [Function.comp_apply, Function.comp_apply, fsName_plain, fsName_plain] at hij
    exact hinj i j (List.cons.inj hij).1

theorem thirty_name {n : Fin 30 → ℕ} (hf : f ∈ thirty n) : f.fsName.take DIRSIZ ≠ [33] := by
  obtain ⟨i, rfl⟩ := List.mem_ofFn.mp hf
  rw [fsName_plain]
  exact (letter_other i).2

def noDev (_ : ℤ) : Dev := ⟨none, none⟩

theorem fits_two (n : ℕ) (hn : n ≤ MAXFILE) : Fits [plain 0 n, plain 1 0] where
  names f hf := by
    obtain rfl | hf := List.mem_cons.mp hf
    · exact (letter_spec 0).2
    · obtain rfl := List.mem_singleton.mp hf
      exact (letter_spec 1).2
  sizes f hf := by
    obtain rfl | hf := List.mem_cons.mp hf
    · rw [length_plain]
      exact Nat.mul_le_mul_right _ hn
    · obtain rfl := List.mem_singleton.mp hf
      exact Nat.zero_le _
  inodes := show 2 < 199 by decide
  blocks := by
    have hmono := blocksFor_mono (Nat.mul_le_mul_right BSIZE hn)
    have hmax : blocksFor (MAXFILE * BSIZE) = 141 := by decide
    have htotal : totalBlocks [plain 0 n, plain 1 0] = blocksFor (n * BSIZE) + blocksFor (0 * BSIZE) := by
      simp only [totalBlocks, List.map_cons, List.map_nil, length_plain, List.sum_cons, List.sum_nil, Nat.add_zero]
    have hz : blocksFor (0 * BSIZE) = 0 := by decide
    have hmeta : nmeta + blocksFor (16 * (2 + 2)) = 60 ∧ FSSIZE = 1000 := by decide
    rw [htotal]
    change nmeta + blocksFor (16 * (2 + 2)) + _ ≤ _
    omega

theorem image_without_holes_two :
    ∃ st, main [plain 0 20, plain 1 0] = some st ∧ WithoutHoles st (mount st.img noDev) :=
  (image_without_holes [plain 0 20, plain 1 0] (fits_two 20 (by decide)) noDev).mpr (by decide)

theorem root_hole : Fits (thirty fun _ => 0) ∧ ∃ st, main (thirty fun _ => 0) = some st ∧
    ((mount st.img noDev).dinode ROOTINO).type = .dir ∧ 1 * BSIZE < ((mount st.img noDev).dinode ROOTINO).size.toNat ∧
      (mount st.img noDev).slot ROOTINO (State.pos 1) = 0 := by
  have hfits : Fits (thirty fun _ => 0) := fits_thirty (fun _ => Nat.zero_le _) (by decide)
  obtain ⟨st, he, hm⟩ := main_spec hfits noDev
  have hmod : ((thirty fun _ => 0).length + 2) % 32 = 0 := by
    rw [length_thirty]
  obtain ⟨ht, hs, hslot⟩ := hm.root_hole hfits.inodes hmod
  rw [length_thirty] at hs hslot
  exact ⟨hfits, st, he, ht, hs, hslot⟩

def fullBlocks (i : Fin 30) : ℕ := if i.val < 6 then 140 else if i.val = 6 then 93 else 0

def oneLong (i : Fin 30) : ℕ := if i.val = 0 then 20 else 0

theorem kernel_finds_files_thirty : ∃ st, main (thirty oneLong) = some st ∧
    (∃ t u, run (exec sb) (nameiCode (fun _ => false) ROOTINO [47, 97] (fun _ => 0)) (mount st.img noDev) = .ok (some 2, t) ∧
      run (exec sb) (readWhole 2) t = .ok ((.file, (((plain 0 20).bytes.length : ℕ) : ℤ), (plain 0 20).bytes), u) ∧
      NDIRECT * BSIZE < (plain 0 20).bytes.length) ∧
    ∃ t, run (exec sb) (nameiCode (fun _ => false) ROOTINO [47, 33] (fun _ => 0)) (mount st.img noDev) = .ok (none, t) := by
  obtain ⟨st, he, hag⟩ := (kernel_finds_files (thirty oneLong) (fits_thirty (by decide) (by decide)) (distinct_thirty _)
    noDev (fun _ => false) ROOTINO (fun _ => 0)).mpr (.inr (by rw [length_thirty, totalBlocks_thirty]; decide))
  have hfirst : (thirty oneLong)[0]? = some (plain 0 20) := rfl
  obtain ⟨t, u, hname, hread⟩ := hag.found 0 _ hfirst
  rw [fsName_plain] at hname
  refine ⟨st, he, ⟨t, u, hname, hread, ?_⟩, ?_⟩
  · rw [length_plain]
    decide
  · exact hag.absent [33] (by decide) (by decide) (by decide) (by decide) (by decide) (fun f hf => (thirty_name hf).symm)

theorem full_image_panics : Fits (thirty fullBlocks) ∧ Distinct (thirty fullBlocks) ∧ (∀ f ∈ thirty fullBlocks, f.fsName.take DIRSIZ ≠ [33]) ∧
    ∃ st, main (thirty fullBlocks) = some st ∧
      run (exec sb) (nameiCode (fun _ => false) ROOTINO [47, 33] (fun _ => 0)) (mount st.img noDev) =
        .error (.panic "balloc: out of blocks") := by
  have hfits : Fits (thirty fullBlocks) := fits_thirty (by decide) (by decide)
  obtain ⟨st, he, hm⟩ := main_spec hfits noDev
  have hfb : st.freeblock = 1000 := by
    rw [hm.freeblock, length_thirty, totalBlocks_thirty]
    decide
  refine ⟨hfits, distinct_thirty _, fun f hf => thirty_name hf, st, he, ?_⟩
  exact hm.panics hfits (distinct_thirty _) _ _ _ (by rw [length_thirty]) hfb.ge (by decide) (by decide) (by decide)
    (by decide) (fun f hf => (thirty_name hf).symm)

end Thirty

end EnhancedXv6.Mkfs
