import EnhancedXv6.FileBytes
import EnhancedXv6.Paths

namespace EnhancedXv6.Blocks

open Command Bytes
open Fs (Ftype Stop)

variable {sb : Superblock} {s t u : State} {i j off n fuel : ℕ} {ip : Inode} {E : Stop → Prop}

section Holes

theorem Grown.byte {K : Finset ℕ} (h : Grown sb i K s t) (j x : ℕ) : t.byte j x = s.byte j x := by
  unfold State.byte
  rw [h.file_eq]
  split_ifs <;> rfl

theorem blocks_add (off m n : ℕ) : blocks off (m + n) = blocks off m ∪ blocks (off + m) n := by
  ext c
  rw [Finset.mem_union, mem_blocks, mem_blocks, mem_blocks]
  constructor
  · rintro ⟨x, h1, h2, rfl⟩
    by_cases hx : x < off + m
    · exact .inl ⟨x, h1, hx, rfl⟩
    · exact .inr ⟨x, by omega, by omega, rfl⟩
  · rintro (⟨x, h1, h2, rfl⟩ | ⟨x, h1, h2, rfl⟩)
    · exact ⟨x, h1, by omega, rfl⟩
    · exact ⟨x, by omega, by omega, rfl⟩

theorem writeSlots_add (off m n : ℕ) : writeSlots off (m + n) = writeSlots off m ∪ writeSlots (off + m) n := by
  rw [writeSlots, blocks_add, Finset.union_biUnion]
  rfl

theorem vacant_mono {K L : Finset ℕ} (h : K ⊆ L) : s.vacant i K ≤ s.vacant i L :=
  Finset.card_le_card (Finset.filter_subset_filter _ h)

variable {Q : List UInt8 → State → Prop}

theorem wp_readLoop_grow (h : Guarded sb i s) (hm : s.mem i = some ip) (ht : ip.type ≠ .free) (hf : n ≤ fuel)
    (hmax : off + n ≤ MAXFILE * BSIZE)
    (hE : s.freeCount sb < s.vacant i (writeSlots off n) → E (.panic "balloc: out of blocks"))
    (hQ : ∀ t, Grown sb i (writeSlots off n) s t → Q ((List.range n).map (fun k => s.byte i (off + k))) t) :
    wp (safe sb E) (readLoop i fuel off n) s Q := by
  induction fuel generalizing s ip off n Q with
  | zero =>
    obtain rfl := Nat.le_zero.mp hf
    exact hQ s (.refl h (fun k hk => by simp [writeSlots, blocks] at hk))
  | succ fuel ih =>
    by_cases hn : n = 0
    · subst hn
      exact hQ s (.refl h (fun k hk => by simp [writeSlots, blocks] at hk))
    rw [readLoop_succ hn, wp_bind]
    have hpos := chunk_pos off hn
    have hle := chunk_le off n
    have hbn : off / BSIZE < MAXFILE := by
      apply Nat.div_lt_of_lt_mul
      rw [Nat.mul_comm]
      omega
    rw [writeSlots_chunk hn] at hE hQ
    refine wp_bmap h hm ht hbn (fun hlt => hE (lt_of_lt_of_le hlt (vacant_mono Finset.subset_union_left))) (fun w t hg hw => ?_)
    refine wp_bytes ?_
    rw [wp_bind]
    obtain ⟨a, hmt⟩ := hg.inode ip hm
    have hcount := hg.count
    rw [hg.vacant_union] at hE
    refine ih hg.guarded hmt ht (by omega) (by omega) (fun hlt => hE (by omega)) (fun u hu => ?_)
    have hall := hQ u (hg.trans hu)
    have he : n = chunk off n + (n - chunk off n) := by omega
    rw [he, List.range_add, List.map_append, List.map_map] at hall
    have hfirst : (List.range (chunk off n)).map (fun k => t.block w.toNat (off % BSIZE + k)) =
        (List.range (chunk off n)).map (fun k => s.byte i (off + k)) := by
      apply List.map_congr_left
      intro k hk
      have hk' := List.mem_range.mp hk
      have hdiv : (off + k) / BSIZE = off / BSIZE := chunk_div (n := n) (by omega) (by omega)
      rw [← hg.byte, byte_of_refs (x := off + k) (by rw [hdiv]; exact hw)]
      congr 1
      simp only [BSIZE] at hdiv ⊢
      omega
    rw [wp_pure, hfirst]
    convert hall using 3
    funext k
    rw [Function.comp_apply, hg.byte, Nat.add_assoc]

theorem wp_readi_grow {Q : ℤ × List UInt8 → State → Prop} {off n : UInt32} (h : Guarded sb i s) (hm : s.mem i = some ip) (ht : ip.type ≠ .free)
    (hd : ip.type ≠ .dev) (hle : off.toNat + n.toNat ≤ ip.size.toNat) (hmax : ip.size.toNat ≤ MAXFILE * BSIZE)
    (hE : s.freeCount sb < s.vacant i (writeSlots off.toNat n.toNat) → E (.panic "balloc: out of blocks"))
    (hQ : ∀ t, Grown sb i (writeSlots off.toNat n.toNat) s t →
      Q ((n.toNat : ℤ), (List.range n.toNat).map (fun k => s.byte i (off.toNat + k))) t) :
    wp (safe sb E) (readi i off n) s Q := by
  have hlt := ip.size.toNat_lt
  have hwrap : ¬ off + n < off := by
    rw [add_lt_left]
    omega
  have hoff : ¬ off > ip.size := by
    rw [gt_iff_lt, UInt32.lt_iff_toNat_lt]
    omega
  have hsum : ¬ off + n > ip.size := by
    rw [gt_iff_lt, UInt32.lt_iff_toNat_lt, toNat_add hwrap]
    omega
  unfold readi
  refine wp_inode hm ?_
  rw [if_neg hd, if_neg (not_or.mpr ⟨hoff, hwrap⟩), if_neg hsum, wp_bind]
  refine wp_readLoop_grow h hm ht (le_refl _) (by omega) hE (fun t hg => ?_)
  rw [wp_pure, toInt_of_le (by omega)]
  exact hQ t hg

end Holes

end EnhancedXv6.Blocks

namespace EnhancedXv6.Names

open Command Bytes Blocks
open Fs (Ftype Stop)

def direntInum (de : List UInt8) : ℕ := (de.getD 0 0).toNat + 256 * (de.getD 1 0).toNat

def dirlookupLoop (dp : ℕ) (name : Mem) : ℕ → UInt32 → Code (Option (ℕ × ℕ))
  | 0, _ => pure none
  | fuel + 1, off => do
    let ip ← op (.inode dp)
    if off < ip.size then
      let (r, de) ← readi dp off 16
      if r ≠ 16 then
        op (.panic "dirlookup read")
        pure none
      else if direntInum de = 0 then dirlookupLoop dp name fuel (off + 16)
      else if namecmp name (fun k => de.getD k 0) 2 = 0 then pure (some (direntInum de, off.toNat))
      else dirlookupLoop dp name fuel (off + 16)
    else pure none

def dirlookup (dp : ℕ) (name : Mem) : Code (Option (ℕ × ℕ)) := do
  let ip ← op (.inode dp)
  if ip.type ≠ .dir then
    op (.panic "dirlookup not DIR")
    pure none
  else dirlookupLoop dp name (ip.size.toNat / 16 + 1) 0

/-- The loop of `namex`. `last` tells of which inodes there is one reference left when `iput` is called. -/
def namexCode (last : ℕ → Bool) (nameiparent : Bool) : ℕ → ℕ → List UInt8 → Mem → Code (Option (ℕ × Mem))
  | 0, _, _, _ => pure none
  | n + 1, ip, path, name => match skipelem path name with
    | none =>
      if nameiparent then do
        iput ip (last ip)
        pure none
      else pure (some (ip, name))
    | some (path, name) => do
      -- `ilock`
      op (.load ip)
      let dp ← op (.inode ip)
      if dp.type ≠ .dir then
        iput ip (last ip)
        pure none
      else if nameiparent ∧ path = [] then pure (some (ip, name))
      else do
        let next ← dirlookup ip name
        iput ip (last ip)
        match next with
        | none => pure none
        | some (next, _) => namexCode last nameiparent n next path name

def nameiCode (last : ℕ → Bool) (cwd : ℕ) (path : List UInt8) (name : Mem) : Code (Option ℕ) := do
  let r ← namexCode last false (path.length + 1) (start cwd path) path name
  pure (r.map Prod.fst)

def nodeOf (s : Blocks.State) (i : ℕ) : Node := ⟨(s.cur i).type, s.size i, s.byte i⟩

section Lookup

variable {sb : Superblock} {s t : Blocks.State} {i j n : ℕ} {ip : Inode} {E : Stop → Prop} {name : Mem} {Q : Option (ℕ × ℕ) → Blocks.State → Prop}

theorem nodeOf_grown {K : Finset ℕ} (h : Grown sb i K s t) (hm : s.mem i = some ip) : nodeOf t i = nodeOf s i := by
  obtain ⟨a, hmt⟩ := h.inode ip hm
  have hbyte : t.byte i = s.byte i := funext (h.byte i)
  unfold nodeOf State.size
  rw [cur_of_mem hmt, cur_of_mem hm, hbyte]

theorem getD_entry (f : Mem) {k : ℕ} (hk : k < 16) : ((List.range 16).map (fun k => f (off + k))).getD k 0 = f (off + k) := by
  rw [List.getD_eq_getElem _ _ (by rwa [List.length_map, List.length_range]), List.getElem_map, List.getElem_range]

theorem wp_dirlookupLoop {off : UInt32} (h : Guarded sb i s) (hm : s.mem i = some ip) (hdir : ip.type = .dir)
    (hmax : ip.size.toNat ≤ MAXFILE * BSIZE) (hn : 16 * (j + n) = ip.size.toNat) (hoff : off.toNat = 16 * j)
    (hE : s.freeCount sb < s.vacant i (writeSlots (16 * j) (16 * n)) → E (.panic "balloc: out of blocks"))
    (hQ : ∀ r t, (nodeOf s i).search name (n + 1) (16 * j) = .ok r → (∃ K ⊆ writeSlots (16 * j) (16 * n), Grown sb i K s t) →
      (r = none → Grown sb i (writeSlots (16 * j) (16 * n)) s t) → Q r t) :
    wp (safe sb E) (dirlookupLoop i name (n + 1) off) s Q := by
  have hsize : (nodeOf s i).size = ip.size.toNat := by
    change (s.cur i).size.toNat = _
    rw [cur_of_mem hm]
  induction n generalizing s ip j off with
  | zero =>
    have hnot : ¬ off < ip.size := by
      rw [UInt32.lt_iff_toNat_lt]
      omega
    unfold dirlookupLoop
    refine wp_inode hm ?_
    rw [if_neg hnot]
    have hempty : writeSlots (16 * j) (16 * 0) = ∅ := by simp [writeSlots, blocks]
    have hg : Grown sb i (writeSlots (16 * j) (16 * 0)) s s := by
      rw [hempty]
      exact .refl h (fun k hk => absurd hk (Finset.notMem_empty k))
    refine hQ none s ?_ ⟨_, subset_rfl, hg⟩ (fun _ => hg)
    rw [Node.search, if_pos (by omega)]
  | succ n ih =>
    have hlt : off < ip.size := by
      rw [UInt32.lt_iff_toNat_lt]
      omega
    have h16 : (16 : UInt32).toNat = 16 := rfl
    have hsplit : writeSlots (16 * j) (16 * (n + 1)) = writeSlots (16 * j) 16 ∪ writeSlots (16 * (j + 1)) (16 * n) := by
      rw [Nat.mul_succ, Nat.add_comm, writeSlots_add, Nat.mul_succ]
    rw [hsplit] at hE hQ
    unfold dirlookupLoop
    refine wp_inode hm ?_
    rw [if_pos hlt, wp_bind]
    have hne : ip.type ≠ .free ∧ ip.type ≠ .dev := by
      rw [hdir]
      decide
    refine wp_readi_grow h hm hne.1 hne.2 (by omega) hmax
      (fun hlt => hE (lt_of_lt_of_le hlt (by rw [hoff, h16]; exact vacant_mono Finset.subset_union_left))) (fun t hg => ?_)
    rw [hoff, h16] at hg ⊢
    have hnode := nodeOf_grown hg hm
    obtain ⟨a, hmt⟩ := hg.inode ip hm
    have hcount := hg.count
    rw [hg.vacant_union] at hE
    -- the rest of the directory, in the state with the block of this entry
    have hrest : (∀ r, (nodeOf s i).search name (n + 1) (16 * (j + 1)) = .ok r → (nodeOf s i).search name (n + 1 + 1) (16 * j) = .ok r) →
        wp (safe sb E) (dirlookupLoop i name (n + 1) (off + 16)) t Q := by
      intro hs
      have hoff' : (off + 16).toNat = 16 * (j + 1) := by
        have hlt' := ip.size.toNat_lt
        rw [UInt32.toNat_add, hoff, h16]
        omega
      apply ih hg.guarded hmt hdir hmax (by change _ = ip.size.toNat; omega) hoff'
      · intro hlt
        exact hE (by omega)
      · intro r u hr hK hnone
        obtain ⟨K, hK, hu⟩ := hK
        rw [hnode] at hr
        refine hQ r u (hs r hr) ⟨_, Finset.union_subset_union_right hK, hg.trans hu⟩ (fun he => hg.trans (hnone he))
      · rw [hnode, hsize]
    have hinum : direntInum ((List.range 16).map (fun k => s.byte i (16 * j + k))) = (nodeOf s i).inum (16 * j) := by
      unfold direntInum
      rw [getD_entry _ (by decide), getD_entry _ (by decide)]
      rfl
    have hname : namecmp name (fun k => ((List.range 16).map (fun k => s.byte i (16 * j + k))).getD k 0) 2 = 0 ↔
        namecmp name (nodeOf s i).data (16 * j + 2) = 0 := by
      have hkey : key (fun k => ((List.range 16).map (fun k => s.byte i (16 * j + k))).getD k 0) 2 = key (nodeOf s i).data (16 * j + 2) := by
        apply cString_congr
        intro k hk
        change k < 14 at hk
        rw [getD_entry _ (by omega), Nat.add_assoc]
        rfl
      rw [namecmp_eq_zero, namecmp_eq_zero, hkey]
    have hsearch : (nodeOf s i).search name (n + 1 + 1) (16 * j) =
        if (nodeOf s i).inum (16 * j) = 0 then (nodeOf s i).search name (n + 1) (16 * (j + 1))
        else if namecmp name (nodeOf s i).data (16 * j + 2) = 0 then .ok (some ((nodeOf s i).inum (16 * j), 16 * j))
        else (nodeOf s i).search name (n + 1) (16 * (j + 1)) := by
      rw [Node.search, if_neg (by omega), if_neg (by omega), Nat.mul_succ]
    dsimp only
    rw [if_neg (by rw [not_not]; rfl), hinum]
    by_cases hz : (nodeOf s i).inum (16 * j) = 0
    · rw [if_pos hz]
      rw [if_pos hz] at hsearch
      exact hrest (fun r hr => hsearch.trans hr)
    · rw [if_neg hz]
      rw [if_neg hz] at hsearch
      by_cases hk : namecmp name (nodeOf s i).data (16 * j + 2) = 0
      · rw [if_pos (hname.mpr hk)]
        rw [if_pos hk] at hsearch
        rw [wp_pure]
        refine hQ _ t hsearch ⟨_, Finset.subset_union_left, hg⟩ (fun he => ?_)
        cases he
      · rw [if_neg (fun he => hk (hname.mp he))]
        rw [if_neg hk] at hsearch
        exact hrest (fun r hr => hsearch.trans hr)

theorem wp_dirlookup (h : Guarded sb i s) (hm : s.mem i = some ip) (hdir : ip.type = .dir) (hmax : ip.size.toNat ≤ MAXFILE * BSIZE)
    (h16 : ip.size.toNat % 16 = 0)
    (hE : s.freeCount sb < s.vacant i (writeSlots 0 ip.size.toNat) → E (.panic "balloc: out of blocks"))
    (hQ : ∀ r t, (nodeOf s i).dirlookup name = .ok r → (∃ K ⊆ writeSlots 0 ip.size.toNat, Grown sb i K s t) →
      (r = none → Grown sb i (writeSlots 0 ip.size.toNat) s t) → Q r t) :
    wp (safe sb E) (dirlookup i name) s Q := by
  have hn : 16 * (0 + ip.size.toNat / 16) = ip.size.toNat := by omega
  have hlen : 16 * (ip.size.toNat / 16) = ip.size.toNat := by omega
  have hnode : (nodeOf s i).dirlookup name = (nodeOf s i).search name (ip.size.toNat / 16 + 1) (16 * 0) := by
    have ht : (nodeOf s i).type = .dir := by
      change (s.cur i).type = _
      rw [cur_of_mem hm, hdir]
    have hs : (nodeOf s i).size = ip.size.toNat := by
      change (s.cur i).size.toNat = _
      rw [cur_of_mem hm]
    rw [Node.dirlookup, if_neg (not_not.mpr ht), hs]
  rw [hnode] at hQ
  rw [← hlen] at hE hQ
  unfold dirlookup
  refine wp_inode hm ?_
  rw [if_neg (not_not.mpr hdir)]
  apply wp_dirlookupLoop h hm hdir hmax hn rfl
  · rwa [hlen] at hE ⊢
  · intro r t hr hK hnone
    rw [hlen] at hK hnone hQ
    exact hQ r t hr hK hnone

end Lookup

section Root

variable {sb : Superblock} {s t : Blocks.State} {i : ℕ} {ip : Inode} {E : Stop → Prop}

theorem wp_load {α : Type} {f : Unit → Code α} {Q : α → Blocks.State → Prop} (ht : (s.cur i).type ≠ .free)
    (h : wp (safe sb E) (f ()) (s.setMem i (some (s.cur i))) Q) : wp (safe sb E) ((op (.load i) : Code Unit) >>= f) s Q := by
  refine wp_op ?_ nofun h
  cases hm : s.mem i with
  | some ip =>
    have he : s.setMem i (some (s.cur i)) = s := by
      rw [cur_of_mem hm, ← hm]
      unfold State.setMem
      rw [Function.update_eq_self]
    rw [he]
    simp only [exec, hm]
  | none =>
    have hc : s.cur i = s.dinode i := by
      unfold State.cur
      rw [hm]
      rfl
    rw [hc] at ht ⊢
    simp only [exec, hm]
    rw [if_neg ht]

theorem cur_load (s : Blocks.State) (i j : ℕ) : (s.setMem i (some (s.cur i))).cur j = s.cur j := by
  by_cases hj : j = i
  · subst hj
    exact cur_setMem_self ..
  · exact cur_setMem_of_ne s _ hj

theorem refs_load (s : Blocks.State) (i : ℕ) : (s.setMem i (some (s.cur i))).refs = s.refs := by
  refine refs_of_cur rfl (fun j => ?_)
  rw [cur_load]
  exact ⟨rfl, rfl⟩

theorem byte_load (s : Blocks.State) (i j x : ℕ) : (s.setMem i (some (s.cur i))).byte j x = s.byte j x := by
  unfold State.byte State.file
  rw [refs_load]
  rfl

theorem nodeOf_load (s : Blocks.State) (i j : ℕ) : nodeOf (s.setMem i (some (s.cur i))) j = nodeOf s j := by
  have hbyte : (s.setMem i (some (s.cur i))).byte j = s.byte j := funext (byte_load s i j)
  unfold nodeOf State.size
  rw [cur_load, hbyte]

theorem wp_iput_linked {α : Type} {f : Unit → Code α} {Q : α → Blocks.State → Prop} {last : Bool} (hm : s.mem i = some ip)
    (hl : ip.nlink ≠ 0) (h : wp (safe sb E) (f ()) s Q) : wp (safe sb E) (iput i last >>= f) s Q := by
  rw [wp_bind]
  unfold iput
  refine wp_op (r := true) (t := s) ?_ nofun ?_
  · simp only [exec, hm]
    rfl
  · rw [if_pos rfl]
    exact wp_inode hm (wp_cond (fun hx => absurd hx.1 hl) (fun _ => h))

theorem skipelem_single {name : List UInt8} (h0 : 0 ∉ name) (h47 : 47 ∉ name) (hne : name ≠ []) (buf : Mem) :
    ∃ d, skipelem (47 :: name) buf = some ([], d) ∧ key d 0 = name.take DIRSIZ := by
  have hc : components (47 :: name) = [name.take DIRSIZ] := by
    rw [components_slash, ← List.append_nil name, components_append h47 hne (.inl rfl), List.append_nil]
    rfl
  have h0' : 0 ∉ 47 :: name := by
    rw [List.mem_cons, not_or]
    exact ⟨by decide, h0⟩
  obtain ⟨-, he⟩ | ⟨rest, d, hs, he, -, -, hr⟩ := skipelem_cases h0' buf
  · rw [hc] at he
    cases he
  · rw [hc] at he
    obtain ⟨hk, hrest⟩ := List.cons.inj he
    obtain rfl := hr.mpr hrest.symm
    exact ⟨d, hs, hk.symm⟩

theorem wp_namei_root {name : List UInt8} {Q : Option ℕ → Blocks.State → Prop} (last : ℕ → Bool) (cwd : ℕ) (buf : Mem) (h0 : 0 ∉ name)
    (h47 : 47 ∉ name) (hne : name ≠ []) (h : Guarded sb ROOTINO s) (hdir : (s.cur ROOTINO).type = .dir) (hlink : (s.cur ROOTINO).nlink ≠ 0)
    (hmax : s.size ROOTINO ≤ MAXFILE * BSIZE) (h16 : s.size ROOTINO % 16 = 0)
    (hE : s.freeCount sb < s.vacant ROOTINO (writeSlots 0 (s.size ROOTINO)) → E (.panic "balloc: out of blocks"))
    (hQ : ∀ r t, (nodeOf s ROOTINO).lookup (name.take DIRSIZ) = .ok r →
      (∃ K ⊆ writeSlots 0 (s.size ROOTINO), Grown sb ROOTINO K (s.setMem ROOTINO (some (s.cur ROOTINO))) t) →
      (r = none → Grown sb ROOTINO (writeSlots 0 (s.size ROOTINO)) (s.setMem ROOTINO (some (s.cur ROOTINO))) t) → Q (r.map Prod.fst) t) :
    wp (safe sb E) (nameiCode last cwd (47 :: name) buf) s Q := by
  obtain ⟨d, hs, hk⟩ := skipelem_single h0 h47 hne buf
  unfold nameiCode
  rw [wp_bind]
  have hstart : start cwd (47 :: name) = ROOTINO := if_pos rfl
  rw [hstart, List.length_cons, namexCode, hs]
  dsimp only
  apply wp_load
  · rw [hdir]
    decide
  have hm : (s.setMem ROOTINO (some (s.cur ROOTINO))).mem ROOTINO = some (s.cur ROOTINO) := State.setMem_self ..
  refine wp_inode hm ?_
  rw [if_neg (not_not.mpr hdir), if_neg (by decide), wp_bind]
  have hvac : (s.setMem ROOTINO (some (s.cur ROOTINO))).vacant ROOTINO (writeSlots 0 (s.size ROOTINO)) =
      s.vacant ROOTINO (writeSlots 0 (s.size ROOTINO)) := by
    unfold State.vacant
    rw [refs_load]
  have hg : Guarded sb ROOTINO (s.setMem ROOTINO (some (s.cur ROOTINO))) := h.congr rfl (refs_load s ROOTINO)
  apply wp_dirlookup hg hm hdir hmax h16
  · intro hlt
    apply hE
    rw [← hvac]
    exact hlt
  intro r t hr hK hnone
  have hlook : (nodeOf s ROOTINO).lookup (name.take DIRSIZ) = .ok r := by
    rw [← hr, nodeOf_load, Node.dirlookup_eq _ hdir, hk]
  obtain ⟨K, hsub, hg⟩ := hK
  obtain ⟨a, hmt⟩ := hg.inode _ hm
  refine wp_iput_linked hmt hlink ?_
  have hfin := hQ r t hlook ⟨K, hsub, hg⟩ hnone
  cases r with
  | none => exact hfin
  | some p =>
    obtain ⟨next, off⟩ := p
    have hend : ∀ (n : ℕ), namexCode last false (n + 1) next [] d = pure (some (next, d)) := fun _ => rfl
    dsimp only
    rw [hend]
    exact hfin

end Root

end EnhancedXv6.Names
