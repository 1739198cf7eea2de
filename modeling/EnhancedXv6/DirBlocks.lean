import EnhancedXv6.BlockRuns
import EnhancedXv6.Dirs
import EnhancedXv6.Lookup
import EnhancedXv6.Transition

namespace EnhancedXv6.Names

open Command Bytes Blocks Transition
open Fs (Ftype Stop)

def freeLoop (dp : ℕ) : ℕ → UInt32 → Code UInt32
  | 0, off => pure off
  | fuel + 1, off => do
    let ip ← op (.inode dp)
    if off < ip.size then
      let (r, de) ← readi dp off 16
      if r ≠ 16 then
        op (.panic "dirlink read")
        pure off
      else if direntInum de = 0 then pure off
      else freeLoop dp fuel (off + 16)
    else pure off

/-- If the name is there, `iput` takes the lock of its inode; if that is the directory itself, the caller holds the lock. -/
def dirlink (dp : ℕ) (name : Mem) (inum : ℕ) : Code ℤ := do
  match ← dirlookup dp name with
  | some (i, _) =>
    if i = dp then
      op .blocked
      pure (-1)
    else pure (-1)
  | none =>
    let ip ← op (.inode dp)
    let off ← freeLoop dp (ip.size.toNat / 16 + 1) 0
    let r ← writei dp (dirent name inum) off 16
    if r ≠ 16 then
      op (.panic "dirlink")
      pure 0
    else pure 0

/-- The part of `sys_unlink` from the lock of the directory to the removal of the entry; `busy` tells that the inode of the name is a
directory which is not empty. -/
def unlink (dp : ℕ) (name : Mem) (busy : Bool) : Code ℤ :=
  if namecmp name dot 0 = 0 ∨ namecmp name dotdot 0 = 0 then pure (-1)
  else do
    match ← dirlookup dp name with
    | none => pure (-1)
    | some (i, off) =>
      -- `ilock(ip)`
      if i = dp then
        op .blocked
        pure (-1)
      else if busy then pure (-1)
      else
        let r ← writei dp (fun _ => 0) (UInt32.ofNat off) 16
        if r ≠ 16 then
          op (.panic "unlink: writei")
          pure 0
        else pure 0

section Simulation

variable {sb : Superblock} {s t : Blocks.State} {i j n : ℕ} {ip : Inode} {E : Stop → Prop} {name : Mem}

structure Holds (sb : Superblock) (i : ℕ) (s : Blocks.State) : Prop where
  guarded : Guarded sb i s
  loaded : ∃ ip, s.mem i = some ip
  dir : (nodeOf s i).Dir

def Room (sb : Superblock) (i n : ℕ) (s : Blocks.State) : Prop := s.vacant i (writeSlots 0 n) ≤ s.freeCount sb

theorem wp_freeLoop {Q : UInt32 → Blocks.State → Prop} {off : UInt32} (h : Guarded sb i s) (hm : s.mem i = some ip)
    (hdir : ip.type = .dir) (hfull : s.Filled i) (hn : 16 * (j + n) = ip.size.toNat) (hoff : off.toNat = 16 * j)
    (hQ : ∀ o : UInt32, (nodeOf s i).freeEntry (n + 1) (16 * j) = .ok o.toNat → Q o s) :
    wp (safe sb E) (freeLoop i (n + 1) off) s Q := by
  have hsize : (nodeOf s i).size = ip.size.toNat := by
    change (s.cur i).size.toNat = _
    rw [cur_of_mem hm]
  have hlt' := ip.size.toNat_lt
  induction n generalizing j off with
  | zero =>
    have hnot : ¬ off < ip.size := by
      rw [UInt32.lt_iff_toNat_lt]
      omega
    unfold freeLoop
    refine wp_inode hm ?_
    rw [if_neg hnot]
    refine hQ off ?_
    rw [Node.freeEntry, if_pos (by omega), hoff]
  | succ n ih =>
    have hlt : off < ip.size := by
      rw [UInt32.lt_iff_toNat_lt]
      omega
    have h16 : (16 : UInt32).toNat = 16 := rfl
    have hne : ip.type ≠ .free ∧ ip.type ≠ .dev := by
      rw [hdir]
      decide
    have hwrap : ¬ off + 16 < off := by
      rw [add_lt_left, h16]
      omega
    have hfree : (nodeOf s i).freeEntry (n + 1 + 1) (16 * j) =
        if (nodeOf s i).inum (16 * j) = 0 then .ok (16 * j) else (nodeOf s i).freeEntry (n + 1) (16 * (j + 1)) := by
      rw [Node.freeEntry, if_neg (by omega), if_neg (by omega), Nat.mul_succ]
    unfold freeLoop
    refine wp_inode hm ?_
    rw [if_pos hlt, wp_bind]
    refine wp_readi h hm hne.1 hne.2 hfull (fun hbad => absurd hbad (not_or.mpr ⟨?_, hwrap⟩)) (fun _ _ m hk => ?_)
    · exact fun hgt => absurd hlt (UInt32.not_lt.mpr (UInt32.le_of_lt hgt))
    obtain rfl : m = 16 := by omega
    have hinum : direntInum ((List.range 16).map (fun k => s.byte i (off.toNat + k))) = (nodeOf s i).inum (16 * j) := by
      unfold direntInum
      rw [getD_entry _ (by decide), getD_entry _ (by decide), hoff]
      rfl
    dsimp only
    rw [if_neg (by rw [not_not]; rfl), hinum]
    by_cases hz : (nodeOf s i).inum (16 * j) = 0
    · rw [if_pos hz]
      refine hQ off ?_
      rw [hfree, if_pos hz, hoff]
    · rw [if_neg hz]
      have hoff' : (off + 16).toNat = 16 * (j + 1) := by
        rw [UInt32.toNat_add, hoff, h16]
        omega
      refine ih (by omega) hoff' (fun o ho => hQ o ?_)
      rw [hfree, if_neg hz, ho]

theorem writeSlots_sub {o m : ℕ} (h : o + m ≤ n) : writeSlots o m ⊆ writeSlots 0 n := by
  obtain ⟨k, rfl⟩ := Nat.exists_eq_add_of_le h
  rw [Nat.add_assoc, writeSlots_add 0 o, Nat.zero_add, writeSlots_add o m]
  exact Finset.subset_union_left.trans Finset.subset_union_right

theorem Room.after {K W : Finset ℕ} (h : Room sb i n s) (hg : Grown sb i K s t) (hK : K ⊆ writeSlots 0 n)
    (hW : W ⊆ writeSlots 0 n) : ¬ t.freeCount sb < t.vacant i W := by
  have hcount := hg.count
  have hunion := hg.vacant_union (L := writeSlots 0 n)
  rw [Finset.union_eq_right.mpr hK] at hunion
  have hle : t.vacant i W ≤ t.vacant i (writeSlots 0 n) := vacant_mono hW
  have hroom : s.vacant i (writeSlots 0 n) ≤ s.freeCount sb := h
  omega

theorem filled_of_grown (hg : Grown sb i (writeSlots 0 n) s t) (hsize : t.size i = n) : t.Filled i := by
  intro bn hbn
  rw [State.file, Option.isSome_map, Option.isSome_iff_ne_none]
  refine hg.filled _ (Finset.mem_biUnion.mpr ⟨bn, mem_blocks.mpr ⟨bn * BSIZE, by omega, by omega, ?_⟩, ?_⟩)
  · exact Nat.mul_div_cancel bn (by decide)
  · exact pos_mem_bmapSlots.mpr rfl

theorem nodeOf_saved {u : Blocks.State} {off : UInt32} {src : Mem} (h : Saved sb i off.toNat 16 src ip t u)
    (hm : t.mem i = some ip) (hoff : off.toNat ≤ (nodeOf t i).size) (hmax : off.toNat + 16 ≤ MAXSIZE) :
    (nodeOf t i).writei off.toNat 16 src = some (nodeOf u i) := by
  have hsize : u.size i = max (t.size i) (off.toNat + 16) := h.size_eq (n := 16) hm
  obtain ⟨a, z, hmu, -⟩ := h.inode
  have hbyte : u.byte i = splice (t.byte i) off.toNat 16 src := funext h.byte
  rw [Node.writei, if_neg (by omega)]
  unfold nodeOf
  rw [hsize, hbyte, cur_of_mem hmu, cur_of_mem hm]

theorem wp_writeEntry {Q : ℤ → Blocks.State → Prop} {off : UInt32} {src : Mem} (h : Guarded sb i t) (hm : t.mem i = some ip)
    (hdir : ip.type = .dir) (hoff : off.toNat ≤ (nodeOf t i).size) (hmax : off.toNat + 16 ≤ MAXSIZE)
    (hroom : ¬ t.freeCount sb < t.vacant i (writeSlots off.toNat 16))
    (hQ : ∀ u d, (nodeOf t i).writei off.toNat 16 src = some d → nodeOf u i = d → Guarded sb i u →
      (∃ ip, u.mem i = some ip) → Q 16 u) :
    wp (safe sb E) (writei i src off 16) t Q := by
  have hne : ip.type ≠ .free ∧ ip.type ≠ .dev := by
    rw [hdir]
    decide
  have hsize : (nodeOf t i).size = ip.size.toNat := by
    change (t.cur i).size.toNat = _
    rw [cur_of_mem hm]
  have h16 : (16 : UInt32).toNat = 16 := rfl
  have hend : off.toNat + 16 ≤ 71680 := hmax
  have hwrap : ¬ off + 16 < off := by
    rw [add_lt_left, h16]
    omega
  have hok : ¬ Refused ip off 16 := by
    rintro (hx | hx | hx)
    · rw [gt_iff_lt, UInt32.lt_iff_toNat_lt] at hx
      omega
    · exact hwrap hx
    · rw [toNat_add hwrap, h16] at hx
      change 71680 < _ at hx
      omega
  refine wp_writei h hm hne.1 hne.2 (fun hr => absurd hr hok) (fun _ hlt => absurd hlt hroom) (fun _ u hs => ?_)
  obtain ⟨a, z, hmu, -⟩ := hs.inode
  exact hQ u _ (nodeOf_saved hs hm hoff hmax) rfl hs.guarded ⟨_, hmu⟩

namespace Holds

variable {inum : ℕ} {r : ℤ} {d : Node}

theorem lookup (h : Holds sb i s) {Q : Option (ℕ × ℕ) → Blocks.State → Prop} (hroom : Room sb i (nodeOf s i).size s)
    (hQ : ∀ r t ip K, (nodeOf s i).dirlookup name = .ok r → t.mem i = some ip → ip.type = .dir → nodeOf t i = nodeOf s i →
      K ⊆ writeSlots 0 (nodeOf s i).size → Grown sb i K s t → (r = none → t.Filled i) → Q r t) :
    wp (safe sb E) (dirlookup i name) s Q := by
  obtain ⟨ip, hm⟩ := h.loaded
  have hsize : (nodeOf s i).size = ip.size.toNat := by
    change (s.cur i).size.toNat = _
    rw [cur_of_mem hm]
  have hdir : ip.type = .dir := by
    rw [← h.dir.type]
    change _ = (s.cur i).type
    rw [cur_of_mem hm]
  have hwhole := h.dir.whole
  have hmax := h.dir.size_le
  rw [hsize] at hwhole hmax hroom hQ
  refine wp_dirlookup h.guarded hm hdir hmax hwhole (fun hlt => absurd hlt (Nat.not_lt.mpr hroom)) ?_
  rintro r t hr ⟨K, hK, hg⟩ hnone
  obtain ⟨a, hmt⟩ := hg.inode ip hm
  have hnode := nodeOf_grown hg hm
  refine hQ r t _ K hr hmt hdir hnode hK hg (fun he => filled_of_grown (hnone he) ?_)
  change (nodeOf t i).size = _
  rw [hnode, hsize]

theorem wp_dirlink (h : Holds sb i s) (hok : (nodeOf s i).dirlink i name inum = .ok (r, d))
    (hroom : Room sb i (nodeOf s i).size s)
    (hgrow : (nodeOf s i).dirlookup name = .ok none →
      (nodeOf s i).freeEntry ((nodeOf s i).size / 16 + 1) 0 = .ok (nodeOf s i).size → Room sb i ((nodeOf s i).size + 16) s) :
    wp (safe sb E) (dirlink i name inum) s
      (fun a t => a = r ∧ nodeOf t i = d ∧ Guarded sb i t ∧ ∃ ip, t.mem i = some ip) := by
  unfold dirlink
  refine wp_seq (h.lookup hroom (fun l t ip K hl hm hdir hnode hK hg hfull => ?_))
  rw [Node.dirlink, hl] at hok
  cases l with
  | some e =>
    obtain ⟨k, off⟩ := e
    dsimp only at hok ⊢
    split_ifs at hok with hk
    cases hok
    rw [if_neg hk]
    exact ⟨rfl, hnode, hg.guarded, _, hm⟩
  | none =>
    have hsize : (nodeOf s i).size = ip.size.toNat := by
      rw [← hnode]
      change (t.cur i).size.toNat = _
      rw [cur_of_mem hm]
    have hwhole := h.dir.whole
    dsimp only at hok ⊢
    refine wp_inode hm ?_
    refine wp_seq (wp_freeLoop (j := 0) hg.guarded hm hdir (hfull rfl) (by omega) rfl (fun o ho => ?_))
    rw [hnode, ← hsize] at ho
    rw [show 16 * 0 = 0 from rfl] at ho
    rw [ho] at hok
    dsimp only at hok
    have hfree := Node.freeEntry_slots hwhole
    have hle := SlotMap.firstFree_le (nodeOf s i).slots
    rw [Node.length_slots] at hle
    have ho' : o.toNat = 16 * SlotMap.firstFree (nodeOf s i).slots := Except.ok.inj (ho.symm.trans hfree)
    cases hw : (nodeOf s i).writei o.toNat 16 (dirent name inum) with
    | none =>
      rw [hw] at hok
      cases hok
    | some d' =>
      rw [hw] at hok
      cases hok
      have hmax : o.toNat + 16 ≤ MAXSIZE := by
        by_contra hgt
        rw [Node.writei, if_pos (.inr (by omega))] at hw
        cases hw
      have hroom' : ¬ t.freeCount sb < t.vacant i (writeSlots o.toNat 16) := by
        by_cases hend : o.toNat = (nodeOf s i).size
        · have hsub : writeSlots 0 (nodeOf s i).size ⊆ writeSlots 0 ((nodeOf s i).size + 16) := writeSlots_sub (by omega)
          rw [hend] at ho ⊢
          exact (hgrow hl ho).after hg (hK.trans hsub) (writeSlots_sub (le_refl _))
        · exact hroom.after hg hK (writeSlots_sub (by omega))
      refine wp_seq (wp_writeEntry hg.guarded hm hdir (by rw [hnode]; omega) hmax hroom' (fun u d₀ hd hu hgu hmu => ?_))
      rw [hnode, hw] at hd
      cases hd
      rw [if_neg (by decide)]
      exact ⟨rfl, hu, hgu, hmu⟩

theorem wp_unlink (h : Holds sb i s) {busy : Bool} (hok : (nodeOf s i).unlink i name busy = .ok (r, d))
    (hroom : Room sb i (nodeOf s i).size s) :
    wp (safe sb E) (unlink i name busy) s
      (fun a t => a = r ∧ nodeOf t i = d ∧ Guarded sb i t ∧ ∃ ip, t.mem i = some ip) := by
  unfold unlink
  rw [Node.unlink] at hok
  by_cases hdot : namecmp name dot 0 = 0 ∨ namecmp name dotdot 0 = 0
  · rw [if_pos hdot] at hok ⊢
    cases hok
    exact ⟨rfl, rfl, h.guarded, h.loaded⟩
  rw [if_neg hdot] at hok ⊢
  refine wp_seq (h.lookup hroom (fun l t ip K hl hm hdir hnode hK hg hfull => ?_))
  rw [hl] at hok
  cases l with
  | none =>
    cases hok
    exact ⟨rfl, hnode, hg.guarded, _, hm⟩
  | some e =>
    obtain ⟨k, off⟩ := e
    dsimp only at hok ⊢
    split_ifs at hok with hk hb
    · cases hok
      rw [if_neg hk, if_pos hb]
      exact ⟨rfl, hnode, hg.guarded, _, hm⟩
    · rw [if_neg hk, if_neg hb]
      cases hw : (nodeOf s i).writei off 16 (fun _ => 0) with
      | none =>
        rw [hw] at hok
        cases hok
      | some d' =>
        rw [hw] at hok
        cases hok
        rw [Node.writei] at hw
        split_ifs at hw with hbad
        obtain ⟨hoff, hmax⟩ := not_or.mp hbad
        change ¬ 71680 < off + 16 at hmax
        have hnat : (UInt32.ofNat off).toNat = off := by
          rw [UInt32.toNat_ofNat']
          omega
        have hend : off + 16 ≤ (nodeOf s i).size := by
          rw [h.dir.dirlookup_eq_find] at hl
          obtain ⟨⟨k', j⟩, hj, he⟩ := Option.map_eq_some_iff.mp (Except.ok.inj hl)
          cases he
          have hlt := (List.getElem?_eq_some_iff.mp (h.dir.distinct.find_eq_some.mp hj)).1
          rw [Node.length_slots] at hlt
          omega
        have hroom' : ¬ t.freeCount sb < t.vacant i (writeSlots (UInt32.ofNat off).toNat 16) := by
          rw [hnat]
          exact hroom.after hg hK (writeSlots_sub hend)
        refine wp_seq (wp_writeEntry hg.guarded hm hdir (by rw [hnode, hnat]; omega)
          (by rw [hnat]; exact Nat.not_lt.mp hmax) hroom'
          (fun u d₀ hd hu hgu hmu => ?_))
        rw [hnode, hnat, Node.writei, if_neg hbad, hw] at hd
        cases hd
        rw [if_neg (by decide)]
        exact ⟨rfl, hu, hgu, hmu⟩

end Holds

end Simulation

section Runs

inductive Op
  | link (name : Mem) (inum : ℕ)
  | unlink (name : Mem) (busy : Bool)

def Op.name : Op → Mem
  | .link name _ => name
  | .unlink name _ => name

def Op.code (dp : ℕ) : Op → Code ℤ
  | .link name inum => dirlink dp name inum
  | .unlink name busy => Names.unlink dp name busy

def Node.perform (self : ℕ) (dp : Node) : Op → Except Stop (ℤ × Node)
  | .link name inum => dp.dirlink self name inum
  | .unlink name busy => dp.unlink self name busy

def Node.Foreign (self : ℕ) (dp : Node) (name : Mem) : Prop := (dp.find (key name 0)).map Prod.fst ≠ some self

def Node.extent (dp : Node) : Op → ℕ
  | .link name _ => if dp.find (key name 0) = none ∧ ∀ j < dp.size / 16, dp.slot j ≠ none then dp.size + 16 else dp.size
  | .unlink _ _ => dp.size

def Node.Takes (dp : Node) : Op → Prop
  | .link _ inum => 1 ≤ inum ∧ inum ≤ 65535 ∧ dp.size < MAXSIZE
  | .unlink _ _ => True

def Admits (sb : Superblock) (dp : ℕ) (s : Blocks.State) (o : Op) : Prop :=
  (nodeOf s dp).Foreign dp o.name ∧ (nodeOf s dp).Takes o ∧ Room sb dp ((nodeOf s dp).extent o) s

instance (dp : Node) : (o : Op) → Decidable (dp.Takes o)
  | .link _ inum => inferInstanceAs (Decidable (1 ≤ inum ∧ inum ≤ 65535 ∧ dp.size < MAXSIZE))
  | .unlink _ _ => inferInstanceAs (Decidable True)

instance (sb : Superblock) (dp : ℕ) (s : Blocks.State) (o : Op) : Decidable (Admits sb dp s o) :=
  inferInstanceAs (Decidable (_ ≠ _ ∧ _ ∧ _ ≤ _))

variable {sb : Superblock} {i : ℕ} {s t : Blocks.State} {dp : Node}

theorem Node.Foreign.ne {name : Mem} {k off : ℕ} (h : dp.Foreign i name) (hf : dp.find (key name 0) = some (k, off)) : k ≠ i := by
  rintro rfl
  exact h (by rw [hf]; rfl)

theorem Node.Dir.perform (h : dp.Dir) {o : Op} (hf : dp.Foreign i o.name) (ht : dp.Takes o) :
    ∃ r dq, dp.perform i o = .ok (r, dq) ∧ dq.Dir := by
  cases o with
  | link name inum =>
    cases hb : dp.find (key name 0) with
    | none =>
      obtain ⟨dq, he, hl⟩ := h.dirlink_free i hb ht.1 ht.2.1 ht.2.2
      exact ⟨0, dq, he, hl.dir⟩
    | some e => exact ⟨-1, dp, h.dirlink_bound hb (hf.ne hb) inum, h⟩
  | unlink name busy =>
    by_cases hdot : namecmp name dot 0 = 0 ∨ namecmp name dotdot 0 = 0
    · exact ⟨-1, dp, if_pos hdot, h⟩
    · cases hb : dp.find (key name 0) with
      | none =>
        refine ⟨-1, dp, ?_, h⟩
        rw [Node.perform, Node.unlink, if_neg hdot, h.dirlookup_eq_find, hb]
      | some e =>
        cases busy with
        | true =>
          refine ⟨-1, dp, ?_, h⟩
          rw [Node.perform, Node.unlink, if_neg hdot, h.dirlookup_eq_find, hb]
          dsimp only
          rw [if_neg (hf.ne hb), if_pos rfl]
        | false =>
          rw [namecmp_eq_zero, namecmp_eq_zero, not_or] at hdot
          obtain ⟨dq, he, hu⟩ := h.unlink_bound hb (hf.ne hb) hdot.1 hdot.2
          exact ⟨0, dq, he, hu.dir⟩

theorem Node.Dir.slot_ne_none (h : dp.Dir) (hf : dp.freeEntry (dp.size / 16 + 1) 0 = .ok dp.size) :
    ∀ j < dp.size / 16, dp.slot j ≠ none := by
  intro j hj hnone
  have hlt : SlotMap.firstFree dp.slots < dp.slots.length := by
    refine List.findIdx_lt_length_of_exists ⟨none, List.mem_of_getElem? (i := j) ?_, rfl⟩
    rw [Node.getElem?_slots, if_pos hj, hnone]
  rw [Node.freeEntry_slots h.whole] at hf
  rw [Node.length_slots] at hlt
  have heq := Except.ok.inj hf
  omega

theorem Room.mono {m n : ℕ} (h : Room sb i n s) (hle : m ≤ n) : Room sb i m s := by
  have hsub : writeSlots 0 m ⊆ writeSlots 0 n := writeSlots_sub (by omega)
  exact (vacant_mono hsub).trans h

theorem Node.size_le_extent (dp : Node) (o : Op) : dp.size ≤ dp.extent o := by
  cases o with
  | link name inum =>
    rw [extent]
    split_ifs <;> omega
  | unlink name busy => exact le_refl _

theorem Holds.run (h : Holds sb i s) {o : Op} (ha : Admits sb i s o) : ∃ r t, Command.run (exec sb) (o.code i) s = .ok (r, t) ∧
    (nodeOf s i).perform i o = .ok (r, nodeOf t i) ∧ Holds sb i t := by
  obtain ⟨hf, ht, hroom⟩ := ha
  obtain ⟨r, d, hp, hd⟩ := h.dir.perform hf ht
  have hsize := hroom.mono ((nodeOf s i).size_le_extent o)
  have hwp : wp (safe sb (fun _ => False)) (o.code i) s
      (fun a t => a = r ∧ nodeOf t i = d ∧ Guarded sb i t ∧ ∃ ip, t.mem i = some ip) := by
    cases o with
    | link name inum =>
      refine h.wp_dirlink hp hsize (fun hl hfree => ?_)
      have hnone : (nodeOf s i).find (key name 0) = none := by
        rw [h.dir.dirlookup_eq_find] at hl
        exact Except.ok.inj hl
      rwa [Node.extent, if_pos ⟨hnone, h.dir.slot_ne_none hfree⟩] at hroom
    | unlink name busy => exact h.wp_unlink hp hsize
  obtain ⟨a, t, hrun, rfl, rfl, hg, hm⟩ := run_of_safe hwp
  exact ⟨a, t, hrun, hp, hg, hm, hd⟩

def emptyDir (bits : UInt8) : Blocks.State where
  block b _ := if b = 1 then bits else 0
  dinode j := if j = 1 then { type := .dir, nlink := 1 } else {}
  mem j := if j = 1 then some { type := .dir, nlink := 1 } else none
  devsw _ := ⟨none, none⟩

def letter (c : UInt8) : Mem := fun k => if k = 0 then c else 0

end Runs

end EnhancedXv6.Names
