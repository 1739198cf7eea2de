import EnhancedXv6.Blocks
import EnhancedXv6.Ownership

namespace EnhancedXv6.Blocks

open Command Bytes Fs Ownership

def slot (block : ℕ → Mem) (ip : Inode) (k : ℕ) : ℕ :=
  if k ≤ NDIRECT then (ip.addrs k).toNat
  else if k ≤ MAXFILE ∧ ip.addrs NDIRECT ≠ 0 then (word (block (ip.addrs NDIRECT).toNat) (k - NDIRECT - 1)).toNat
  else 0

namespace State

def cur (s : State) (i : ℕ) : Inode := (s.mem i).getD (s.dinode i)

def slot (s : State) (i k : ℕ) : ℕ := Blocks.slot s.block (s.cur i) k

def refs (s : State) (x : ℕ × ℕ) : Option ℕ :=
  if (s.cur x.1).type = .free ∨ s.slot x.1 x.2 = 0 then none else some (s.slot x.1 x.2)

end State

structure Sound (sb : Superblock) (s : State) : Prop where
  bitmap : ∀ b < sb.size, s.bit sb b = true ↔ b < sb.nmeta ∨ ∃ x, s.refs x = some b
  once : ∀ x y b, s.refs x = some b → s.refs y = some b → x = y
  data : ∀ x b, s.refs x = some b → sb.nmeta ≤ b ∧ b < sb.size

def State.InUse (s : State) (sb : Superblock) (b : ℕ) : Prop := b < sb.nmeta ∨ ∃ x, s.refs x = some b

variable {sb : Superblock} {s t : State} {i j k b c : ℕ} {ip : Inode}

namespace Superblock

theorem bblock_lt (h : b < sb.size) : sb.bblock b < sb.nmeta := sb.bmap_lt b h

theorem toNat_ofNat (h : b < sb.size) : (UInt32.ofNat b).toNat = b := by
  have := sb.size_lt
  rw [UInt32.toNat_ofNat', Nat.mod_eq_of_lt (by omega)]

end Superblock

section Bitmap

theorem bit_mark (s : State) (sb : Superblock) (b c : ℕ) :
    (s.setBlock (sb.bblock b) (setBit (s.block (sb.bblock b)) (b % BPB))).bit sb c = (s.bit sb c || decide (b = c)) := by
  unfold State.bit
  by_cases h : sb.bblock c = sb.bblock b
  · rw [h, State.setBlock_self, bit_setBit]
    congr 1
    rw [decide_eq_decide]
    unfold Superblock.bblock at h
    simp only [BPB, BSIZE] at h ⊢
    omega
  · have hne : b ≠ c := fun he => h (by rw [he])
    rw [State.setBlock_of_ne _ _ h]
    simp [hne]

theorem bit_unmark (s : State) (sb : Superblock) (b c : ℕ) :
    (s.setBlock (sb.bblock b) (clearBit (s.block (sb.bblock b)) (b % BPB))).bit sb c = (s.bit sb c && decide (b ≠ c)) := by
  unfold State.bit
  by_cases h : sb.bblock c = sb.bblock b
  · rw [h, State.setBlock_self, bit_clearBit]
    congr 1
    rw [decide_eq_decide]
    unfold Superblock.bblock at h
    simp only [BPB, BSIZE] at h ⊢
    omega
  · have hne : b ≠ c := fun he => h (by rw [he])
    rw [State.setBlock_of_ne _ _ h]
    simp [hne]

theorem bit_setBlock (s : State) {d : Mem} (hc : c < sb.size) (hb : sb.nmeta ≤ b) : (s.setBlock b d).bit sb c = s.bit sb c := by
  have hne : sb.bblock c ≠ b := by
    have := sb.bblock_lt hc
    omega
  rw [State.bit, State.setBlock_of_ne _ _ hne]
  rfl

theorem scan_eq_some (h : s.scan sb (k * BPB) = some b) : b < sb.size ∧ s.bit sb b = false := by
  obtain ⟨bi, hfind, rfl⟩ := Option.map_eq_some_iff.mp h
  have hbi := List.mem_range.mp (List.mem_of_find?_eq_some hfind)
  have hp := List.find?_some hfind
  simp only [Bool.and_eq_true, decide_eq_true_eq, Bool.not_eq_true'] at hp
  refine ⟨hp.1, ?_⟩
  have hblock : sb.bblock (k * BPB + bi) = sb.bblock (k * BPB) := by
    simp only [Superblock.bblock, BPB, BSIZE] at hbi ⊢
    omega
  have hmod : (k * BPB + bi) % BPB = bi := by
    simp only [BPB, BSIZE] at hbi ⊢
    omega
  rw [State.bit, hblock, hmod]
  exact hp.2

theorem findFree_eq_some (h : s.findFree sb = some b) : b < sb.size ∧ s.bit sb b = false := by
  obtain ⟨k, -, hk⟩ := List.exists_of_findSome?_eq_some h
  exact scan_eq_some hk

theorem findFree_eq_none (h : s.findFree sb = none) (hb : b < sb.size) : s.bit sb b = true := by
  rw [State.findFree, List.findSome?_eq_none_iff] at h
  have hscan := h (b / BPB) (List.mem_range.mpr (by simp only [BPB, BSIZE]; omega))
  rw [State.scan, Option.map_eq_none_iff, List.find?_eq_none] at hscan
  have hbit := hscan (b % BPB) (List.mem_range.mpr (Nat.mod_lt b (by decide)))
  have hadd : b / BPB * BPB + b % BPB = b := Nat.div_add_mod' b BPB
  have hblock : sb.bblock (b / BPB * BPB) = sb.bblock b := by
    simp only [Superblock.bblock, BPB, BSIZE]
    omega
  simpa [hadd, hb, hblock, State.bit] using hbit

end Bitmap

namespace Sound

theorem exact (h : Sound sb s) : Exact {b | sb.nmeta ≤ b ∧ b < sb.size} {b | s.bit sb b = true} s.refs where
  mem hx := h.data _ _ hx
  inj hx hy := h.once _ _ _ hx hy
  used_iff := by
    rintro b ⟨hm, hb⟩
    have hiff := h.bitmap b hb
    rw [or_iff_right (by omega)] at hiff
    exact hiff

theorem of_exact (h : Exact {b | sb.nmeta ≤ b ∧ b < sb.size} {b | s.bit sb b = true} s.refs)
    (hm : ∀ b < sb.nmeta, s.bit sb b = true) : Sound sb s where
  bitmap b hb := by
    by_cases hlt : b < sb.nmeta
    · simp [hm b hlt, hlt]
    · have hiff := h.used_iff (b := b) ⟨by omega, hb⟩
      rw [or_iff_right hlt]
      exact hiff
  once _ _ _ hx hy := h.inj hx hy
  data _ _ hx := h.mem hx

end Sound

end EnhancedXv6.Blocks
