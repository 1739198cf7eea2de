import Mathlib.Data.Nat.Bitwise
import Mathlib.Tactic.IntervalCases

namespace Bytes

abbrev Mem := ℕ → UInt8

def mask (k : ℕ) : UInt8 := 1 <<< UInt8.ofNat k

theorem toNat_mask {k : ℕ} (hk : k < 8) : (mask k).toNat = 2 ^ k := by
  interval_cases k <;> rfl

theorem and_mask_eq_zero {k : ℕ} (x : UInt8) (hk : k < 8) : x &&& mask k = 0 ↔ x.toNat.testBit k = false := by
  rw [← UInt8.toNat_inj, UInt8.toNat_and, toNat_mask hk, Nat.and_two_pow]
  simp

theorem testBit_or_mask {k : ℕ} (x : UInt8) (hk : k < 8) (j : ℕ) :
    (x ||| mask k).toNat.testBit j = (x.toNat.testBit j || decide (k = j)) := by
  rw [UInt8.toNat_or, toNat_mask hk, Nat.testBit_or, Nat.testBit_two_pow]

theorem testBit_and_not_mask {k j : ℕ} (x : UInt8) (hk : k < 8) (hj : j < 8) :
    (x &&& ~~~ mask k).toNat.testBit j = (x.toNat.testBit j && decide (k ≠ j)) := by
  have hlt : 2 ^ k < 2 ^ 8 := Nat.pow_lt_pow_right (by omega) hk
  have hnot : (~~~ mask k).toNat = 2 ^ 8 - (2 ^ k + 1) := by
    rw [UInt8.toNat_not, toNat_mask hk]
    simp [UInt8.size]
  rw [UInt8.toNat_and, hnot, Nat.testBit_and, Nat.testBit_two_pow_sub_succ hlt, Nat.testBit_two_pow]
  simp [hj]

def bit (d : Mem) (n : ℕ) : Bool := d (n / 8) &&& mask (n % 8) ≠ 0

def setBit (d : Mem) (n : ℕ) : Mem := Function.update d (n / 8) (d (n / 8) ||| mask (n % 8))

def clearBit (d : Mem) (n : ℕ) : Mem := Function.update d (n / 8) (d (n / 8) &&& ~~~ mask (n % 8))

theorem bit_eq (d : Mem) (n : ℕ) : bit d n = (d (n / 8)).toNat.testBit (n % 8) := by
  have h := and_mask_eq_zero (d (n / 8)) (Nat.mod_lt n (by decide : 0 < 8))
  unfold bit
  cases ht : (d (n / 8)).toNat.testBit (n % 8) <;> simp [h, ht]

theorem bit_setBit (d : Mem) (n m : ℕ) : bit (setBit d n) m = (bit d m || decide (n = m)) := by
  rw [bit_eq, bit_eq, setBit, Function.update_apply]
  split_ifs with h
  · rw [testBit_or_mask _ (Nat.mod_lt n (by decide)), h]
    congr 1
    rw [decide_eq_decide]
    omega
  · have hne : n ≠ m := fun he => h (by rw [he])
    simp [hne]

theorem bit_clearBit (d : Mem) (n m : ℕ) : bit (clearBit d n) m = (bit d m && decide (n ≠ m)) := by
  rw [bit_eq, bit_eq, clearBit, Function.update_apply]
  split_ifs with h
  · rw [testBit_and_not_mask _ (Nat.mod_lt n (by decide)) (Nat.mod_lt m (by decide)), h]
    congr 1
    rw [decide_eq_decide]
    omega
  · have hne : n ≠ m := fun he => h (by rw [he])
    simp [hne]

def word (d : Mem) (j : ℕ) : UInt32 :=
  UInt32.ofNat ((d (4 * j)).toNat + 256 * ((d (4 * j + 1)).toNat + 256 * ((d (4 * j + 2)).toNat + 256 * (d (4 * j + 3)).toNat)))

def setWord (d : Mem) (j : ℕ) (v : UInt32) : Mem := fun k =>
  if k / 4 = j then UInt8.ofNat (v.toNat / 256 ^ (k % 4)) else d k

theorem word_setWord_self (d : Mem) (j : ℕ) (v : UInt32) : word (setWord d j v) j = v := by
  have hv := v.toNat_lt
  rw [← UInt32.toNat_inj]
  unfold word setWord
  rw [if_pos (by omega), if_pos (by omega), if_pos (by omega), if_pos (by omega)]
  have h0 : 4 * j % 4 = 0 := by omega
  have h1 : (4 * j + 1) % 4 = 1 := by omega
  have h2 : (4 * j + 2) % 4 = 2 := by omega
  have h3 : (4 * j + 3) % 4 = 3 := by omega
  simp only [h0, h1, h2, h3, UInt8.toNat_ofNat', UInt32.toNat_ofNat', Nat.reducePow]
  omega

theorem word_setWord_of_ne (d : Mem) {i j : ℕ} (h : i ≠ j) (v : UInt32) : word (setWord d j v) i = word d i := by
  unfold word setWord
  rw [if_neg (by omega), if_neg (by omega), if_neg (by omega), if_neg (by omega)]

theorem word_zero (j : ℕ) : word (fun _ => 0) j = 0 := rfl

def setWords (d : Mem) (j : ℕ) (v : ℕ → UInt32) : ℕ → Mem
  | 0 => d
  | n + 1 => setWord (setWords d j v n) (j + n) (v n)

theorem word_setWords (d : Mem) (j : ℕ) (v : ℕ → UInt32) (n i : ℕ) :
    word (setWords d j v n) i = if j ≤ i ∧ i < j + n then v (i - j) else word d i := by
  induction n with
  | zero => rw [setWords, if_neg (by omega)]
  | succ n ih =>
    rw [setWords]
    by_cases hi : i = j + n
    · subst hi
      rw [word_setWord_self, if_pos (by omega), Nat.add_sub_cancel_left]
    · rw [word_setWord_of_ne _ hi, ih]
      by_cases hr : j ≤ i ∧ i < j + n
      · rw [if_pos hr, if_pos (by omega)]
      · rw [if_neg hr, if_neg (by omega)]

def splice (d : Mem) (start m : ℕ) (src : Mem) : Mem := fun k =>
  if start ≤ k ∧ k < start + m then src (k - start) else d k

theorem map_range_overwrite {α : Type} {f g src : ℕ → α} {N off n : ℕ} (hoff : off ≤ N)
    (hg : ∀ x, g x = if off ≤ x ∧ x < off + n then src (x - off) else f x) :
    (List.range (max N (off + n))).map g =
      ((List.range N).map f).take off ++ (List.range n).map src ++ ((List.range N).map f).drop (off + n) := by
  apply List.ext_getElem
  · simp only [List.length_map, List.length_range, List.length_append, List.length_take, List.length_drop]
    omega
  · intro x h1 h2
    simp only [List.getElem_append, List.length_append, List.length_take, List.length_map, List.length_range, List.getElem_map,
      List.getElem_range, List.getElem_take, List.getElem_drop, Nat.min_eq_left hoff, hg]
    by_cases hx : x < off
    · rw [if_neg (by omega), dif_pos (by omega), dif_pos hx]
    · by_cases hn : x < off + n
      · rw [if_pos (by omega), dif_pos hn, dif_neg hx]
      · rw [if_neg (by omega), dif_neg hn]
        congr 1
        omega

end Bytes
