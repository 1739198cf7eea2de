
import EnhancedXv6.Bytes

namespace EnhancedXv6.Memmove

open Function (update update_of_ne update_self)
open Bytes

def shift (p n : ℕ) : ℕ := (p + n) % 0x100000000

def back (p : ℕ) : ℕ := if p = 0 then 0xFFFFFFFF else p - 1

def forward : ℕ → Mem → ℕ → ℕ → Mem
  | 0, m, _, _ => m
  | n + 1, m, d, s => forward n (Function.update m d (m s)) (shift d 1) (shift s 1)

def backward : ℕ → Mem → ℕ → ℕ → Mem
  | 0, m, _, _ => m
  | n + 1, m, d, s => backward n (Function.update m (back d) (m (back s))) (back d) (back s)

def Kernel.memmove (m : Mem) (dst src n : ℕ) : Mem × ℕ :=
  if src < dst ∧ shift src n > dst then (backward n m (shift dst n) (shift src n), dst)
  else (forward n m dst src, dst)

/-- The function of `ulib.c`, where `n` is an `int`. -/
def Ulib.memmove (m : Mem) (dst src : ℕ) (n : ℤ) : Mem × ℕ := (forward n.toNat m dst src, dst)

structure Moved (m : Mem) (dst src n : ℕ) (m' : Mem) : Prop where
  copied : ∀ i < n, m' (dst + i) = m (src + i)
  rest : ∀ a, a < dst ∨ dst + n ≤ a → m' a = m a

namespace Moved

variable {m m₁ m₂ : Mem} {d s n : ℕ}

theorem refl (m : Mem) (d s : ℕ) : Moved m d s 0 m := ⟨fun _ hi => absurd hi (Nat.not_lt_zero _), fun _ _ => rfl⟩

theorem unique (h₁ : Moved m d s n m₁) (h₂ : Moved m d s n m₂) : m₁ = m₂ := by
  funext a
  by_cases ha : d ≤ a ∧ a < d + n
  · obtain ⟨i, rfl⟩ := Nat.exists_eq_add_of_le ha.1
    rw [h₁.copied i (by omega), h₂.copied i (by omega)]
  · rw [h₁.rest a (by omega), h₂.rest a (by omega)]

end Moved

variable {m : Mem} {d s n : ℕ}

theorem forward_succ (hd : d + (n + 1) ≤ 0x100000000) (hs : s + (n + 1) ≤ 0x100000000) :
    forward (n + 1) m d s = forward n (update m d (m s)) (d + 1) (s + 1) := by
  cases n with
  | zero => rfl
  | succ n => rw [forward, shift, shift, Nat.mod_eq_of_lt (by omega), Nat.mod_eq_of_lt (by omega)]

theorem forward_moved (hd : d + n ≤ 0x100000000) (hs : s + n ≤ 0x100000000) (ho : ¬ (s < d ∧ d < s + n)) : Moved m d s n (forward n m d s) := by
  induction n generalizing m d s with
  | zero => exact .refl m d s
  | succ n ih =>
    have hm := ih (m := update m d (m s)) (d := d + 1) (s := s + 1) (by omega) (by omega) (by omega)
    rw [forward_succ hd hs]
    constructor
    · intro i hi
      cases i with
      | zero => rw [hm.rest _ (by omega), Nat.add_zero, Nat.add_zero, update_self]
      | succ i =>
        have hi' := hm.copied i (by omega)
        rwa [update_of_ne (by omega), Nat.add_assoc, Nat.add_assoc, Nat.add_comm 1 i] at hi'
    · intro a ha
      rw [hm.rest a (by omega), update_of_ne (by omega)]

theorem forward_repeats (hd : d + n ≤ 0x100000000) (ho : s < d) :
    (∀ i < n, forward n m d s (d + i) = m (s + i % (d - s))) ∧ ∀ a < d, forward n m d s a = m a := by
  induction n generalizing m d s with
  | zero => exact ⟨fun i hi => absurd hi (Nat.not_lt_zero i), fun a _ => rfl⟩
  | succ n ih =>
    obtain ⟨hcopy, hrest⟩ := ih (m := update m d (m s)) (d := d + 1) (s := s + 1) (by omega) (by omega)
    rw [forward_succ hd (by omega)]
    constructor
    · intro i hi
      cases i with
      | zero => rw [hrest _ (by omega), Nat.add_zero, Nat.zero_mod, Nat.add_zero, update_self]
      | succ i =>
        have hi' := hcopy i (by omega)
        rw [show d + 1 + i = d + (i + 1) by omega, show d + 1 - (s + 1) = d - s by omega] at hi'
        have hlt : i % (d - s) < d - s := Nat.mod_lt i (by omega)
        rw [hi', ← Nat.mod_add_mod]
        -- the byte at `d` is the one that has just been written
        by_cases hlast : i % (d - s) + 1 = d - s
        · rw [hlast, Nat.mod_self, show s + 1 + i % (d - s) = d by omega, Nat.add_zero, update_self]
        · rw [Nat.mod_eq_of_lt (show i % (d - s) + 1 < d - s by omega), update_of_ne (by omega), Nat.add_assoc,
            Nat.add_comm 1]
    · intro a ha
      rw [hrest a (by omega), update_of_ne (by omega)]

theorem backward_moved (hd : d + n ≤ 0x100000000) (hs : s + n ≤ 0x100000000) (ho : s ≤ d) :
    Moved m d s n (backward n m (shift d n) (shift s n)) := by
  induction n generalizing m with
  | zero => exact .refl m d s
  | succ n ih =>
    have hback : ∀ p, p + (n + 1) ≤ 0x100000000 → back (shift p (n + 1)) = p + n := by
      intro p hp
      unfold back shift
      split_ifs <;> omega
    have hm := ih (m := update m (d + n) (m (s + n))) (by omega) (by omega)
    rw [shift, shift, Nat.mod_eq_of_lt (show d + n < 0x100000000 by omega), Nat.mod_eq_of_lt (show s + n < 0x100000000 by omega)] at hm
    rw [backward, hback d hd, hback s hs]
    generalize backward n _ _ _ = m' at hm ⊢
    constructor
    · intro i hi
      rcases Nat.lt_succ_iff_lt_or_eq.mp hi with hi | rfl
      · rw [hm.copied i hi, update_of_ne (by omega)]
      · rw [hm.rest _ (by omega), update_self]
    · intro a ha
      rw [hm.rest a (by omega), update_of_ne (by omega)]

theorem kernel_moved (hd : d + n ≤ 0x100000000) (hs : s + n ≤ 0x100000000) : Moved m d s n (Kernel.memmove m d s n).1 := by
  unfold Kernel.memmove
  by_cases hc : s < d ∧ shift s n > d
  · rw [if_pos hc]
    exact backward_moved hd hs (Nat.le_of_lt hc.1)
  · rw [if_neg hc]
    refine forward_moved hd hs ?_
    rintro ⟨hlt, hin⟩
    refine hc ⟨hlt, ?_⟩
    rw [shift, Nat.mod_eq_of_lt (by omega)]
    exact hin

theorem kernel_returns (m : Mem) (d s n : ℕ) : (Kernel.memmove m d s n).2 = d := by
  unfold Kernel.memmove
  split_ifs <;> rfl

theorem memmove_eq (hd : d + n ≤ 0x100000000) (hs : s + n ≤ 0x100000000) (ho : ¬ (s < d ∧ d < s + n)) :
    Ulib.memmove m d s n = Kernel.memmove m d s n ∧ Moved m d s n (Ulib.memmove m d s n).1 := by
  have hulib : Moved m d s n (Ulib.memmove m d s n).1 := forward_moved hd hs ho
  refine ⟨Prod.ext (hulib.unique (kernel_moved hd hs)) ?_, hulib⟩
  rw [kernel_returns]
  rfl

theorem memmove_differ (hd : d + n ≤ 0x100000000) (ho : s < d ∧ d < s + n) :
    ∃ m, Ulib.memmove m d s n ≠ Kernel.memmove m d s n := by
  obtain ⟨m, h1, h0⟩ : ∃ m : Mem, m s = 1 ∧ ∀ a, a ≠ s → m a = 0 :=
    ⟨fun a => if a = s then 1 else 0, if_pos rfl, fun a ha => if_neg ha⟩
  refine ⟨m, fun he => ?_⟩
  have hk := (kernel_moved (m := m) hd (show s + n ≤ 0x100000000 by omega)).copied (d - s) (by omega)
  have hu := (forward_repeats (m := m) hd ho.1).1 (d - s) (by omega)
  change (Ulib.memmove m d s n).1 _ = _ at hu
  rw [he, hk, Nat.mod_self, Nat.add_zero, h1, h0 _ (by omega)] at hu
  cases hu

theorem memmove_agree (d s n : ℕ) (hd : d + n ≤ 0x100000000) (hs : s + n ≤ 0x100000000) :
    (∀ m, Ulib.memmove m d s n = Kernel.memmove m d s n ∧ Moved m d s n (Ulib.memmove m d s n).1) ↔
      ¬ (s < d ∧ d < s + n) := by
  constructor
  · intro h ho
    obtain ⟨m, hne⟩ := memmove_differ hd ho
    exact hne (h m).1
  · intro ho m
    exact memmove_eq hd hs ho

theorem memmove_agree_down : Ulib.memmove (fun a => UInt8.ofNat a) 100 101 2 =
      Kernel.memmove (fun a => UInt8.ofNat a) 100 101 2 ∧
    Moved (fun a => UInt8.ofNat a) 100 101 2 (Ulib.memmove (fun a => UInt8.ofNat a) 100 101 2).1 :=
  (memmove_agree 100 101 2 (by decide) (by decide)).mpr (by decide) _

theorem memmove_up_one : (Ulib.memmove (fun a => UInt8.ofNat a) 101 100 2).1 102 = 100 ∧
    (Kernel.memmove (fun a => UInt8.ofNat a) 101 100 2).1 102 = 101 := by decide

end EnhancedXv6.Memmove
