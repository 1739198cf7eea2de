import EnhancedXv6.Bytes
import Mathlib.Data.List.Basic

namespace Segments

variable {α : Type*} [DecidableEq α]

def ended (sep : α) (xs : List α) : List (List α) := (xs.splitOn sep).dropLast

def rest (sep : α) (xs : List α) : List α := (xs.splitOn sep).getLastD []

variable {sep : α} {xs ys : List α}

theorem ended_of_notMem (h : sep ∉ xs) : ended sep xs = [] := by
  rw [ended, List.splitOn_eq_singleton h]
  rfl

theorem rest_of_notMem (h : sep ∉ xs) : rest sep xs = xs := by
  rw [rest, List.splitOn_eq_singleton h]
  rfl

theorem ended_append_cons (h : sep ∉ xs) (ys : List α) : ended sep (xs ++ sep :: ys) = xs :: ended sep ys := by
  rw [ended, List.splitOn_append_cons_self_of_not_mem h, List.dropLast_cons_of_ne_nil (List.splitOn_ne_nil sep ys)]
  rfl

theorem rest_append_cons (h : sep ∉ xs) (ys : List α) : rest sep (xs ++ sep :: ys) = rest sep ys := by
  rw [rest, rest, List.splitOn_append_cons_self_of_not_mem h]
  cases hs : ys.splitOn sep with
  | nil => exact absurd hs (List.splitOn_ne_nil sep ys)
  | cons y zs => rfl

theorem separator_induction (sep : α) {motive : List α → Prop} (last : ∀ xs, sep ∉ xs → motive xs)
    (next : ∀ xs ys, sep ∉ xs → motive ys → motive (xs ++ sep :: ys)) (xs : List α) : motive xs := by
  by_cases h : sep ∈ xs
  · obtain ⟨l, ys, he, hl⟩ := List.eq_append_cons_of_mem h
    have hlen : ys.length < xs.length := by
      rw [he, List.length_append, List.length_cons]
      omega
    rw [he]
    exact next l ys hl (separator_induction sep last next ys)
  · exact last xs h
termination_by xs.length

theorem ended_append (xs ys : List α) : ended sep (xs ++ ys) = ended sep xs ++ ended sep (rest sep xs ++ ys) := by
  induction xs using separator_induction sep with
  | last xs h => rw [ended_of_notMem h, rest_of_notMem h, List.nil_append]
  | next xs zs h ih =>
    rw [List.append_assoc, List.cons_append, ended_append_cons h, ended_append_cons h, rest_append_cons h, ih, List.cons_append]

theorem rest_append_of_mem (h : sep ∈ ys) (xs : List α) : rest sep (xs ++ ys) = rest sep ys := by
  induction xs using separator_induction sep with
  | last xs hx =>
    obtain ⟨l, zs, rfl, hl⟩ := List.eq_append_cons_of_mem h
    have hxl : sep ∉ xs ++ l := fun hm => (List.mem_append.mp hm).elim hx hl
    rw [← List.append_assoc, rest_append_cons hxl, rest_append_cons hl]
  | next xs zs hx ih => rw [List.append_assoc, List.cons_append, rest_append_cons hx, ih]

theorem notMem_rest (sep : α) (xs : List α) : sep ∉ rest sep xs := by
  induction xs using separator_induction sep with
  | last xs h => rwa [rest_of_notMem h]
  | next xs ys h ih => rwa [rest_append_cons h]

theorem rest_suffix (sep : α) (xs : List α) : rest sep xs <:+ xs := by
  induction xs using separator_induction sep with
  | last xs h => exact ⟨[], by rw [rest_of_notMem h, List.nil_append]⟩
  | next xs ys h ih =>
    rw [rest_append_cons h]
    exact ih.trans ⟨xs ++ [sep], by simp⟩

theorem length_rest_lt (h : sep ∈ xs) : (rest sep xs).length < xs.length := by
  obtain ⟨l, ys, rfl, hl⟩ := List.eq_append_cons_of_mem h
  have hle := (rest_suffix sep ys).length_le
  rw [rest_append_cons hl, List.length_append, List.length_cons]
  omega

end Segments

namespace Bytes

def Holds (d : Mem) : ℕ → List UInt8 → Prop
  | _, [] => True
  | p, x :: xs => d p = x ∧ Holds d (p + 1) xs

def slice (d : Mem) : ℕ → ℕ → List UInt8
  | _, 0 => []
  | p, n + 1 => d p :: slice d (p + 1) n

def cString (d : Mem) : ℕ → ℕ → List UInt8
  | 0, _ => []
  | n + 1, p => if d p = 0 then [] else d p :: cString d n (p + 1)

section Holds

variable {d e : Mem} {p n : ℕ} {xs ys : List UInt8}

theorem holds_append : Holds d p (xs ++ ys) ↔ Holds d p xs ∧ Holds d (p + xs.length) ys := by
  induction xs generalizing p with
  | nil => exact ⟨fun h => ⟨trivial, h⟩, fun h => h.2⟩
  | cons x xs ih =>
    have he : p + (x :: xs).length = p + 1 + xs.length := by
      rw [List.length_cons]
      omega
    rw [List.cons_append, Holds, Holds, ih, he, and_assoc]

theorem Holds.congr (h : Holds d p xs) (he : ∀ k, p ≤ k → k < p + xs.length → e k = d k) : Holds e p xs := by
  induction xs generalizing p with
  | nil => trivial
  | cons x xs ih =>
    rw [List.length_cons] at he
    constructor
    · rw [he p le_rfl (by omega)]
      exact h.1
    · apply ih h.2
      intro k hk hk'
      exact he k (by omega) (by omega)

theorem Holds.update (h : Holds d p xs) {q : ℕ} (hq : q < p ∨ p + xs.length ≤ q) (v : UInt8) : Holds (Function.update d q v) p xs := by
  apply h.congr
  intro k hk hk'
  have hne : k ≠ q := by omega
  exact Function.update_of_ne hne v d

theorem Holds.move (h : Holds d p xs) {q : ℕ} (he : ∀ i < xs.length, e (q + i) = d (p + i)) : Holds e q xs := by
  induction xs generalizing p q with
  | nil => trivial
  | cons x xs ih =>
    constructor
    · exact (he 0 (Nat.succ_pos _)).trans h.1
    · apply ih h.2
      intro i hi
      have hi' := he (i + 1) (Nat.succ_lt_succ hi)
      rwa [show q + 1 + i = q + (i + 1) by omega, show p + 1 + i = p + (i + 1) by omega]

theorem Holds.slice_eq (h : Holds d p xs) : slice d p xs.length = xs := by
  induction xs generalizing p with
  | nil => rfl
  | cons x xs ih =>
    rw [List.length_cons, slice, h.1, ih h.2]

theorem Holds.cString_eq (h : Holds d p (xs ++ [0])) (h0 : 0 ∉ xs) (hn : xs.length < n) : cString d n p = xs := by
  induction xs generalizing p n with
  | nil =>
    cases n with
    | zero => rfl
    | succ n => exact if_pos h.1
  | cons x xs ih =>
    obtain ⟨hx, h0⟩ := List.ne_and_not_mem_of_not_mem_cons h0
    cases n with
    | zero => exact absurd hn (Nat.not_lt_zero _)
    | succ n =>
      rw [cString, h.1, if_neg (Ne.symm hx), ih h.2 h0 (Nat.lt_of_succ_lt_succ hn)]

theorem cString_congr {q : ℕ} (h : ∀ k < n, e (q + k) = d (p + k)) : cString e n q = cString d n p := by
  induction n generalizing p q with
  | zero => rfl
  | succ n ih =>
    have hnext : cString e n (q + 1) = cString d n (p + 1) := by
      apply ih
      intro k hk
      rw [Nat.add_assoc, Nat.add_assoc, Nat.add_comm 1 k]
      exact h (k + 1) (Nat.succ_lt_succ hk)
    rw [cString, cString, hnext, show e q = d p from h 0 (Nat.succ_pos n)]

theorem Holds.cString_length (h : Holds d p xs) (h0 : 0 ∉ xs) : cString d xs.length p = xs := by
  induction xs generalizing p with
  | nil => rfl
  | cons x xs ih =>
    obtain ⟨hx, h0⟩ := List.ne_and_not_mem_of_not_mem_cons h0
    rw [List.length_cons, cString, h.1, if_neg (Ne.symm hx), ih h.2 h0]

theorem holds_getD (xs : List UInt8) : Holds (fun i => xs.getD i 0) 0 xs := by
  have h : ∀ (ys zs : List UInt8), Holds (fun i => (ys ++ zs).getD i 0) ys.length zs := by
    intro ys zs
    induction zs generalizing ys with
    | nil => trivial
    | cons z zs ih =>
      constructor
      · simp
      · have hz := ih (ys ++ [z])
        rwa [List.append_assoc, List.length_append] at hz
  exact h [] xs

theorem Holds.take (h : Holds d p xs) (n : ℕ) : Holds d p (xs.take n) := by
  rw [← List.take_append_drop n xs] at h
  exact (holds_append.mp h).1

theorem holds_splice (d : Mem) (p : ℕ) (xs : List UInt8) (hn : n ≤ xs.length) : Holds (splice d p n (fun i => xs.getD i 0)) p (xs.take n) := by
  apply ((holds_getD xs).take n).move
  intro i hi
  rw [List.length_take_of_le hn] at hi
  rw [Nat.zero_add]
  unfold splice
  rw [if_pos (by omega), Nat.add_sub_cancel_left]

end Holds

end Bytes
