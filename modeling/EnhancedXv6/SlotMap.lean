import Mathlib.Data.List.Basic
import Mathlib.Tactic.SplitIfs

namespace SlotMap

variable {κ ν : Type*}

abbrev Table (κ ν : Type*) := List (Option (κ × ν))

variable {t : Table κ ν} {i j n m : ℕ} {k l : κ} {v w : ν}

def Distinct (t : Table κ ν) : Prop :=
  ∀ (i j : ℕ) (k : κ) (v w : ν), t[i]? = some (some (k, v)) → t[j]? = some (some (k, w)) → i = j

def firstFree (t : Table κ ν) : ℕ := t.findIdx Option.isNone

def put (t : Table κ ν) (i : ℕ) (e : Option (κ × ν)) : Table κ ν := if i < t.length then t.set i e else t ++ [e]

theorem firstFree_le (t : Table κ ν) : firstFree t ≤ t.length := List.findIdx_le_length

theorem firstFree_lt (h : firstFree t < t.length) : t[firstFree t]? = some none := by
  have hnone : (t[firstFree t]).isNone := List.findIdx_getElem (w := h)
  rw [List.getElem?_eq_getElem h, Option.isNone_iff_eq_none.mp hnone]

theorem getElem?_put (hi : i ≤ t.length) (e : Option (κ × ν)) : (put t i e)[j]? = if j = i then some e else t[j]? := by
  unfold put
  split_ifs with h hj hj
  · subst hj
    rw [List.getElem?_set_self h]
  · rw [List.getElem?_set_ne (Ne.symm hj)]
  · obtain rfl : i = t.length := by omega
    rw [hj, List.getElem?_concat_length]
  · obtain rfl : i = t.length := by omega
    by_cases hlt : j < t.length
    · rw [List.getElem?_append_left hlt]
    · rw [List.getElem?_eq_none (by rw [List.length_append, List.length_singleton]; omega), List.getElem?_eq_none (by omega)]

theorem Distinct.erase (h : Distinct t) (hi : i ≤ t.length) : Distinct (put t i none) := by
  have hcase : ∀ (j : ℕ) (l : κ) (w : ν), (put t i none)[j]? = some (some (l, w)) → t[j]? = some (some (l, w)) := by
    intro j l w hj
    rw [getElem?_put hi] at hj
    split_ifs at hj with hji
    · cases hj
    · exact hj
  intro a b l v w ha hb
  exact h _ _ _ _ _ (hcase _ _ _ ha) (hcase _ _ _ hb)

section Find

variable [DecidableEq κ]

def findFrom (k : κ) : ℕ → Table κ ν → Option (ν × ℕ)
  | _, [] => none
  | n, none :: t => findFrom k (n + 1) t
  | n, some (l, v) :: t => if k = l then some (v, n) else findFrom k (n + 1) t

def find (t : Table κ ν) (k : κ) : Option (ν × ℕ) := findFrom k 0 t

theorem findFrom_eq_some (h : findFrom k n t = some (v, m)) : n ≤ m ∧ t[m - n]? = some (some (k, v)) := by
  induction t generalizing n with
  | nil => cases h
  | cons e t ih =>
    have htail : findFrom k (n + 1) t = some (v, m) → n ≤ m ∧ (e :: t)[m - n]? = some (some (k, v)) := by
      intro ht
      obtain ⟨hle, hget⟩ := ih ht
      refine ⟨by omega, ?_⟩
      rw [show m - n = m - (n + 1) + 1 by omega, List.getElem?_cons_succ]
      exact hget
    cases e with
    | none => exact htail h
    | some p =>
      obtain ⟨l, w⟩ := p
      rw [findFrom] at h
      split_ifs at h with hk
      · cases h
        subst hk
        rw [Nat.sub_self]
        exact ⟨Nat.le_refl _, rfl⟩
      · exact htail h

theorem findFrom_eq_none (h : findFrom k n t = none) : t[i]? ≠ some (some (k, v)) := by
  induction t generalizing n i with
  | nil =>
    intro h0
    cases h0
  | cons e t ih =>
    have htail : findFrom k (n + 1) t = none → e ≠ some (k, v) → (e :: t)[i]? ≠ some (some (k, v)) := by
      intro ht he
      cases i with
      | zero =>
        intro h0
        exact he (Option.some.inj h0)
      | succ i => exact ih ht
    cases e with
    | none => exact htail h (Option.some_ne_none _).symm
    | some p =>
      obtain ⟨l, w⟩ := p
      rw [findFrom] at h
      split_ifs at h with hk
      refine htail h (fun he => hk ?_)
      cases he
      rfl

theorem find_eq_none (h : find t k = none) : t[i]? ≠ some (some (k, v)) := findFrom_eq_none h

namespace Distinct

theorem find_eq_some (h : Distinct t) : find t k = some (v, i) ↔ t[i]? = some (some (k, v)) := by
  constructor
  · intro hf
    exact (findFrom_eq_some hf).2
  · intro hi
    cases hf : find t k with
    | none => exact absurd hi (find_eq_none hf)
    | some p =>
      obtain ⟨w, j⟩ := p
      have hj : t[j]? = some (some (k, w)) := (findFrom_eq_some hf).2
      obtain rfl := h _ _ _ _ _ hi hj
      rw [hi] at hj
      cases hj
      rfl

theorem insert (h : Distinct t) (hk : find t k = none) (hi : i ≤ t.length) : Distinct (put t i (some (k, v))) := by
  have hcase : ∀ (j : ℕ) (l : κ) (w : ν), (put t i (some (k, v)))[j]? = some (some (l, w)) → (j = i ∧ l = k) ∨ (l ≠ k ∧ t[j]? = some (some (l, w))) := by
    intro j l w hj
    rw [getElem?_put hi] at hj
    split_ifs at hj with hji
    · cases hj
      exact .inl ⟨hji, rfl⟩
    · refine .inr ⟨?_, hj⟩
      rintro rfl
      exact find_eq_none hk hj
  intro a b l v' w ha hb
  rcases hcase _ _ _ ha with ⟨rfl, rfl⟩ | ⟨hl, ha⟩ <;> rcases hcase _ _ _ hb with ⟨rfl, e⟩ | ⟨hl', hb⟩
  · rfl
  · exact absurd rfl hl'
  · exact absurd e hl
  · exact h _ _ _ _ _ ha hb

theorem find_insert (h : Distinct t) (hk : find t k = none) (hi : i = t.length ∨ t[i]? = some none) :
    find (put t i (some (k, v))) l = if l = k then some (v, i) else find t l := by
  have hle : i ≤ t.length := by
    rcases hi with rfl | hi
    · exact Nat.le_refl _
    · exact Nat.le_of_lt (List.getElem?_eq_some_iff.mp hi).1
  have hd := h.insert (v := v) hk hle
  split_ifs with hl
  · subst hl
    rw [hd.find_eq_some, getElem?_put hle, if_pos rfl]
  · apply Option.ext
    rintro ⟨w, j⟩
    rw [hd.find_eq_some, h.find_eq_some, getElem?_put hle]
    split_ifs with hj
    · subst hj
      constructor
      · intro e
        cases e
        exact absurd rfl hl
      · intro e
        -- the slot was empty
        rcases hi with rfl | hi
        · rw [List.getElem?_eq_none (Nat.le_refl _)] at e
          cases e
        · rw [hi] at e
          cases e
    · rfl

theorem find_erase (h : Distinct t) (hi : t[i]? = some (some (k, v))) :
    find (put t i none) l = if l = k then none else find t l := by
  have hle : i ≤ t.length := Nat.le_of_lt (List.getElem?_eq_some_iff.mp hi).1
  have hd := h.erase hle
  apply Option.ext
  rintro ⟨w, j⟩
  rw [hd.find_eq_some, getElem?_put hle]
  split_ifs with hj hl hl
  · constructor <;> intro e <;> cases e
  · subst hj
    rw [h.find_eq_some, hi]
    constructor <;> intro e
    · cases e
    · cases e
      exact absurd rfl hl
  · subst hl
    constructor <;> intro e
    · exact absurd (h _ _ _ _ _ e hi) hj
    · cases e
  · rw [h.find_eq_some]

end Distinct

end Find

end SlotMap
