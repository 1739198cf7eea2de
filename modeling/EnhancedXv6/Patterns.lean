import Mathlib.Data.List.Basic

namespace Patterns

variable {α : Type*}

inductive Piece (α : Type*)
  | one (S : α → Prop)
  | star (S : α → Prop)

def Matches : List (Piece α) → List α → Prop
  | [], xs => xs = []
  | .one S :: ps, xs => ∃ x ys, xs = x :: ys ∧ S x ∧ Matches ps ys
  | .star S :: ps, xs => ∃ ys zs, xs = ys ++ zs ∧ (∀ y ∈ ys, S y) ∧ Matches ps zs

structure Pattern (α : Type*) where
  start : Bool
  pieces : List (Piece α)
  stop : Bool

def Pattern.Finds (p : Pattern α) (text : List α) : Prop :=
  ∃ u w v, text = u ++ w ++ v ∧ Matches p.pieces w ∧ (p.start → u = []) ∧ (p.stop → v = [])

def Starts (ps : List (Piece α)) (stop : Bool) (text : List α) : Prop := ∃ w v, text = w ++ v ∧ Matches ps w ∧ (stop → v = [])

variable {ps : List (Piece α)} {stop : Bool} {S : α → Prop} {x : α} {xs : List α}

theorem starts_nil : Starts ([] : List (Piece α)) stop xs ↔ (stop → xs = []) := by
  constructor
  · rintro ⟨w, v, rfl, rfl, hv⟩
    exact hv
  · intro h
    exact ⟨[], xs, rfl, rfl, h⟩

theorem starts_one_nil : ¬ Starts (.one S :: ps) stop [] := by
  rintro ⟨w, v, h, ⟨x, ys, rfl, -⟩, -⟩
  cases h

theorem starts_one_cons : Starts (.one S :: ps) stop (x :: xs) ↔ S x ∧ Starts ps stop xs := by
  constructor
  · rintro ⟨w, v, h, ⟨y, ys, rfl, hy, hys⟩, hv⟩
    cases h
    exact ⟨hy, ys, v, rfl, hys, hv⟩
  · rintro ⟨hx, w, v, rfl, hw, hv⟩
    exact ⟨x :: w, v, rfl, ⟨x, w, rfl, hx, hw⟩, hv⟩

theorem starts_star_nil : Starts (.star S :: ps) stop [] ↔ Starts ps stop [] := by
  constructor
  · rintro ⟨w, v, h, ⟨ys, zs, rfl, -, hzs⟩, hv⟩
    obtain ⟨hw, rfl⟩ := List.append_eq_nil_iff.mp h.symm
    obtain ⟨-, rfl⟩ := List.append_eq_nil_iff.mp hw
    exact ⟨[], [], rfl, hzs, hv⟩
  · rintro ⟨w, v, h, hw, hv⟩
    exact ⟨w, v, h, ⟨[], w, rfl, by simp, hw⟩, hv⟩

theorem starts_star_cons : Starts (.star S :: ps) stop (x :: xs) ↔
    Starts ps stop (x :: xs) ∨ S x ∧ Starts (.star S :: ps) stop xs := by
  constructor
  · rintro ⟨w, v, h, ⟨ys, zs, rfl, hys, hzs⟩, hv⟩
    cases ys with
    | nil => exact .inl ⟨zs, v, h, hzs, hv⟩
    | cons y ys =>
      cases h
      obtain ⟨hy, hys⟩ := List.forall_mem_cons.mp hys
      exact .inr ⟨hy, ys ++ zs, v, rfl, ⟨ys, zs, rfl, hys, hzs⟩, hv⟩
  · rintro (⟨w, v, h, hw, hv⟩ | ⟨hx, w, v, rfl, ⟨ys, zs, rfl, hys, hzs⟩, hv⟩)
    · exact ⟨w, v, h, ⟨[], w, rfl, by simp, hw⟩, hv⟩
    · exact ⟨x :: (ys ++ zs), v, rfl, ⟨x :: ys, zs, rfl, List.forall_mem_cons.mpr ⟨hx, hys⟩, hzs⟩, hv⟩

theorem finds_of_start : Pattern.Finds ⟨true, ps, stop⟩ xs ↔ Starts ps stop xs := by
  constructor
  · rintro ⟨u, w, v, rfl, hw, hu, hv⟩
    obtain rfl := hu rfl
    exact ⟨w, v, rfl, hw, hv⟩
  · rintro ⟨w, v, rfl, hw, hv⟩
    exact ⟨[], w, v, rfl, hw, fun _ => rfl, hv⟩

theorem finds_nil : Pattern.Finds ⟨false, ps, stop⟩ [] ↔ Starts ps stop [] := by
  constructor
  · rintro ⟨u, w, v, h, hw, -, hv⟩
    obtain ⟨huw, rfl⟩ := List.append_eq_nil_iff.mp h.symm
    obtain ⟨rfl, rfl⟩ := List.append_eq_nil_iff.mp huw
    exact ⟨[], [], rfl, hw, hv⟩
  · rintro ⟨w, v, h, hw, hv⟩
    exact ⟨[], w, v, h, hw, fun _ => rfl, hv⟩

theorem finds_cons : Pattern.Finds ⟨false, ps, stop⟩ (x :: xs) ↔ Starts ps stop (x :: xs) ∨ Pattern.Finds ⟨false, ps, stop⟩ xs := by
  constructor
  · rintro ⟨u, w, v, h, hw, -, hv⟩
    cases u with
    | nil => exact .inl ⟨w, v, h, hw, hv⟩
    | cons y u =>
      cases h
      exact .inr ⟨u, w, v, rfl, hw, Bool.noConfusion, hv⟩
  · rintro (⟨w, v, h, hw, hv⟩ | ⟨u, w, v, rfl, hw, -, hv⟩)
    · exact ⟨[], w, v, h, hw, Bool.noConfusion, hv⟩
    · exact ⟨x :: u, w, v, rfl, hw, Bool.noConfusion, hv⟩

end Patterns
