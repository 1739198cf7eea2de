import Mathlib.Logic.Function.Basic

namespace TwoLevel

variable {F I W : Type*} (child : I → W → Option F) {M M' : F → I → W} {d t : F} {i i' j j' : I} {w : W}

def table (M : F → I → W) (d : F) (i : I) : Option F := child i (M d i)

def leaf (M : F → I → W) (d : F) (i j : I) : Option W := (table child M d i).map (fun t => M t j)

structure Tree (M : F → I → W) (d : F) : Prop where
  root : ∀ i, table child M d i ≠ some d
  inj : ∀ {i j t}, table child M d i = some t → table child M d j = some t → i = j

variable {child}

theorem table_congr (h : M' d = M d) : table child M' d = table child M d := by
  funext i
  rw [table, table, h]

theorem leaf_congr (h : M' d = M d) (ht : ∀ i t, table child M d i = some t → M' t = M t) : leaf child M' d = leaf child M d := by
  funext i j
  rw [leaf, leaf, table_congr h]
  cases e : table child M d i with
  | none => rfl
  | some t => rw [Option.map_some, Option.map_some, ht i t e]

theorem leaf_eq_none (h : table child M d i = none) : leaf child M d i j = none := by
  rw [leaf, h]
  rfl

theorem leaf_eq_some (h : table child M d i = some t) : leaf child M d i j = some (M t j) := by
  rw [leaf, h]
  rfl

variable [DecidableEq F] [DecidableEq I]

def set (M : F → I → W) (f : F) (i : I) (w : W) : F → I → W := Function.update M f (Function.update (M f) i w)

theorem set_of_ne {f : F} (h : t ≠ f) : set M f i w t = M t := Function.update_of_ne h ..

theorem set_self (f : F) : set M f i w f = Function.update (M f) i w := Function.update_self ..

theorem table_set_leaf (h : Tree child M d) (ht : table child M d i = some t) : table child (set M t j w) d = table child M d := by
  have hne : d ≠ t := by
    rintro rfl
    exact h.root i ht
  exact table_congr (set_of_ne hne)

theorem leaf_set_leaf (h : Tree child M d) (ht : table child M d i = some t) :
    leaf child (set M t j w) d i' j' = if i' = i ∧ j' = j then some w else leaf child M d i' j' := by
  rw [leaf, leaf, table_set_leaf h ht]
  cases e : table child M d i' with
  | none =>
    have hne : i' ≠ i := by
      rintro rfl
      rw [ht] at e
      cases e
    rw [if_neg (fun h => hne h.1)]
    rfl
  | some u =>
    by_cases hi : i' = i
    · subst hi
      rw [ht] at e
      cases e
      rw [Option.map_some, Option.map_some, set_self, Function.update_apply]
      by_cases hj : j' = j
      · rw [if_pos hj, if_pos ⟨rfl, hj⟩]
      · rw [if_neg hj, if_neg (fun h => hj h.2)]
    · have hut : u ≠ t := by
        rintro rfl
        exact hi (h.inj e ht)
      rw [Option.map_some, Option.map_some, set_of_ne hut, if_neg (fun h => hi h.1)]

theorem table_set_root : table child (set M d i w) d i' = if i' = i then child i w else table child M d i' := by
  rw [table, table, set_self, Function.update_apply]
  by_cases hi : i' = i
  · rw [if_pos hi, if_pos hi, hi]
  · rw [if_neg hi, if_neg hi]

theorem leaf_set_root (h : Tree child M d) (hw : child i w = some t) (hne : t ≠ d) :
    leaf child (set M d i w) d i' j = if i' = i then some (M t j) else leaf child M d i' j := by
  rw [leaf, leaf, table_set_root]
  by_cases hi : i' = i
  · rw [if_pos hi, if_pos hi, hw, Option.map_some, set_of_ne hne]
  · rw [if_neg hi, if_neg hi]
    cases e : table child M d i' with
    | none => rfl
    | some u =>
      have hud : u ≠ d := by
        rintro rfl
        exact h.root i' e
      rw [Option.map_some, Option.map_some, set_of_ne hud]

end TwoLevel
