
import Mathlib.Data.Set.Insert
import Mathlib.Logic.Function.Basic

namespace Ownership

open Function (update update_of_ne update_self)

variable {ι B : Type*}

structure Owned (U used : Set B) (X : Set ι) (ref : ι → Option B) : Prop where
  mem : ∀ {x b}, ref x = some b → b ∈ U
  inj : ∀ {x y b}, x ∈ X → ref x = some b → ref y = some b → x = y
  used : ∀ {x b}, ref x = some b → b ∈ used

structure Exact (U used : Set B) (ref : ι → Option B) : Prop where
  mem : ∀ {x b}, ref x = some b → b ∈ U
  inj : ∀ {x y b}, ref x = some b → ref y = some b → x = y
  used_iff : ∀ {b}, b ∈ U → (b ∈ used ↔ ∃ x, ref x = some b)

variable {U used used' : Set B} {X : Set ι} {ref ref' : ι → Option B} {x y : ι} {b : B}

theorem Owned.take [DecidableEq ι] (h : Owned U used X ref) (hb : b ∈ U) (hfree : b ∉ used) (hu : ∀ c ∈ U, c ∈ used ∨ c = b → c ∈ used')
    (hr : ∀ y, ref' y = update ref x (some b) y) : Owned U used' X ref' := by
  obtain rfl : ref' = update ref x (some b) := funext hr
  have hnew {y : ι} (hy : ref y = some b) : False := hfree (h.used hy)
  have hcase {y : ι} {c : B} (hy : update ref x (some b) y = some c) : (y = x ∧ c = b) ∨ (y ≠ x ∧ ref y = some c) := by
    by_cases hyx : y = x
    · subst hyx
      rw [update_self] at hy
      exact .inl ⟨rfl, (Option.some.inj hy).symm⟩
    · rw [update_of_ne hyx] at hy
      exact .inr ⟨hyx, hy⟩
  constructor
  · intro y c hy
    rcases hcase hy with ⟨-, rfl⟩ | ⟨-, hy⟩
    · exact hb
    · exact h.mem hy
  · intro y z c hX hy hz
    rcases hcase hy with ⟨rfl, rfl⟩ | ⟨-, hy'⟩ <;> rcases hcase hz with ⟨rfl, e⟩ | ⟨-, hz'⟩
    · rfl
    · exact (hnew hz').elim
    · subst e
      exact (hnew hy').elim
    · exact h.inj hX hy' hz'
  · intro y c hy
    rcases hcase hy with ⟨-, rfl⟩ | ⟨-, hy⟩
    · exact hu c hb (.inr rfl)
    · exact hu c (h.mem hy) (.inl (h.used hy))

namespace Exact

theorem used_of_ref (h : Exact U used ref) (hx : ref x = some b) : b ∈ used :=
  (h.used_iff (h.mem hx)).mpr ⟨x, hx⟩

theorem ne_of_ref (h : Exact U used ref) {c : B} (hxy : x ≠ y) (hx : ref x = some b) (hy : ref y = some c) : b ≠ c := by
  rintro rfl
  exact hxy (h.inj hx hy)

theorem owned (h : Exact U used ref) (X : Set ι) : Owned U used X ref := ⟨h.mem, fun _ => h.inj, h.used_of_ref⟩

theorem remove (h : Exact U used ref) (hfree : b ∉ used) (hu : ∀ c ∈ U, c ≠ b → (c ∈ used' ↔ c ∈ used)) : Exact (U \ {b}) used' ref where
  mem {x c} hx := by
    refine ⟨h.mem hx, ?_⟩
    rintro rfl
    exact hfree (h.used_of_ref hx)
  inj := h.inj
  used_iff {c} hc := (hu c hc.1 hc.2).trans (h.used_iff hc.1)

theorem restore (h : Exact U used ref) (hb : b ∉ U) (hfree : b ∉ used') (hu : ∀ c ∈ U, c ∈ used' ↔ c ∈ used) : Exact (insert b U) used' ref where
  mem hx := Set.mem_insert_of_mem b (h.mem hx)
  inj := h.inj
  used_iff {c} hc := by
    rcases Set.mem_insert_iff.mp hc with rfl | hc
    · refine ⟨fun hu => absurd hu hfree, ?_⟩
      rintro ⟨x, hx⟩
      exact absurd (h.mem hx) hb
    · exact (hu c hc).trans (h.used_iff hc)

variable [DecidableEq ι]

theorem take (h : Exact U used ref) (hx : ref x = none) (hb : b ∈ U) (hfree : b ∉ used) (hu : ∀ c ∈ U, c ∈ used' ↔ c ∈ used ∨ c = b)
    (hr : ∀ y, ref' y = update ref x (some b) y) : Exact U used' ref' := by
  have ho := (h.owned Set.univ).take hb hfree (fun c hc => (hu c hc).mpr) hr
  refine ⟨ho.mem, ho.inj trivial, ?_⟩
  intro c hc
  rw [hu c hc, h.used_iff hc]
  constructor
  · rintro (⟨y, hy⟩ | rfl)
    · have hyx : y ≠ x := by
        rintro rfl
        rw [hx] at hy
        cases hy
      exact ⟨y, by rw [hr, update_of_ne hyx, hy]⟩
    · exact ⟨x, by rw [hr, update_self]⟩
  · rintro ⟨y, hy⟩
    rw [hr] at hy
    by_cases hyx : y = x
    · subst hyx
      rw [update_self] at hy
      exact .inr (Option.some.inj hy).symm
    · rw [update_of_ne hyx] at hy
      exact .inl ⟨y, hy⟩

theorem grant (h : Exact U used ref) (hx : ref x = none) (hb : b ∉ U) (hused : b ∈ used') (hu : ∀ c ∈ U, c ∈ used' ↔ c ∈ used)
    (hr : ∀ y, ref' y = update ref x (some b) y) : Exact (insert b U) used' ref' := by
  have hne : ∀ c ∈ U, c ≠ b := fun c hc e => hb (e ▸ hc)
  have hrest : Exact (insert b U) ( used' \ {b}) ref := h.restore hb (fun hm => hm.2 rfl) (fun c hc => (and_iff_left (hne c hc)).trans (hu c hc))
  refine hrest.take hx (Set.mem_insert b U) (fun hm => hm.2 rfl) (fun c _ => ?_) hr
  by_cases e : c = b
  · subst e
    exact ⟨fun _ => .inr rfl, fun _ => hused⟩
  · exact ⟨fun hm => .inl ⟨hm, e⟩, fun hm => (hm.resolve_right e).1⟩

theorem give (h : Exact U used ref) (hx : ref x = some b) (hu : ∀ c ∈ U, c ∈ used' ↔ c ∈ used ∧ c ≠ b)
    (hr : ∀ y, ref' y = update ref x none y) : Exact U used' ref' := by
  obtain rfl : ref' = update ref x none := funext hr
  have hold {y : ι} {c : B} (hy : update ref x none y = some c) : y ≠ x ∧ ref y = some c := by
    by_cases hyx : y = x
    · subst hyx
      rw [update_self] at hy
      cases hy
    · rw [update_of_ne hyx] at hy
      exact ⟨hyx, hy⟩
  constructor
  · intro y c hy
    exact h.mem (hold hy).2
  · intro y z c hy hz
    exact h.inj (hold hy).2 (hold hz).2
  · intro c hc
    rw [hu c hc, h.used_iff hc]
    constructor
    · rintro ⟨⟨y, hy⟩, hne⟩
      have hyx : y ≠ x := by
        rintro rfl
        rw [hx] at hy
        exact hne (Option.some.inj hy).symm
      exact ⟨y, by rw [update_of_ne hyx, hy]⟩
    · rintro ⟨y, hy⟩
      exact ⟨⟨y, (hold hy).2⟩, (h.ne_of_ref (hold hy).1 (hold hy).2 hx)⟩

end Exact

end Ownership
