
import Mathlib.Data.Finset.Basic
import Mathlib.Data.Set.Insert
import Mathlib.Logic.Function.Basic

namespace Tiling

open Function (update update_apply update_of_ne update_self)

variable {B : Finset ℕ} {len : ℕ → ℕ} {M : Set ℕ} {a b k n : ℕ}

structure Tiles (B : Finset ℕ) (len : ℕ → ℕ) (M : Set ℕ) : Prop where
  pos : ∀ a ∈ B, 0 < len a
  apart : ∀ a ∈ B, ∀ b ∈ B, a < b → a + len a ≤ b
  cover : ∀ x, x ∈ M ↔ ∃ a ∈ B, a ≤ x ∧ x < a + len a

theorem tiles_empty (len : ℕ → ℕ) : Tiles ∅ len ∅ where
  pos _ h := absurd h (Finset.notMem_empty _)
  apart _ h := absurd h (Finset.notMem_empty _)
  cover x := by simp

namespace Tiles

theorem congr (h : Tiles B len M) {len' : ℕ → ℕ} (he : ∀ a ∈ B, len' a = len a) : Tiles B len' M where
  pos a ha := by
    rw [he a ha]
    exact h.pos a ha
  apart a ha b hb hab := by
    rw [he a ha]
    exact h.apart a ha b hb hab
  cover x := by
    rw [h.cover x]
    constructor
    · rintro ⟨a, ha, hx⟩
      exact ⟨a, ha, by rwa [he a ha]⟩
    · rintro ⟨a, ha, hx⟩
      exact ⟨a, ha, by rwa [← he a ha]⟩

theorem mem (h : Tiles B len M) (ha : a ∈ B) {x : ℕ} (hl : a ≤ x) (hr : x < a + len a) : x ∈ M := (h.cover x).mpr ⟨a, ha, hl, hr⟩

theorem add (h : Tiles B len M) (hn : 0 < n) (hfresh : ∀ x, a ≤ x → x < a + n → x ∉ M) :
    Tiles (insert a B) (update len a n) (M ∪ {x | a ≤ x ∧ x < a + n}) := by
  have haB : ∀ b ∈ B, b ≠ a := by
    rintro b hb rfl
    exact hfresh b (le_refl b) (by omega) (h.mem hb (le_refl b) (by have := h.pos b hb; omega))
  have hlen : ∀ b ∈ B, update len a n b = len b := fun b hb => update_of_ne (haB b hb) ..
  refine ⟨fun b hb => ?_, fun b hb c hc hbc => ?_, fun x => ?_⟩
  · rcases Finset.mem_insert.mp hb with rfl | hb
    · rwa [update_self]
    · rw [hlen b hb]
      exact h.pos b hb
  · rcases Finset.mem_insert.mp hb with rfl | hbB
    · rcases Finset.mem_insert.mp hc with rfl | hc
      · exact absurd hbc (lt_irrefl c)
      · rw [update_self]
        by_contra hlt
        exact hfresh c hbc.le (by omega) (h.mem hc (le_refl c) (by have := h.pos c hc; omega))
    · rw [hlen b hbB]
      rcases Finset.mem_insert.mp hc with rfl | hc
      · by_contra hlt
        exact hfresh c (le_refl c) (by omega) (h.mem hbB hbc.le (by omega))
      · exact h.apart b hbB c hc hbc
  · rw [Set.mem_union, h.cover x]
    constructor
    · rintro (⟨b, hb, hx⟩ | hx)
      · exact ⟨b, Finset.mem_insert_of_mem hb, by rwa [hlen b hb]⟩
      · exact ⟨a, Finset.mem_insert_self a B, by rwa [update_self]⟩
    · rintro ⟨b, hb, hx⟩
      rcases Finset.mem_insert.mp hb with rfl | hb
      · rw [update_self] at hx
        exact .inr hx
      · rw [hlen b hb] at hx
        exact .inl ⟨b, hb, hx⟩

theorem split (h : Tiles B len M) (ha : a ∈ B) (hk : 0 < k) (hlt : k < len a) :
    Tiles (insert (a + k) B) (update (update len a k) (a + k) (len a - k)) M := by
  have hne : ∀ b ∈ B, b ≠ a + k := by
    rintro b hb rfl
    have := h.apart a ha (a + k) hb (by omega)
    omega
  have hlen : ∀ b ∈ B, update (update len a k) (a + k) (len a - k) b = if b = a then k else len b := by
    intro b hb
    rw [update_of_ne (hne b hb), update_apply]
  refine ⟨fun b hb => ?_, fun b hb c hc hbc => ?_, fun x => ?_⟩
  · rcases Finset.mem_insert.mp hb with rfl | hb
    · rw [update_self]
      omega
    · rw [hlen b hb]
      split_ifs
      · exact hk
      · exact h.pos b hb
  · rcases Finset.mem_insert.mp hb with rfl | hbB
    · rcases Finset.mem_insert.mp hc with rfl | hcB
      · exact absurd hbc (lt_irrefl _)
      · have := h.apart a ha c hcB (by omega)
        rw [update_self]
        omega
    · rw [hlen b hbB]
      rcases Finset.mem_insert.mp hc with rfl | hcB
      · split_ifs with e
        · omega
        · rcases lt_or_gt_of_ne e with hba | hab
          · have := h.apart b hbB a ha hba
            omega
          · have := h.apart a ha b hbB hab
            omega
      · have := h.apart b hbB c hcB hbc
        split_ifs with e
        · subst e
          omega
        · exact this
  · rw [h.cover x]
    constructor
    · rintro ⟨b, hb, hl, hr⟩
      by_cases e : b = a
      · subst e
        by_cases hx : x < b + k
        · refine ⟨b, Finset.mem_insert_of_mem hb, hl, ?_⟩
          rwa [hlen b hb, if_pos rfl]
        · refine ⟨b + k, Finset.mem_insert_self _ B, by omega, ?_⟩
          rw [update_self]
          omega
      · refine ⟨b, Finset.mem_insert_of_mem hb, hl, ?_⟩
        rwa [hlen b hb, if_neg e]
    · rintro ⟨b, hb, hl, hr⟩
      rcases Finset.mem_insert.mp hb with rfl | hbB
      · rw [update_self] at hr
        exact ⟨a, ha, by omega, by omega⟩
      · rw [hlen b hbB] at hr
        split_ifs at hr with e
        · subst e
          exact ⟨b, hbB, hl, by omega⟩
        · exact ⟨b, hbB, hl, hr⟩

theorem merge (h : Tiles B len M) (ha : a ∈ B) (hb : a + len a ∈ B) :
    Tiles (B.erase (a + len a)) (update len a (len a + len (a + len a))) M := by
  have hpos := h.pos a ha
  have hlen : ∀ c, c ≠ a → update len a (len a + len (a + len a)) c = len c := fun c hc => update_of_ne hc ..
  refine ⟨fun c hc => ?_, fun c hc d hd hcd => ?_, fun x => ?_⟩
  · by_cases e : c = a
    · rw [e, update_self]
      omega
    · rw [hlen c e]
      exact h.pos c (Finset.mem_of_mem_erase hc)
  · obtain ⟨-, hcB⟩ := Finset.mem_erase.mp hc
    obtain ⟨hdb, hdB⟩ := Finset.mem_erase.mp hd
    have := h.apart c hcB d hdB hcd
    by_cases e : c = a
    · subst e
      rw [update_self]
      have := h.apart (c + len c) hb d hdB (by omega)
      omega
    · rwa [hlen c e]
  · rw [h.cover x]
    constructor
    · rintro ⟨c, hc, hl, hr⟩
      by_cases e : c = a + len a
      · subst e
        refine ⟨a, Finset.mem_erase.mpr ⟨by omega, ha⟩, by omega, ?_⟩
        rw [update_self]
        omega
      · refine ⟨c, Finset.mem_erase.mpr ⟨e, hc⟩, hl, ?_⟩
        by_cases e : c = a
        · subst e
          rw [update_self]
          omega
        · rwa [hlen c e]
    · rintro ⟨c, hc, hl, hr⟩
      have hcB := Finset.mem_of_mem_erase hc
      by_cases e : c = a
      · subst e
        rw [update_self] at hr
        by_cases hx : x < c + len c
        · exact ⟨c, hcB, hl, hx⟩
        · exact ⟨c + len c, hb, by omega, by omega⟩
      · rw [hlen c e] at hr
        exact ⟨c, hcB, hl, hr⟩

end Tiles

end Tiling
