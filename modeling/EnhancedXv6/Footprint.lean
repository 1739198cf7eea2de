import EnhancedXv6.Command
import Mathlib.Data.Finset.Card

namespace Command

variable {S : Sig} {α β : Type} {σ ε τ : Type*} [DecidableEq τ]

section Footprint

variable (exec : (o : S.Op) → σ → Except ε (S.Res o × σ)) (touch : (o : S.Op) → σ → Finset τ) {R : α → Finset τ → Prop}

def footprint : Prog S α → σ → Finset τ
  | .ret _, _ => ∅
  | .op o k, s => match exec o s with
    | .ok (r, t) => touch o s ∪ footprint (k r) t
    | .error _ => ∅

def Spends (A : Finset τ) (N : ℕ) (m : Prog S α) (s : σ) (R : α → Finset τ → Prop) : Prop :=
  ∃ B, A ⊆ B ∧ B.card ≤ A.card + N ∧ footprint exec touch m s ⊆ B ∧ ∀ a t, run exec m s = .ok (a, t) → R a B

variable {exec touch} {A : Finset τ} {N M : ℕ} {m : Prog S α} {f : α → Prog S β} {s : σ}

theorem footprint_bind_ok {a : α} {t : σ} (h : run exec m s = .ok (a, t)) :
    footprint exec touch (m >>= f) s = footprint exec touch m s ∪ footprint exec touch (f a) t := by
  change footprint exec touch (m.bind f) s = _
  induction m generalizing s with
  | ret b =>
    cases h
    exact (Finset.empty_union _).symm
  | op o k ih =>
    simp only [Prog.bind, run, footprint] at h ⊢
    cases he : exec o s with
    | error e =>
      rw [he] at h
      cases h
    | ok x =>
      rw [he] at h
      simp only [ih x.1 h, Finset.union_assoc]

theorem footprint_bind_error {e : ε} (h : run exec m s = .error e) :
    footprint exec touch (m >>= f) s = footprint exec touch m s := by
  change footprint exec touch (m.bind f) s = _
  induction m generalizing s with
  | ret b => cases h
  | op o k ih =>
    simp only [Prog.bind, run, footprint] at h ⊢
    cases he : exec o s with
    | error e => rfl
    | ok x =>
      rw [he] at h
      simp only [ih x.1 h]

theorem Spends.pure {a : α} (h : R a A) : Spends exec touch A N (pure a : Prog S α) s R := by
  refine ⟨A, Finset.Subset.refl A, Nat.le_add_right _ _, Finset.empty_subset A, fun b t e => ?_⟩
  cases e
  exact h

theorem Spends.bind {P : α → Finset τ → Prop} {R : β → Finset τ → Prop} (h : Spends exec touch A N m s P)
    (hf : ∀ a t B, A ⊆ B → P a B → Spends exec touch B M (f a) t R) : Spends exec touch A (N + M) (m >>= f) s R := by
  obtain ⟨B, hAB, hB, hfoot, hres⟩ := h
  cases hr : run exec m s with
  | error e =>
    refine ⟨B, hAB, by omega, ?_, fun b t e => ?_⟩
    · rw [footprint_bind_error hr]
      exact hfoot
    · rw [run_bind, hr] at e
      cases e
  | ok x =>
    obtain ⟨a, t⟩ := x
    obtain ⟨C, hBC, hC, hfoot', hres'⟩ := hf a t B hAB (hres a t hr)
    refine ⟨C, hAB.trans hBC, by omega, ?_, fun b u e => hres' b u ?_⟩
    · rw [footprint_bind_ok hr]
      exact Finset.union_subset (hfoot.trans hBC) hfoot'
    · rw [run_bind, hr] at e
      exact e

theorem Spends.mono {P : α → Finset τ → Prop} (h : Spends exec touch A N m s P) (hN : N ≤ M) (hR : ∀ a B, P a B → R a B) :
    Spends exec touch A M m s R := by
  obtain ⟨B, hAB, hB, hfoot, hres⟩ := h
  exact ⟨B, hAB, by omega, hfoot, fun a t e => hR a B (hres a t e)⟩

theorem Spends.ite {c : Prop} [Decidable c] {m n : Prog S α} (hm : c → Spends exec touch A N m s R)
    (hn : ¬ c → Spends exec touch A N n s R) : Spends exec touch A N (if c then m else n) s R := by
  by_cases h : c
  · rw [if_pos h]
    exact hm h
  · rw [if_neg h]
    exact hn h

theorem Spends.insert (x : τ) (h : Spends exec touch (insert x A) N m s R) : Spends exec touch A (N + 1) m s R := by
  obtain ⟨B, hAB, hB, hfoot, hres⟩ := h
  have hcard := Finset.card_insert_le x A
  exact ⟨B, (Finset.subset_insert x A).trans hAB, by omega, hfoot, hres⟩

theorem Spends.op {o : S.Op} {f : S.Res o → Prog S α}
    (h : ∀ r t, exec o s = .ok (r, t) → touch o s ⊆ A ∧ Spends exec touch A N (f r) t R) :
    Spends exec touch A N (.call o >>= f) s R := by
  change Spends exec touch A N (.op o f) s R
  unfold Spends
  simp only [footprint, run]
  cases he : exec o s with
  | error e => exact ⟨A, Finset.Subset.refl A, Nat.le_add_right _ _, Finset.empty_subset A, fun _ _ e => by cases e⟩
  | ok x =>
    obtain ⟨htouch, B, hAB, hB, hfoot, hres⟩ := h x.1 x.2 he
    exact ⟨B, hAB, hB, Finset.union_subset (htouch.trans hAB) hfoot, hres⟩

end Footprint

end Command
