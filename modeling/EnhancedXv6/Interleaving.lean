import EnhancedXv6.Command
import EnhancedXv6.Transition
import Mathlib.Algebra.BigOperators.Ring.Finset
import Mathlib.Algebra.Order.BigOperators.Group.Finset
import Mathlib.Logic.Function.Basic

namespace Counting

open Finset

variable {P α : Type*} [Fintype P]

def total (w : α → ℕ) (f : P → α) : ℕ := ∑ p, w (f p)

theorem total_update [DecidableEq P] (w : α → ℕ) (f : P → α) (p : P) (a : α) :
    total w (Function.update f p a) + w (f p) = total w f + w a := by
  have h1 := add_sum_erase univ (fun q => w (Function.update f p a q)) (mem_univ p)
  have h2 := add_sum_erase univ (fun q => w (f q)) (mem_univ p)
  have h3 : ∑ q ∈ univ.erase p, w (Function.update f p a q) = ∑ q ∈ univ.erase p, w (f q) := by
    refine sum_congr rfl (fun q hq => ?_)
    rw [Function.update_of_ne (ne_of_mem_erase hq)]
  rw [h3, Function.update_self] at h1
  unfold total
  omega

theorem total_congr {w : α → ℕ} {f g : P → α} (h : ∀ p, w (f p) = w (g p)) : total w f = total w g :=
  sum_congr rfl (fun p _ => h p)

theorem le_total (w : α → ℕ) (f : P → α) (p : P) : w (f p) ≤ total w f :=
  single_le_sum (f := fun q => w (f q)) (fun _ _ => Nat.zero_le _) (mem_univ p)

theorem add_le_total [DecidableEq P] (w : α → ℕ) (f : P → α) {p q : P} (h : q ≠ p) : w (f p) + w (f q) ≤ total w f := by
  rw [total, ← add_sum_erase univ (fun r => w (f r)) (mem_univ p)]
  exact Nat.add_le_add_left (single_le_sum (f := fun r => w (f r)) (fun _ _ => Nat.zero_le _)
    (mem_erase.mpr ⟨h, mem_univ q⟩)) _

theorem total_eq_zero_iff {w : α → ℕ} {f : P → α} : total w f = 0 ↔ ∀ p, w (f p) = 0 := by
  simp [total]

theorem total_le_mul {w v : α → ℕ} {k : ℕ} (h : ∀ a, w a ≤ k * v a) (f : P → α) : total w f ≤ k * total v f := by
  rw [total, total, mul_sum]
  exact sum_le_sum (fun p _ => h (f p))

end Counting

namespace Command

open Transition

variable {S : Sig} {P C α σ ε G : Type}

def Settles (Φ : Spec S G) (Idle : G → Prop) : Option (Prog S α) → G → Prop
  | none, g => Idle g
  | some m, g => wp Φ m g (fun _ => Idle)

theorem Settles.of_gone {Φ : Spec S G} {Idle Gone : G → Prop} (hgone : ∀ o g Q, Gone g → ¬ Φ o g Q)
    {m : Option (Prog S α)} {g g' : G} (hm : Settles Φ Idle m g) (h : g' = g ∨ (Gone g ∧ Idle g')) :
    Settles Φ Idle m g' := by
  rcases h with rfl | ⟨hg, hi⟩
  · exact hm
  · match m, hm with
    | none, _ => exact hi
    | some (.ret _), _ => exact hi
    | some (.op o k), hm => exact absurd hm (hgone o g _ hg)

structure Pool (S : Sig) (P σ α : Type) where
  mem : σ
  thread : P → Option (Prog S α)

inductive Event (P C : Type)
  | call (p : P) (c : C)
  | step (p : P)
  deriving DecidableEq

variable [DecidableEq P]

def Pool.setThread (s : Pool S P σ α) (p : P) (m : Option (Prog S α)) : Pool S P σ α :=
  { s with thread := Function.update s.thread p m }

def Pool.next (exec : P → (o : S.Op) → σ → Except ε (S.Res o × σ)) (code : C → Prog S α) (may : σ → P → Bool)
    (s : Pool S P σ α) : Event P C → Option (Pool S P σ α)
  | .call p c => match s.thread p with
    | none => if may s.mem p then some (s.setThread p (some (code c))) else none
    | some _ => none
  | .step p => match s.thread p with
    | none => none
    | some (.ret _) => some (s.setThread p none)
    | some (.op o k) => match exec p o s.mem with
      | .ok (r, t) => some (Pool.setThread { s with mem := t } p (some (k r)))
      | .error _ => none

def threads (exec : P → (o : S.Op) → σ → Except ε (S.Res o × σ)) (code : C → Prog S α) (may : σ → P → Bool)
    (initial : σ → Prop) : Machine (Pool S P σ α) (Event P C) where
  initial s := initial s.mem ∧ ∀ p, s.thread p = none
  next s l := s.next exec code may l

variable {exec : P → (o : S.Op) → σ → Except ε (S.Res o × σ)} {code : C → Prog S α} {may : σ → P → Bool}

inductive Pool.Moves (exec : P → (o : S.Op) → σ → Except ε (S.Res o × σ)) (code : C → Prog S α) (may : σ → P → Bool)
    (s : Pool S P σ α) : Event P C → Pool S P σ α → Prop
  | call {p : P} (c : C) (hp : s.thread p = none) (hm : may s.mem p) :
      Moves exec code may s (.call p c) (s.setThread p (some (code c)))
  | ret {p : P} {a : α} (hp : s.thread p = some (.ret a)) : Moves exec code may s (.step p) (s.setThread p none)
  | op {p : P} {o : S.Op} {k : S.Res o → Prog S α} {r : S.Res o} {t : σ} (hp : s.thread p = some (.op o k))
      (h : exec p o s.mem = .ok (r, t)) :
      Moves exec code may s (.step p) (Pool.setThread { s with mem := t } p (some (k r)))

theorem Pool.moves {s t : Pool S P σ α} {l : Event P C} (h : s.next exec code may l = some t) :
    s.Moves exec code may l t := by
  cases l with
  | call p c =>
    simp only [Pool.next] at h
    split at h
    · next hp =>
      split_ifs at h with hm
      cases h
      exact .call c hp hm
    · cases h
  | step p =>
    simp only [Pool.next] at h
    split at h
    · cases h
    · next hp =>
      cases h
      exact .ret hp
    · next o k hp =>
      split at h
      · next r u he =>
        cases h
        exact .op hp he
      · cases h

def Pool.nextOp (s : Pool S P σ α) (p : P) : Option S.Op := match s.thread p with
  | some (.op o _) => some o
  | _ => none

def Pool.Meets (K : Pool S P σ α → P → S.Op → Prop) (s : Pool S P σ α) : Event P C → Prop
  | .call _ _ => True
  | .step p => ∀ o ∈ s.nextOp p, K s p o

instance (K : Pool S P σ α → P → S.Op → Prop) [∀ s p o, Decidable (K s p o)] (s : Pool S P σ α) (l : Event P C) :
    Decidable (s.Meets K l) := by
  cases l with
  | call p c => exact .isTrue trivial
  | step p => exact inferInstanceAs (Decidable (∀ o ∈ s.nextOp p, K s p o))

variable {Φ : Spec S G} {R : σ → (P → G) → Prop} {Idle Gone : G → Prop} {initial : σ → Prop}
  {K : Pool S P σ α → P → S.Op → Prop}

theorem Pool.settles (Idle Gone : G → Prop) (hgone : ∀ o g Q, Gone g → ¬ Φ o g Q) (h0 : ∀ s, initial s → ∃ gs, R s gs ∧ ∀ p, Idle (gs p))
    (hcode : ∀ c g, Idle g → ¬ Gone g → wp Φ (code c) g (fun _ => Idle))
    (hmay : ∀ s gs p, R s gs → may s p → ¬ Gone (gs p))
    (hstep : ∀ (s : Pool S P σ α) p o gs (Q : S.Res o → G → Prop) r t, K s p o → R s.mem gs →
      (∀ q, Settles Φ Idle (s.thread q) (gs q)) → Φ o (gs p) Q → exec p o s.mem = .ok (r, t) →
      ∃ gs', R t gs' ∧ Q r (gs' p) ∧ ∀ q, q ≠ p → gs' q = gs q ∨ (Gone (gs q) ∧ Idle (gs' q)))
    {s : Pool S P σ α} (h : (threads exec code may initial).ReachableWhere (Pool.Meets K) s) :
    ∃ gs, R s.mem gs ∧ ∀ p, Settles Φ Idle (s.thread p) (gs p) := by
  refine h.invariant (P := fun s => ∃ gs, R s.mem gs ∧ ∀ p, Settles Φ Idle (s.thread p) (gs p)) ?_ ?_
  · rintro s ⟨hs, hidle⟩
    obtain ⟨gs, hR, hgs⟩ := h0 s.mem hs
    refine ⟨gs, hR, fun p => ?_⟩
    rw [hidle p]
    exact hgs p
  · rintro s l t - ⟨gs, hR, hs⟩ hC hn
    cases Pool.moves hn with
    | @call p c hp hm =>
      refine ⟨gs, hR, fun q => ?_⟩
      by_cases hq : q = p
      · subst hq
        have hidle : Idle (gs q) := by simpa [hp, Settles] using hs q
        simpa [Pool.setThread, Settles] using hcode c (gs q) hidle (hmay s.mem gs q hR hm)
      · simpa [Pool.setThread, hq] using hs q
    | @ret p a hp =>
      refine ⟨gs, hR, fun q => ?_⟩
      by_cases hq : q = p
      · subst hq
        simpa [hp, Settles, wp, Pool.setThread] using hs q
      · simpa [Pool.setThread, hq] using hs q
    | @op p o k r u hp he =>
      have hwp : Φ o (gs p) (fun r g => wp Φ (k r) g (fun _ => Idle)) := by simpa [hp, Settles, wp] using hs p
      have hK : K s p o := hC o (by simp [Pool.nextOp, hp])
      obtain ⟨gs', hR', hQ, hothers⟩ := hstep s p o gs _ r u hK hR hs hwp he
      refine ⟨gs', hR', fun q => ?_⟩
      by_cases hq : q = p
      · subst hq
        simpa [Pool.setThread, Settles] using hQ
      · simpa [Pool.setThread, hq] using (hs q).of_gone hgone (hothers q hq)

end Command
