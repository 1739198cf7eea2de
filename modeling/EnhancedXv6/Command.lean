import Mathlib.Tactic.TypeStar

namespace Command

structure Sig where
  Op : Type
  Res : Op → Type

inductive Prog (S : Sig) (α : Type)
  | ret (a : α)
  | op (o : S.Op) (k : S.Res o → Prog S α)

variable {S : Sig} {α β : Type}

namespace Prog

def bind : Prog S α → (α → Prog S β) → Prog S β
  | ret a, f => f a
  | op o k, f => op o (fun r => (k r).bind f)

def call (o : S.Op) : Prog S (S.Res o) := op o ret

instance : Monad (Prog S) where
  pure := ret
  bind := bind

end Prog

abbrev Spec (S : Sig) (σ : Type*) := (o : S.Op) → σ → (S.Res o → σ → Prop) → Prop

variable {σ ε : Type*}

def wp (Φ : Spec S σ) : Prog S α → σ → (α → σ → Prop) → Prop
  | .ret a, s, Q => Q a s
  | .op o k, s, Q => Φ o s (fun r t => wp Φ (k r) t Q)

@[simp] theorem wp_pure (Φ : Spec S σ) (a : α) (s : σ) (Q : α → σ → Prop) :
    wp Φ (pure a : Prog S α) s Q = Q a s := rfl

@[simp] theorem wp_call (Φ : Spec S σ) (o : S.Op) (s : σ) (Q : S.Res o → σ → Prop) :
    wp Φ (.call o) s Q = Φ o s Q := rfl

@[simp] theorem wp_bind (Φ : Spec S σ) (m : Prog S α) (f : α → Prog S β) (s : σ) (Q : β → σ → Prop) :
    wp Φ (m >>= f) s Q = wp Φ m s (fun a t => wp Φ (f a) t Q) := by
  change wp Φ (m.bind f) s Q = _
  induction m generalizing s with
  | ret a => rfl
  | op o k ih =>
    simp only [Prog.bind, wp]
    congr
    funext r t
    exact ih r t

theorem wp_seq {Φ : Spec S σ} {m : Prog S α} {f : α → Prog S β} {s : σ} {Q : β → σ → Prop}
    (h : wp Φ m s (fun a t => wp Φ (f a) t Q)) : wp Φ (m >>= f) s Q := by
  rw [wp_bind]
  exact h

@[simp] theorem wp_ite (Φ : Spec S σ) (c : Prop) [Decidable c] (m n : Prog S α) (s : σ) (Q : α → σ → Prop) :
    wp Φ (if c then m else n) s Q = if c then wp Φ m s Q else wp Φ n s Q := by split <;> rfl

theorem wp_cond {Φ : Spec S σ} {c : Prop} [Decidable c] {m n : Prog S α} {s : σ} {Q : α → σ → Prop}
    (hm : c → wp Φ m s Q) (hn : ¬ c → wp Φ n s Q) : wp Φ (if c then m else n) s Q := by
  by_cases h : c
  · rw [if_pos h]
    exact hm h
  · rw [if_neg h]
    exact hn h

def Spec.Mono (Φ : Spec S σ) : Prop := ∀ o s Q Q', (∀ r t, Q r t → Q' r t) → Φ o s Q → Φ o s Q'

theorem wp_mono {Φ : Spec S σ} (hΦ : Φ.Mono) (m : Prog S α) {s : σ} {Q Q' : α → σ → Prop}
    (hQ : ∀ a t, Q a t → Q' a t) (h : wp Φ m s Q) : wp Φ m s Q' := by
  induction m generalizing s with
  | ret a => exact hQ a s h
  | op o k ih => exact hΦ o s _ _ (fun r t => ih r) h

theorem wp_weaken {Φ Ψ : Spec S σ} (hΦ : Φ.Mono) (hw : ∀ o s Q, Φ o s Q → Ψ o s Q) (m : Prog S α) {s : σ} {Q : α → σ → Prop}
    (h : wp Φ m s Q) : wp Ψ m s Q := by
  induction m generalizing s with
  | ret a => exact h
  | op o k ih => exact hw o s _ (hΦ o s _ _ (fun r t => ih r) h)

def both {σ τ : Type*} (Φ : Spec S σ) (Ψ : Spec S τ) : Spec S (σ × τ) :=
  fun o x Q => Φ o x.1 (fun r s => Ψ o x.2 (fun r' t => r' = r → Q r (s, t))) ∧ Ψ o x.2 (fun _ _ => True)

theorem wp_both {τ : Type*} {Φ : Spec S σ} {Ψ : Spec S τ} (hΦ : Φ.Mono) (hΨ : Ψ.Mono) (m : Prog S α) {s : σ} {t : τ}
    {Q : α → σ → Prop} {Q' : α → τ → Prop} (h : wp Φ m s Q) (h' : wp Ψ m t Q') :
    wp (both Φ Ψ) m (s, t) (fun a x => Q a x.1 ∧ Q' a x.2) := by
  induction m generalizing s t with
  | ret a => exact ⟨h, h'⟩
  | op o k ih =>
    refine ⟨hΦ o s _ _ (fun r s' hs => hΨ o t _ _ (fun r' t' ht hr => ?_) h') h, hΨ o t _ _ (fun _ _ _ => trivial) h'⟩
    subst hr
    exact ih r' hs ht

section Exec

variable (exec : (o : S.Op) → σ → Except ε (S.Res o × σ))

def run : Prog S α → σ → Except ε (α × σ)
  | .ret a, s => .ok (a, s)
  | .op o k, s => match exec o s with
    | .ok (r, t) => run (k r) t
    | .error e => .error e

variable {exec} in
theorem run_bind (m : Prog S α) (f : α → Prog S β) (s : σ) : run exec (m >>= f) s = (run exec m s).bind (fun x => run exec (f x.1) x.2) := by
  change run exec (m.bind f) s = _
  induction m generalizing s with
  | ret a => rfl
  | op o k ih =>
    simp only [Prog.bind, run]
    cases exec o s with
    | ok x => exact ih x.1 x.2
    | error e => rfl

variable {exec} in
theorem run_bind_congr {f g : α → Prog S β} (h : ∀ a t, run exec (f a) t = run exec (g a) t) (m : Prog S α) (s : σ) :
    run exec (m >>= f) s = run exec (m >>= g) s := by
  rw [run_bind, run_bind]
  cases run exec m s with
  | ok x => exact h x.1 x.2
  | error e => rfl

variable {exec} in
theorem run_cond_congr {c : Prop} [Decidable c] {m n m' n' : Prog S α} {s : σ} (hm : c → run exec m s = run exec m' s)
    (hn : ¬ c → run exec n s = run exec n' s) : run exec (if c then m else n) s = run exec (if c then m' else n') s := by
  by_cases h : c
  · rw [if_pos h, if_pos h]
    exact hm h
  · rw [if_neg h, if_neg h]
    exact hn h

def execSpec (E : ε → Prop) : Spec S σ := fun o s Q =>
  match exec o s with
  | .ok (r, t) => Q r t
  | .error e => E e

theorem execSpec_mono (E : ε → Prop) : (execSpec exec E).Mono := by
  intro o s Q Q' hQ h
  unfold execSpec at h ⊢
  split
  · next r t he => exact hQ r t (by simpa [he] using h)
  · next e he => simpa [he] using h

theorem wp_execSpec (E : ε → Prop) (m : Prog S α) (s : σ) (Q : α → σ → Prop) :
    wp (execSpec exec E) m s Q ↔ match run exec m s with
      | .ok (a, t) => Q a t
      | .error e => E e := by
  induction m generalizing s with
  | ret a => rfl
  | op o k ih =>
    simp only [wp, run, execSpec]
    split
    · next r t he => exact ih r t
    · rfl

end Exec

def Returns (x : Except ε α) (Q : α → Prop) : Prop := ∃ a, x = .ok a ∧ Q a

namespace Returns

variable {x : Except ε α} {f : α → Except ε β} {P Q : α → Prop} {R : β → Prop}

theorem ok {a : α} (h : Q a) : Returns (.ok a : Except ε α) Q := ⟨a, rfl, h⟩

theorem mono (h : Returns x P) (hQ : ∀ a, P a → Q a) : Returns x Q := by
  obtain ⟨a, ha, hP⟩ := h
  exact ⟨a, ha, hQ a hP⟩

theorem bind (h : Returns x P) (hf : ∀ a, P a → Returns (f a) R) : Returns (x >>= f) R := by
  obtain ⟨a, rfl, hP⟩ := h
  exact hf a hP

end Returns

end Command
