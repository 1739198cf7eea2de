import Mathlib.Data.List.Basic
import Mathlib.Data.Prod.Basic

namespace Transition

/-- A machine whose labels resolve all of its nondeterminism: `next` is `none` when the labelled step is not enabled. -/
structure Machine (σ ℓ : Type*) where
  initial : σ → Prop
  next : σ → ℓ → Option σ

namespace Machine

variable {σ ℓ γ : Type*} (M : Machine σ ℓ) {s t : σ} {C : σ → ℓ → Prop} {P : σ → Prop} {ls : List ℓ}

def run : σ → List ℓ → Option σ
  | s, [] => some s
  | s, l :: ls => (M.next s l).bind (fun t => run t ls)

inductive ReachableWhere (C : σ → ℓ → Prop) : σ → Prop
  | initial {s : σ} (h : M.initial s) : ReachableWhere C s
  | step {s t : σ} {l : ℓ} (hs : ReachableWhere C s) (hc : C s l) (h : M.next s l = some t) :
      ReachableWhere C t

def Reachable : σ → Prop := M.ReachableWhere (fun _ _ => True)

variable {M}

theorem Reachable.next {l : ℓ} (hs : M.Reachable s) (h : M.next s l = some t) :
    M.Reachable t := ReachableWhere.step hs trivial h

theorem ReachableWhere.mono {D : σ → ℓ → Prop} (hCD : ∀ s l, C s l → D s l)
    (h : M.ReachableWhere C s) : M.ReachableWhere D s := by
  induction h with
  | initial h => exact .initial h
  | step _ hc h ih => exact .step ih (hCD _ _ hc) h

theorem ReachableWhere.reachable (h : M.ReachableWhere C s) :
    M.Reachable s := h.mono (fun _ _ _ => trivial)

theorem ReachableWhere.invariant
    (h : M.ReachableWhere C s) (h0 : ∀ s, M.initial s → P s)
    (hstep : ∀ s l t, M.ReachableWhere C s → P s → C s l → M.next s l = some t → P t) : P s := by
  induction h with
  | initial h => exact h0 _ h
  | step hs hc h ih => exact hstep _ _ _ hs ih hc h

theorem Reachable.invariant (h : M.Reachable s)
    (h0 : ∀ s, M.initial s → P s) (hstep : ∀ s l t, P s → M.next s l = some t → P t) : P s :=
  ReachableWhere.invariant h h0 (fun s l t _ hp _ hn => hstep s l t hp hn)

@[simp] theorem run_nil (s : σ) : M.run s [] = some s := rfl

theorem run_cons (s : σ) (l : ℓ) (ls : List ℓ) :
    M.run s (l :: ls) = (M.next s l).bind (fun t => M.run t ls) := rfl

theorem run_append (s : σ) (ls ks : List ℓ) :
    M.run s (ls ++ ks) = (M.run s ls).bind (fun t => M.run t ks) := by
  induction ls generalizing s with
  | nil => rfl
  | cons l ls ih =>
    simp only [List.cons_append, run_cons]
    cases M.next s l with
    | none => rfl
    | some t => exact ih t

theorem Reachable.run (hs : M.Reachable s) (h : M.run s ls = some t) :
    M.Reachable t := by
  induction ls generalizing s with
  | nil => cases h; exact hs
  | cons l ls ih =>
    obtain ⟨u, hu, ht⟩ := Option.bind_eq_some_iff.mp h
    exact ih (hs.next hu) ht

variable (M)

def runWhere (C : σ → ℓ → Prop) [∀ s l, Decidable (C s l)] : σ → List ℓ → Option σ
  | s, [] => some s
  | s, l :: ls => if C s l then (M.next s l).bind (fun t => runWhere C t ls) else none

variable {M}

theorem ReachableWhere.runWhere [∀ s l, Decidable (C s l)]
    (hs : M.ReachableWhere C s) (h : M.runWhere C s ls = some t) : M.ReachableWhere C t := by
  induction ls generalizing s with
  | nil => cases h; exact hs
  | cons l ls ih =>
    rw [Machine.runWhere] at h
    split_ifs at h with hc
    obtain ⟨u, hu, ht⟩ := Option.bind_eq_some_iff.mp h
    exact ih (.step hs hc hu) ht

theorem exists_reachableWhere [∀ s l, Decidable (C s l)] {w : List ℓ} {P : σ → Bool}
    (hs : M.initial s) (h : (M.runWhere C s w).any P) : ∃ t, M.ReachableWhere C t ∧ P t := by
  cases hr : M.runWhere C s w with
  | none => simp [hr] at h
  | some t => exact ⟨t, ReachableWhere.runWhere (.initial hs) hr, by simpa [hr] using h⟩

theorem exists_reachable {w : List ℓ} {P : σ → Bool} (hs : M.initial s) (h : (M.run s w).any P) :
    ∃ t, M.Reachable t ∧ P t := by
  cases hr : M.run s w with
  | none => simp [hr] at h
  | some t => exact ⟨t, Reachable.run (.initial hs) hr, by simpa [hr] using h⟩

variable (M)

inductive Trace (C : σ → ℓ → Prop) (s : σ) : List σ → Prop
  | start : Trace C s [s]
  | step {t u : σ} {l : ℓ} {ss : List σ} (h : Trace C s (t :: ss)) (hc : C t l) (hn : M.next t l = some u) :
      Trace C s (u :: t :: ss)

def visit (C : σ → ℓ → Prop) [∀ s l, Decidable (C s l)] : List σ → List ℓ → Option (List σ)
  | ss, [] => some ss
  | [], _ => none
  | t :: ss, l :: ls => if C t l then (M.next t l).bind (fun u => visit C (u :: t :: ss) ls) else none

variable {M}

theorem Trace.invariant {I : σ → Prop} {ss : List σ} (h : M.Trace C s (t :: ss))
    (hI : ∀ x ∈ t :: ss, I x) (h0 : P s)
    (hstep : ∀ t l u, I t → I u → P t → C t l → M.next t l = some u → P u) : P t := by
  generalize hl : t :: ss = ts at h hI
  induction h generalizing t ss with
  | start => cases hl; exact h0
  | @step t u l ss h hc hn ih =>
    cases hl
    have ht := ih rfl (fun x hx => hI x (List.mem_cons_of_mem _ hx))
    exact hstep t l u (hI t (by simp)) (hI u (by simp)) ht hc hn

theorem Trace.visit [∀ s l, Decidable (C s l)] {ss ts : List σ}
    (h : M.Trace C s ss) (hv : M.visit C ss ls = some ts) : M.Trace C s ts := by
  induction ls generalizing ss with
  | nil => cases ss <;> cases hv <;> exact h
  | cons l ls ih =>
    cases ss with
    | nil => cases hv
    | cons t ss =>
      rw [Machine.visit] at hv
      split_ifs at hv with hc
      obtain ⟨u, hu, ht⟩ := Option.bind_eq_some_iff.mp hv
      exact ih (.step h hc hu) ht

variable (M)

def history (g : γ) (update : γ → σ → ℓ → σ → γ) : Machine (σ × γ) ℓ where
  initial s := M.initial s.1 ∧ s.2 = g
  next s l := (M.next s.1 l).map (fun t => (t, update s.2 s.1 l t))

variable {M}

theorem history_next {g : γ} {update : γ → σ → ℓ → σ → γ} {s t : σ × γ} {l : ℓ}
    (h : (M.history g update).next s l = some t) :
    M.next s.1 l = some t.1 ∧ t.2 = update s.2 s.1 l t.1 := by
  obtain ⟨u, hu, rfl⟩ := Option.map_eq_some_iff.mp h
  exact ⟨hu, rfl⟩

theorem history_reachableWhere {g : γ} {update : γ → σ → ℓ → σ → γ} {s : σ × γ}
    (h : (M.history g update).ReachableWhere (fun s l => C s.1 l) s) : M.ReachableWhere C s.1 :=
  ReachableWhere.invariant (P := fun s => M.ReachableWhere C s.1) h (fun _ hs => .initial hs.1)
    (fun _ _ _ _ hs hc hn => .step hs hc (history_next hn).1)

theorem history_reachable {g : γ} {update : γ → σ → ℓ → σ → γ} {s : σ × γ}
    (h : (M.history g update).Reachable s) : M.Reachable s.1 := history_reachableWhere h

theorem ReachableWhere.exists_history (h : M.ReachableWhere C s) (g : γ) (update : γ → σ → ℓ → σ → γ) :
    ∃ g', (M.history g update).ReachableWhere (fun s l => C s.1 l) (s, g') := by
  refine h.invariant (P := fun s => ∃ g', (M.history g update).ReachableWhere (fun s l => C s.1 l) (s, g'))
    (fun s hs => ⟨g, .initial ⟨hs, rfl⟩⟩) ?_
  rintro s l t - ⟨g', hg⟩ hc hn
  refine ⟨update g' s l t, .step hg (l := l) hc ?_⟩
  exact congrArg (Option.map (fun t => (t, update g' s l t))) hn

end Machine

end Transition

namespace Transition

namespace Machine

variable {σ τ ℓ μ : Type*}

structure Simulates (M : Machine σ ℓ) (C : σ → ℓ → Prop) (A : Machine τ μ) (vis : ℓ → Option μ) (R : σ → τ → Prop) : Prop where
  next : ∀ {s l t m}, R s m → C s l → M.next s l = some t → ∃ m', A.run m (vis l).toList = some m' ∧ R t m'

theorem Simulates.run {M : Machine σ ℓ} {C : σ → ℓ → Prop} [∀ s l, Decidable (C s l)] {A : Machine τ μ} {vis : ℓ → Option μ}
    {R : σ → τ → Prop} (h : M.Simulates C A vis R) {s t : σ} {m : τ} {w : List ℓ} (hR : R s m) (hr : M.runWhere C s w = some t) :
    ∃ m', A.run m (w.filterMap vis) = some m' ∧ R t m' := by
  induction w generalizing s m with
  | nil =>
    cases hr
    exact ⟨m, rfl, hR⟩
  | cons l w ih =>
    rw [runWhere] at hr
    split_ifs at hr with hc
    obtain ⟨u, hu, hr⟩ := Option.bind_eq_some_iff.mp hr
    obtain ⟨m₁, h₁, hR₁⟩ := h.next hR hc hu
    obtain ⟨m₂, h₂, hR₂⟩ := ih hR₁ hr
    refine ⟨m₂, ?_, hR₂⟩
    have he : (l :: w).filterMap vis = (vis l).toList ++ w.filterMap vis := by
      cases hv : vis l with
      | none => rw [List.filterMap_cons_none hv]; rfl
      | some x => rw [List.filterMap_cons_some hv]; rfl
    rw [he, run_append, h₁, Option.bind_some, h₂]

end Machine

end Transition
