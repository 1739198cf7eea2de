
import EnhancedXv6.Threads

namespace EnhancedXv6.Threads

open Function (update update_of_ne update_self)
open ProcTable Table Scheduler Transition

def Making.slot : Making → Option Slot
  | .idle => none
  | .alloced np => some np
  | .inited np => some np
  | .copied np => some np

def Ctl.Holds (x : Ctl) : Prop := x = .swtchIn ∨ x = .swtchOut

def Ctl.Fits : Ctl → ProcState → Prop
  | .boot, _ => False
  | .idle, _ => False
  | .swtchOut, s => s = .runnable ∨ s = .sleeping ∨ s = .zombie
  | _, s => s = .running

structure Life {n : ℕ} (st : Slot → ProcState) (cpu : Fin n → Cpu) (making : Option Slot → Making) :
    Prop where
  onCpu : ∀ c p, (cpu c).proc = some p → (cpu c).ctl.Fits (st p)
  offCpu : ∀ c, (cpu c).proc = none → (cpu c).ctl = .boot ∨ (cpu c).ctl = .idle
  running : ∀ p, st p = .running → ∃ c, (cpu c).proc = some p
  single : ∀ c d p, (cpu c).proc = some p → (cpu d).proc = some p → c = d
  lock : ∀ c d, (cpu c).ctl.Holds → (cpu d).ctl.Holds → c = d
  embryo : ∀ key np, (making key).slot = some np → st np = .embryo
  owner : ∀ key key' np, (making key).slot = some np → (making key').slot = some np → key = key'
  maker : ∀ p, making (some p) ≠ .idle → st p = .runnable ∨ st p = .running

namespace Life

variable {n : ℕ} {st : Slot → ProcState} {cpu : Fin n → Cpu} {making : Option Slot → Making} {c : Fin n} {p : Slot}

theorem wake (h : Life st cpu making) {st' : Slot → ProcState}
    (hs : ∀ p, st' p = st p ∨ (st p = .sleeping ∧ st' p = .runnable)) : Life st' cpu making where
  onCpu c p hp := by
    have hf := h.onCpu c p hp
    rcases hs p with e | ⟨e, e'⟩
    · rw [e]; exact hf
    · rw [e'] ; rw [e] at hf
      cases hc : (cpu c).ctl <;> simp_all [Ctl.Fits]
  offCpu := h.offCpu
  running p hp := h.running p (by rcases hs p with e | ⟨-, e⟩ <;> simp_all)
  single := h.single
  lock := h.lock
  embryo key np hk := by
    have he := h.embryo key np hk
    rcases hs np with e | ⟨e, -⟩ <;> simp_all
  owner := h.owner
  maker p hp := by
    rcases hs p with e | ⟨-, e⟩
    · rw [e]; exact h.maker p hp
    · exact .inl e

theorem leave (h : Life st cpu making) {s : ProcState}
    (hp : (cpu c).proc = some p) (hr : st p = .running)
    (hf : ∀ d, d ≠ c → ¬ (cpu d).ctl.Holds)
    (hs : s = .runnable ∨ ((s = .sleeping ∨ s = .zombie) ∧ making (some p) = .idle)) :
    Life (update st p s) (update cpu c { cpu c with ctl := .swtchOut }) making where
  onCpu d q hq := by
    by_cases hd : d = c
    · subst hd
      simp only [update_self] at hq ⊢
      have hqp : q = p := Option.some.inj (hq.symm.trans hp)
      simp only [hqp, update_self, Ctl.Fits]
      tauto
    · simp only [update_of_ne hd] at hq ⊢
      have hne : q ≠ p := fun e => hd (h.single d c p (e ▸ hq) hp)
      rw [update_of_ne hne]
      exact h.onCpu d q hq
  offCpu d hd := by
    by_cases e : d = c
    · subst e; simp only [update_self, hp] at hd; cases hd
    · simp only [update_of_ne e] at hd ⊢; exact h.offCpu d hd
  running q hq := by
    have hne : q ≠ p := by
      rintro rfl
      simp only [update_self] at hq
      rcases hs with e | ⟨e | e, -⟩ <;> simp_all
    rw [update_of_ne hne] at hq
    obtain ⟨d, hd⟩ := h.running q hq
    have hdc : d ≠ c := by rintro rfl; exact hne (Option.some.inj (hd.symm.trans hp))
    exact ⟨d, by rw [update_of_ne hdc]; exact hd⟩
  single d e q hd he := by
    apply h.single d e q
    · by_cases x : d = c
      · subst x; simpa using hd
      · simpa [x] using hd
    · by_cases x : e = c
      · subst x; simpa using he
      · simpa [x] using he
  lock d e hd he := by
    have key : ∀ x, ((update cpu c { cpu c with ctl := .swtchOut }) x).ctl.Holds → x = c := by
      intro x hx
      by_contra hne
      rw [update_of_ne hne] at hx
      exact hf x hne hx
    rw [key d hd, key e he]
  embryo key np hk := by
    have he := h.embryo key np hk
    have hne : np ≠ p := by rintro rfl; rw [hr] at he; cases he
    rw [update_of_ne hne]; exact he
  owner := h.owner
  maker q hq := by
    by_cases e : q = p
    · subst e
      simp only [update_self]
      rcases hs with e | ⟨-, e⟩
      · exact .inl e
      · exact absurd e hq
    · rw [update_of_ne e]; exact h.maker q hq

theorem move (h : Life st cpu making) {x : Ctl}
    (hc : ∀ s, (cpu c).ctl.Fits s → s = .running) (hn : (cpu c).ctl ≠ .boot ∧ (cpu c).ctl ≠ .idle)
    (hx : x = .user ∨ x = .trap ∨ x = .demote) :
    Life st (update cpu c { cpu c with ctl := x }) making where
  onCpu d q hq := by
    by_cases hd : d = c
    · subst hd
      simp only [update_self] at hq ⊢
      have hr := hc _ (h.onCpu d q hq)
      rcases hx with rfl | rfl | rfl <;> exact hr
    · simp only [update_of_ne hd] at hq ⊢
      exact h.onCpu d q hq
  offCpu d hd := by
    by_cases e : d = c
    · subst e
      simp only [update_self] at hd
      rcases h.offCpu d hd with e | e
      · exact absurd e hn.1
      · exact absurd e hn.2
    · simp only [update_of_ne e] at hd ⊢; exact h.offCpu d hd
  running q hq := by
    obtain ⟨d, hd⟩ := h.running q hq
    refine ⟨d, ?_⟩
    by_cases e : d = c
    · subst e; simpa using hd
    · simpa [e] using hd
  single d e q hd he := by
    apply h.single d e q
    · by_cases x : d = c
      · subst x; simpa using hd
      · simpa [x] using hd
    · by_cases x : e = c
      · subst x; simpa using he
      · simpa [x] using he
  lock d e hd he := by
    have key : ∀ y, ((update cpu c { cpu c with ctl := x }) y).ctl.Holds → (cpu y).ctl.Holds := by
      intro y hy
      by_cases e : y = c
      · subst e
        simp only [update_self, Ctl.Holds] at hy
        rcases hx with rfl | rfl | rfl <;> rcases hy with hy | hy <;> cases hy
      · simpa [e] using hy
    exact h.lock d e (key d hd) (key e he)
  embryo := h.embryo
  owner := h.owner
  maker := h.maker

theorem drop (h : Life st cpu making) {y : Cpu} (hc : (cpu c).ctl = .swtchOut ∨ (cpu c).ctl = .boot)
    (hy : y.proc = none ∧ y.ctl = .idle) : Life st (update cpu c y) making where
  onCpu d q hq := by
    by_cases hd : d = c
    · subst hd; simp only [update_self, hy.1] at hq; cases hq
    · simp only [update_of_ne hd] at hq ⊢; exact h.onCpu d q hq
  offCpu d hd := by
    by_cases e : d = c
    · subst e; simp [hy.2]
    · simp only [update_of_ne e] at hd ⊢; exact h.offCpu d hd
  running q hq := by
    obtain ⟨d, hd⟩ := h.running q hq
    have hdc : d ≠ c := by
      rintro rfl
      have hf := h.onCpu d q hd
      rcases hc with hc | hc <;> simp [hc, hq, Ctl.Fits] at hf
    exact ⟨d, by rw [update_of_ne hdc]; exact hd⟩
  single d e q hd he := by
    have key : ∀ x, (update cpu c y x).proc = some q → (cpu x).proc = some q := by
      intro x hx
      by_cases e : x = c
      · subst e; simp only [update_self, hy.1] at hx; cases hx
      · simpa [e] using hx
    exact h.single d e q (key d hd) (key e he)
  lock d e hd he := by
    have key : ∀ x, (update cpu c y x).ctl.Holds → (cpu x).ctl.Holds := by
      intro x hx
      by_cases e : x = c
      · subst e; simp [hy.2, Ctl.Holds] at hx
      · simpa [e] using hx
    exact h.lock d e (key d hd) (key e he)
  embryo := h.embryo
  owner := h.owner
  maker := h.maker

theorem enter (h : Life st cpu making) (hc : (cpu c).proc = none)
    (hf : ∀ d, d ≠ c → ¬ (cpu d).ctl.Holds) (hr : st p = .runnable) :
    Life (update st p .running)
      (update cpu c { cpu c with proc := some p, ctl := .swtchIn }) making := by
  have hfree : ∀ d, (cpu d).proc ≠ some p := by
    intro d hd
    by_cases e : d = c
    · subst e; rw [hc] at hd; cases hd
    · have hx := h.onCpu d p hd
      have hn := hf d e
      rw [hr] at hx
      cases hk : (cpu d).ctl <;> simp_all [Ctl.Fits, Ctl.Holds]
  exact {
    onCpu := by
      intro d q hq
      by_cases e : d = c
      · subst e
        simp only [update_self, Option.some.injEq] at hq ⊢
        subst hq
        simp [Ctl.Fits]
      · simp only [update_of_ne e] at hq ⊢
        have hne : q ≠ p := by rintro rfl; exact hfree d hq
        rw [update_of_ne hne]
        exact h.onCpu d q hq
    offCpu := by
      intro d hd
      by_cases e : d = c
      · subst e; simp at hd
      · simp only [update_of_ne e] at hd ⊢; exact h.offCpu d hd
    running := by
      intro q hq
      by_cases e : q = p
      · exact ⟨c, by simp [e]⟩
      · rw [update_of_ne e] at hq
        obtain ⟨d, hd⟩ := h.running q hq
        have hdc : d ≠ c := by rintro rfl; rw [hc] at hd; cases hd
        exact ⟨d, by rw [update_of_ne hdc]; exact hd⟩
    single := by
      intro d e q hd he
      by_cases x : d = c <;> by_cases y : e = c
      · rw [x, y]
      · subst x
        simp only [update_self, update_of_ne y, Option.some.injEq] at hd he
        subst hd
        exact absurd he (hfree e)
      · subst y
        simp only [update_self, update_of_ne x, Option.some.injEq] at hd he
        subst he
        exact absurd hd (hfree d)
      · simp only [update_of_ne x, update_of_ne y] at hd he
        exact h.single d e q hd he
    lock := by
      have key : ∀ x, (update cpu c { cpu c with proc := some p, ctl := .swtchIn } x).ctl.Holds →
          x = c := by
        intro x hx
        by_contra hne
        rw [update_of_ne hne] at hx
        exact hf x hne hx
      intro d e hd he
      rw [key d hd, key e he]
    embryo := by
      intro key np hk
      have he := h.embryo key np hk
      have hne : np ≠ p := by rintro rfl; rw [hr] at he; cases he
      rw [update_of_ne hne]; exact he
    owner := h.owner
    maker := by
      intro q hq
      by_cases e : q = p
      · subst e; simp
      · rw [update_of_ne e]; exact h.maker q hq }

theorem setSlot (h : Life st cpu making) {s : ProcState}
    (hp : ∀ c, (cpu c).proc ≠ some p) (hm : making (some p) = .idle)
    (hk : ∀ key, (making key).slot ≠ some p) (hs : s ≠ .running) :
    Life (update st p s) cpu making where
  onCpu c q hq := by
    have hne : q ≠ p := by rintro rfl; exact hp c hq
    rw [update_of_ne hne]; exact h.onCpu c q hq
  offCpu := h.offCpu
  running q hq := by
    by_cases e : q = p
    · subst e; simp only [update_self] at hq; exact absurd hq hs
    · rw [update_of_ne e] at hq; exact h.running q hq
  single := h.single
  lock := h.lock
  embryo key np hn := by
    have hne : np ≠ p := by rintro rfl; exact hk key hn
    rw [update_of_ne hne]; exact h.embryo key np hn
  owner := h.owner
  maker q hq := by
    have hne : q ≠ p := by rintro rfl; exact hq hm
    rw [update_of_ne hne]; exact h.maker q hq

theorem setMaking (h : Life st cpu making) {key : Option Slot} {m : Making}
    (hm : ∀ np, m.slot = some np → st np = .embryo ∧ ∀ key', key' ≠ key → (making key').slot ≠ some np)
    (hk : m ≠ .idle → ∀ p, key = some p → st p = .runnable ∨ st p = .running) :
    Life st cpu (update making key m) where
  onCpu := h.onCpu
  offCpu := h.offCpu
  running := h.running
  single := h.single
  lock := h.lock
  embryo key' np hn := by
    by_cases e : key' = key
    · subst e; simp only [update_self] at hn; exact (hm np hn).1
    · rw [update_of_ne e] at hn; exact h.embryo key' np hn
  owner a b np ha hb := by
    by_cases x : a = key <;> by_cases y : b = key
    · rw [x, y]
    · subst x
      rw [update_self] at ha
      rw [update_of_ne y] at hb
      exact absurd hb ((hm np ha).2 b y)
    · subst y
      rw [update_self] at hb
      rw [update_of_ne x] at ha
      exact absurd ha ((hm np hb).2 a x)
    · rw [update_of_ne x] at ha
      rw [update_of_ne y] at hb
      exact h.owner a b np ha hb
  maker p hp := by
    by_cases e : (some p) = key
    · subst e; simp only [update_self] at hp; exact hk hp p rfl
    · rw [update_of_ne e] at hp; exact h.maker p hp

end Life

end EnhancedXv6.Threads
