import EnhancedXv6.Spinlocks

namespace EnhancedXv6.Spinlocks

open ProcTable Transition Machine Op Lock

def nests : List Lock → Lock → Bool
  | [], _ => true
  | [ptable], cons => true
  | [cons], ptable => true
  | [tickslock], ptable => true
  | _, _ => false

def balanced : List Lock → List Op → Bool
  | held, [] => held = []
  | held, acquire l :: ops => nests held l && !held.contains l && balanced (l :: held) ops
  | held, release l :: ops => held.contains l && balanced (held.erase l) ops
  | held, swtch :: ops => held = [ptable] && ops = []

@[simp] theorem balanced_cprintfs (m : ℕ) (ops : List Op) :
    balanced [ptable] (cprintfs m ++ ops) = balanced [ptable] ops := by
  induction m with
  | zero => rfl
  | succ m ih => exact ih

@[simp] theorem balanced_logs (b : Build) (m : ℕ) (ops : List Op) :
    balanced [ptable] (logs b m ++ ops) = balanced [ptable] ops := by
  unfold logs
  split_ifs
  · exact balanced_cprintfs m ops
  · rfl

@[simp] theorem balanced_wakeups (m : ℕ) (ops : List Op) :
    balanced [cons] ((List.replicate m wakeup).flatten ++ ops) = balanced [cons] ops := by
  induction m with
  | zero => rfl
  | succ m ih => exact ih

theorem Section.balanced (b : Build) (x : Section) : Spinlocks.balanced [] (x.ops b) := by
  cases x with
  | exit => rfl
  | fork =>
    change Spinlocks.balanced [ptable] (logs b 1 ++ _) = true
    rw [balanced_logs]; decide
  | getPsData used =>
    change Spinlocks.balanced [ptable] (cprintfs (used + 1) ++ _) = true
    rw [balanced_cprintfs]; decide
  | yield => rfl
  | wait sleeps => cases sleeps <;> rfl
  | sleep => rfl
  | sysSleep sleeps => cases sleeps <;> rfl
  | consoleread sleeps => cases sleeps <;> rfl
  | consolewrite => rfl
  | wakeup => rfl
  | consoleintr lines =>
    change Spinlocks.balanced [cons] ((List.replicate lines _).flatten ++ _) = true
    rw [balanced_wakeups]; decide
  | timer => rfl
  | schedule aged found =>
    change Spinlocks.balanced [ptable] (logs b aged ++ _) = true
    rw [balanced_logs]
    cases found <;> decide

theorem Resume.balanced (b : Build) (r : Resume) : Spinlocks.balanced [ptable] (r.ops b) := by
  cases r with
  | scheduler demoted found =>
    change Spinlocks.balanced [ptable] (logs b _ ++ _) = true
    rw [balanced_logs]
    split_ifs <;> decide
  | process sleeps => cases sleeps <;> rfl

namespace State

variable {n : ℕ} {s s' : State n} {l : Lock} {b : Build}

def Holds (s : State n) (c : Fin n) (held : List Lock) : Prop :=
  held.Nodup ∧ ∀ l, l ∈ held ↔ s.holder l = some c

def Ordered (s : State n) : Prop := ∀ c, ∃ held, s.Holds c held ∧ balanced held (s.cpu c).todo

theorem Holds.acquire {c d : Fin n} {held : List Lock} {ops : List Op}
    (h : s.Holds d held) (hl : s.holder l = none) :
    ({ s.setTodo c ops with holder := Function.update s.holder l (some c) } : State n).Holds d
      (if d = c then l :: held else held) := by
  have hn : l ∉ held := fun hm => by rw [(h.2 l).mp hm] at hl; cases hl
  split_ifs with e
  · subst e
    refine ⟨List.nodup_cons.mpr ⟨hn, h.1⟩, fun m => ?_⟩
    by_cases em : m = l
    · subst em; simp
    · simp [em, h.2]
  · refine ⟨h.1, fun m => ?_⟩
    by_cases em : m = l
    · subst em; simp [hn, Ne.symm e]
    · simp [em, h.2]

theorem Holds.release {c d : Fin n} {held : List Lock} {ops : List Op}
    (h : s.Holds d held) (hl : s.holder l = some c) :
    ({ s.setTodo c ops with holder := Function.update s.holder l none } : State n).Holds d
      (if d = c then held.erase l else held) := by
  split_ifs with e
  · refine ⟨h.1.erase l, fun m => ?_⟩
    rw [h.1.mem_erase_iff]
    by_cases em : m = l
    · subst em; simp
    · simp [em, h.2]
  · have hn : l ∉ held := fun hm => e (Option.some.inj (((h.2 l).mp hm).symm.trans hl))
    refine ⟨h.1, fun m => ?_⟩
    by_cases em : m = l
    · subst em; simp [hn]
    · simp [em, h.2]

theorem Ordered.step {l : Label n} (h : s.Ordered) (hs : s.step b l = some s') :
    s'.Ordered := by
  intro d
  obtain ⟨held, hh, hsc⟩ := h d
  cases l with
  | enter c x =>
    simp only [State.step] at hs
    split_ifs at hs with hg
    cases hs
    by_cases e : d = c
    · subst e
      rw [hg.1] at hsc
      obtain rfl : held = [] := by simpa [balanced] using hsc
      exact ⟨[], hh, by simpa [setTodo] using x.balanced b⟩
    · exact ⟨held, hh, by simpa [setTodo, e] using hsc⟩
  | acquire c =>
    simp only [State.step] at hs
    split at hs
    · rename_i l ops htodo
      split_ifs at hs with hg
      cases hs
      refine ⟨_, hh.acquire hg, ?_⟩
      by_cases e : d = c
      · subst e
        rw [htodo, balanced, Bool.and_eq_true] at hsc
        simpa [setTodo] using hsc.2
      · simpa [setTodo, e] using hsc
    · cases hs
  | release c =>
    simp only [State.step] at hs
    split at hs
    · rename_i l ops htodo
      split_ifs at hs with hg
      cases hs
      refine ⟨_, hh.release hg, ?_⟩
      by_cases e : d = c
      · subst e
        rw [htodo, balanced, Bool.and_eq_true] at hsc
        simpa [setTodo] using hsc.2
      · simpa [setTodo, e] using hsc
    · cases hs
  | swtch c r =>
    simp only [State.step] at hs
    split_ifs at hs with hg
    cases hs
    by_cases e : d = c
    · subst e
      rw [hg.1] at hsc
      obtain rfl : held = [ptable] := by simpa [balanced] using hsc
      exact ⟨[ptable], hh, by simpa using r.balanced b⟩
    · exact ⟨held, hh, by simpa [e] using hsc⟩

def Prints (s : State n) (c : Fin n) : Prop := s.holder ptable = some c ∧ acquire cons ∈ (s.cpu c).todo

def Wakes (s : State n) (c : Fin n) : Prop := s.holder cons = some c ∧ acquire ptable ∈ (s.cpu c).todo

def Apart (b : Build) (s : State n) : Label n → Prop
  | .acquire c =>
    ((s.cpu c).todo.head? = some (acquire ptable) → acquire cons ∈ (s.cpu c).todo.tail → ∀ d, ¬ s.Wakes d) ∧
      ((s.cpu c).todo.head? = some (acquire cons) → acquire ptable ∈ (s.cpu c).todo.tail → ∀ d, ¬ s.Prints d)
  | .swtch _ r => acquire cons ∈ r.ops b → ∀ d, ¬ s.Wakes d
  | _ => True

theorem Ordered.not_cyclicWait (h : s.Ordered) (ha : ∀ c d, s.Prints c → ¬ s.Wakes d) :
    ¬ s.CyclicWait := by
  have hwant : ∀ c l m, s.wants c = some l → s.holder m = some c →
      (l = cons ∧ m = ptable ∧ s.Prints c) ∨ (l = ptable ∧ m = cons ∧ s.Wakes c) ∨
        (l = ptable ∧ m = tickslock) := by
    intro c l m hl hm
    obtain ⟨held, hh, hb⟩ := h c
    have hmem := (hh.2 m).mpr hm
    unfold wants at hl
    split at hl
    · rename_i l' ops htodo
      obtain rfl : l' = l := Option.some.inj hl
      rw [htodo, balanced, Bool.and_eq_true, Bool.and_eq_true] at hb
      have hn := hb.1.1
      unfold nests at hn
      split at hn
      · simp at hmem
      · obtain rfl : m = ptable := by simpa using hmem
        exact .inl ⟨rfl, rfl, hm, by simp [htodo]⟩
      · obtain rfl : m = cons := by simpa using hmem
        exact .inr (.inl ⟨rfl, rfl, hm, by simp [htodo]⟩)
      · obtain rfl : m = tickslock := by simpa using hmem
        exact .inr (.inr ⟨rfl, rfl⟩)
      · cases hn
    · cases hl
  by_cases hw : ∃ d, s.Wakes d
  · obtain ⟨d, hd⟩ := hw
    refine Deadlock.not_deadlocked_of_rank (α := ℕ)
      (fun | tickslock => 0 | cons => 1 | ptable => 2) (fun c l m hl hm => ?_)
    rcases hwant c l m hl hm with ⟨-, -, hp⟩ | ⟨rfl, rfl, -⟩ | ⟨rfl, rfl⟩
    · exact absurd hd (ha c d hp)
    · decide
    · decide
  · refine Deadlock.not_deadlocked_of_rank (α := ℕ)
      (fun | tickslock => 0 | ptable => 1 | cons => 2) (fun c l m hl hm => ?_)
    rcases hwant c l m hl hm with ⟨rfl, rfl, -⟩ | ⟨-, -, hp⟩ | ⟨rfl, rfl⟩
    · decide
    · exact absurd ⟨c, hp⟩ hw
    · decide

theorem nested_of_step {x : Label n} (h : s.Ordered) (hs : s.step b x = some s')
    {m : Lock} {e : Fin n} (he : s'.holder l = some e ∧ acquire m ∈ (s'.cpu e).todo) :
    (s.holder l = some e ∧ acquire m ∈ (s.cpu e).todo) ∨
      (x = .acquire e ∧ (s.cpu e).todo.head? = some (acquire l) ∧ acquire m ∈ (s.cpu e).todo.tail) ∨
      (∃ r, x = .swtch e r ∧ acquire m ∈ r.ops b ∧ l = ptable) := by
  cases x with
  | enter c x =>
    simp only [State.step] at hs
    split_ifs at hs with hg
    cases hs
    by_cases ec : e = c
    · subst ec
      obtain ⟨held, hh, hb⟩ := h e
      rw [hg.1] at hb
      obtain rfl : held = [] := by simpa [balanced] using hb
      exact absurd ((hh.2 l).mpr he.1) List.not_mem_nil
    · exact .inl ⟨he.1, by simpa [setTodo, ec] using he.2⟩
  | acquire c =>
    simp only [State.step] at hs
    split at hs
    · rename_i k ops htodo
      split_ifs at hs with hg
      cases hs
      by_cases el : l = k
      · subst el
        obtain rfl : c = e := by simpa using he.1
        exact .inr (.inl ⟨rfl, by simp [htodo], by simpa [setTodo, htodo] using he.2⟩)
      · refine .inl ⟨by simpa [el] using he.1, ?_⟩
        by_cases ec : e = c
        · subst ec
          have hm : acquire m ∈ ops := by simpa [setTodo] using he.2
          simp [htodo, hm]
        · simpa [setTodo, ec] using he.2
    · cases hs
  | release c =>
    simp only [State.step] at hs
    split at hs
    · rename_i k ops htodo
      split_ifs at hs with hg
      cases hs
      have hl : l ≠ k := by
        rintro rfl
        simp at he
      refine .inl ⟨by simpa [hl] using he.1, ?_⟩
      by_cases ec : e = c
      · subst ec
        have hm : acquire m ∈ ops := by simpa [setTodo] using he.2
        simp [htodo, hm]
      · simpa [setTodo, ec] using he.2
    · cases hs
  | swtch c r =>
    simp only [State.step] at hs
    split_ifs at hs with hg
    cases hs
    by_cases ec : e = c
    · subst ec
      obtain ⟨held, hh, hb⟩ := h e
      rw [hg.1] at hb
      obtain rfl : held = [ptable] := by simpa [balanced] using hb
      have hl : l = ptable := by simpa using (hh.2 l).mpr he.1
      exact .inr (.inr ⟨r, rfl, by simpa using he.2, hl⟩)
    · exact .inl ⟨he.1, by simpa [ec] using he.2⟩

theorem Apart.step {x : Label n} (h : s.Ordered)
    (ha : ∀ c d, s.Prints c → ¬ s.Wakes d) (hx : s.Apart b x) (hs : s.step b x = some s') :
    ∀ c d, s'.Prints c → ¬ s'.Wakes d := by
  intro c d hp hw
  rcases nested_of_step h hs hp with hp | ⟨rfl, hh, ht⟩ | ⟨r, rfl, hr, -⟩ <;>
    rcases nested_of_step h hs hw with hw | ⟨hx', hh', ht'⟩ | ⟨r', -, -, hl⟩
  · exact ha c d hp hw
  · subst hx'
    exact hx.2 hh' ht' c hp
  · cases hl
  · exact hx.1 hh ht d hw
  · obtain rfl : c = d := by simpa using hx'
    rw [hh] at hh'
    cases hh'
  · cases hl
  · exact hx hr d hw
  · cases hx'
  · cases hl

end State

variable {n : ℕ}

theorem reachable_ordered {b : Build} {s : State n} (h : (machine b n).ReachableWhere (State.Apart b) s) :
    s.Ordered ∧ ∀ c d, s.Prints c → ¬ s.Wakes d := by
  refine h.invariant (P := fun s => s.Ordered ∧ ∀ c d, s.Prints c → ¬ s.Wakes d) ?_ ?_
  · rintro s rfl
    exact ⟨fun c => ⟨[], ⟨List.nodup_nil, by simp⟩, rfl⟩, fun c d hp => by simp [State.Prints] at hp⟩
  · intro s l t _ hp hc hs
    exact ⟨hp.1.step hs, hc.step hp.1 hp.2 hs⟩

theorem not_cyclicWait_of_apart (b : Build) (s : State n)
    (h : (machine b n).ReachableWhere (State.Apart b) s) : ¬ s.CyclicWait := by
  obtain ⟨ho, ha⟩ := reachable_ordered h
  exact ho.not_cyclicWait ha

instance (b : Build) (s : State n) (l : Label n) : Decidable (s.Apart b l) := by
  unfold State.Apart State.Wakes State.Prints
  split <;> infer_instance

def dispatched [NeZero n] : List (Label n) :=
  [.enter 0 (.schedule 0 true), .acquire 0, .swtch 0 (.process false), .release 0]

theorem not_cyclicWait_exit_waits :
    ∃ s : State 2, Deadlock.WaitsFor s.wants s.holder 0 1 ∧ ¬ s.CyclicWait := by
  have hrun : ((machine .rr 2).runWhere (State.Apart .rr) {}
      (dispatched ++ [.enter 0 .exit, .acquire 0, .enter 1 (.consoleintr 0), .acquire 1])).any (fun s =>
        s.wants 0 = some cons && s.holder cons = some 1) := by decide +kernel
  obtain ⟨s, hr, hp⟩ := exists_reachableWhere rfl hrun
  rw [Bool.and_eq_true, decide_eq_true_eq, decide_eq_true_eq] at hp
  exact ⟨s, ⟨cons, hp⟩, not_cyclicWait_of_apart .rr s hr⟩

theorem exit_consoleintr_cyclicWait : ∃ s : State 2, (machine .rr 2).Reachable s ∧ s.CyclicWait := by
  have hrun : ((machine .rr 2).run {}
      (dispatched ++ [.enter 0 .exit, .acquire 0, .enter 1 (.consoleintr 1), .acquire 1])).any (fun s =>
        s.wants 0 = some cons && s.holder cons = some 1 && s.wants 1 = some ptable && s.holder ptable = some 0) := by
    decide +kernel
  obtain ⟨s, hr, hp⟩ := exists_reachable rfl hrun
  simp only [Bool.and_eq_true, decide_eq_true_eq] at hp
  obtain ⟨⟨⟨h0, h1⟩, h2⟩, h3⟩ := hp
  exact ⟨s, hr, 0, .tail (.single ⟨cons, h0, h1⟩) ⟨ptable, h2, h3⟩⟩

end EnhancedXv6.Spinlocks
