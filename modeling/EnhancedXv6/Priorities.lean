import EnhancedXv6.Writes

namespace EnhancedXv6.ProcTable

open Table

instance : IgnoresState Proc.currPriority := by constructor <;> intros <;> rfl
instance : IgnoresFamily Proc.currPriority := by constructor <;> intros <;> rfl
instance : IgnoresQueue Proc.currPriority := by constructor <;> intros <;> rfl
instance : IgnoresCount Proc.currPriority := ⟨fun _ _ => rfl⟩

theorem setPriority_cases (t : Table) (v pid : ℤ) :
    (t.setPriority v pid).1 = t ∧ (t.setPriority v pid).2 < 0 ∨
      ∃ p, slots.find? (fun p => (t.proc p).pid = pid) = some p ∧ 0 ≤ v ∧ v ≤ 100 ∧
        (t.setPriority v pid).2 = (t.proc p).currPriority ∧
        ((t.setPriority v pid).1.proc p).currPriority = v ∧
        ∀ q, q ≠ p → ((t.setPriority v pid).1.proc q).currPriority = (t.proc q).currPriority := by
  have hf := Frame.resetPbsChances (π := Proc.currPriority) t v
  unfold setPriority
  split_ifs with hv
  · exact .inl ⟨rfl, by simp⟩
  · split
    · exact .inl ⟨rfl, by simp⟩
    · rename_i p hp
      split_ifs with hs
      · exact .inl ⟨rfl, by simp⟩
      · right
        refine ⟨p, hp, by omega, by omega, hf.proc p, ?_, fun q hq => ?_⟩
        · rw [setProc_self]
        · rw [setProc_of_ne _ _ _ _ hq]
          exact hf.proc q

theorem allocprocTail_priority (t : Table) (np p : Slot) :
    ((t.allocprocTail .pbs np).proc p).currPriority = if p = np then 60 else (t.proc p).currPriority := by
  unfold allocprocTail initializeNewFields
  by_cases e : p = np
  · subst e
    simp
  · simp [e]

theorem allocproc_priority {t u : Table} {np : Slot} (ha : t.allocproc = some (u, np)) (p : Slot) :
    (u.proc p).currPriority = if p = np then 60 else (t.proc p).currPriority := by
  obtain ⟨-, rfl⟩ := Threads.Kernel.allocproc_eq ha
  by_cases e : p = np
  · subst e
    simp
  · simp [e]

theorem tick_priority (b : Build) (t : Table) (p : Slot) :
    ((t.tick b).proc p).currPriority = (t.proc p).currPriority := by
  change (tickProc b (t.proc p)).currPriority = _
  unfold tickProc
  split_ifs
  · rfl
  all_goals split <;> rfl

end EnhancedXv6.ProcTable

namespace EnhancedXv6.Threads

open ProcTable Table Scheduler Transition

variable {n : ℕ} {k : Kernel n} {l : Label n} {v : ℤ}

namespace Kernel

def asked (k : Kernel n) : Label n → Option (Slot × ℤ)
  | .setPriority _ v pid =>
    if 0 ≤ (k.table.setPriority v pid).2 then
      (slots.find? (fun p => (k.table.proc p).pid = pid)).map (fun p => (p, v))
    else none
  | _ => none

theorem asked_of_quiet {k : Kernel n} {l : Label n} (h : l.quiet) : k.asked l = none := by
  cases l with
  | setPriority c v pid => cases h
  | _ => rfl

theorem asked_of_initialises {k : Kernel n} {l : Label n} {np : Slot} (h : k.initialises l = some np) :
    k.asked l = none := by
  cases l with
  | setPriority c v pid => cases h
  | _ => rfl

end Kernel

inductive Kernel.Reprices (k : Kernel n) : Label n → Table → Prop
  | same {l : Label n} {u : Table} (hl : k.asked l = none)
      (h : ∀ p, (u.proc p).currPriority = (k.table.proc p).currPriority) : Reprices k l u
  | alloc {l : Label n} {u : Table} {np : Slot} (hl : k.asked l = none) (ha : k.table.allocproc = some (u, np)) :
      Reprices k l u
  | init {l : Label n} {u : Table} {np : Slot} (hl : k.asked l = none) (hi : k.initialises l = some np)
      (hu : ∀ p, (u.proc p).currPriority = if p = np then 60 else (k.table.proc p).currPriority) : Reprices k l u
  | setPriority {c : Fin n} {v pid : ℤ} : Reprices k (.setPriority c v pid) (k.table.setPriority v pid).1

theorem Kernel.Inv.reprices {k' : Kernel n} (h : k.Inv) (hs : k.step .pbs l = some k') :
    k.Reprices l k'.table := by
  generalize hu : k'.table = u
  have hw := h.writes (π := Proc.currPriority) hs
  rw [hu] at hw
  cases hw with
  | frame hl hf => exact .same (asked_of_quiet hl) hf.proc
  | alloc hl ha => exact .alloc (asked_of_quiet hl) ha
  | @init _ _ np hi he hp ht =>
    refine .init (asked_of_initialises hi) hi (fun p => ?_)
    rw [hp]
    exact allocprocTail_priority _ _ _
  | @exit c p v hp hr hf hw =>
    refine .same rfl (fun q => ?_)
    by_cases e : q = p
    · subst e
      rw [setProc_self]
      exact hf.proc q
    · rw [setProc_of_ne _ _ _ _ e]
      exact hf.proc q
  | @reap _ v q hl hf hq =>
    refine .same (asked_of_quiet hl) (fun p => ?_)
    by_cases e : p = q
    · subst e
      rw [Table.reap, setProc_self]
      exact hf.proc p
    · rw [Table.reap, setProc_of_ne _ _ _ _ e]
      exact hf.proc p
  | tick hc => exact .same rfl (tick_priority _ _)
  | setPriority => exact .setPriority

theorem reachable_priorities (h : (machine .pbs n).Reachable k) (p : Slot) :
    0 ≤ (k.table.proc p).currPriority ∧ (k.table.proc p).currPriority ≤ 100 := by
  refine (Machine.ReachableWhere.invariant (P := fun k : Kernel n =>
    ∀ p, 0 ≤ (k.table.proc p).currPriority ∧ (k.table.proc p).currPriority ≤ 100) h ?_ ?_) p
  · rintro _ rfl p
    exact ⟨le_refl _, by simp [Kernel.start]⟩
  · intro k l k' hr hk _ hs p
    generalize hu : k'.table = u
    have he := (reachable_inv hr).reprices hs
    rw [hu] at he
    cases he with
    | same _ he =>
      rw [he p]
      exact hk p
    | alloc _ ha =>
      rw [allocproc_priority ha]
      split_ifs
      · decide
      · exact hk p
    | init _ hi he =>
      rw [he p]
      split_ifs
      · decide
      · exact hk p
    | @setPriority c v pid =>
      rcases setPriority_cases k.table v pid with ⟨e, -⟩ | ⟨q, -, h0, h1, -, hq, ho⟩
      · rw [e]
        exact hk p
      · by_cases e : p = q
        · subst e
          rw [hq]
          exact ⟨h0, h1⟩
        · rw [ho p e]
          exact hk p

namespace Kernel

def Passes (k k' : Kernel n) (p : Slot) : Prop :=
  (k.table.st p = .zombie ∧ k'.table.st p = .unused) ∨ (k.table.st p = .unused ∧ k'.table.st p = .embryo)

instance (k k' : Kernel n) (p : Slot) : Decidable (k.Passes k' p) := inferInstanceAs (Decidable (_ ∨ _))

end Kernel

def recordAsked (g : Slot → Option ℤ) (k : Kernel n) (l : Label n) (k' : Kernel n) : Slot → Option ℤ := fun p =>
  match k.asked l with
  | some (q, v) => if p = q then some v else g p
  | none => if k.Passes k' p then none else g p

def askedMachine (n : ℕ) : Machine (Kernel n × (Slot → Option ℤ)) (Label n) :=
  (machine .pbs n).history (fun _ => none) recordAsked

def Settled (s : Kernel n × (Slot → Option ℤ)) (l : Label n) : Prop :=
  ∀ np, s.1.initialises l = some np → (s.1.table.proc np).currPriority = 60

instance (s : Kernel n × (Slot → Option ℤ)) (l : Label n) : Decidable (Settled s l) :=
  inferInstanceAs (Decidable (∀ _, _ → _))

def KeepsAsked (s : Kernel n × (Slot → Option ℤ)) : Prop :=
  ∀ p v, s.2 p = some v → (s.1.table.proc p).currPriority = v

theorem recordAsked_of_none {g : Slot → Option ℤ} {k' : Kernel n} (h : k.asked l = none) {p : Slot}
    (hv : recordAsked g k l k' p = some v) : g p = some v ∧ ¬ k.Passes k' p := by
  unfold recordAsked at hv
  rw [h] at hv
  dsimp only at hv
  split_ifs at hv with hp
  exact ⟨hv, hp⟩

theorem asked_setPriority {c : Fin n} {pid : ℤ} {q : Slot}
    (hq : slots.find? (fun p => (k.table.proc p).pid = pid) = some q) (h : 0 ≤ (k.table.setPriority v pid).2) :
    k.asked (.setPriority c v pid) = some (q, v) := by
  unfold Kernel.asked
  dsimp only
  rw [if_pos h, hq]
  rfl

theorem asked_eq_none {c : Fin n} {pid : ℤ} (h : (k.table.setPriority v pid).2 < 0) :
    k.asked (.setPriority c v pid) = none := by
  unfold Kernel.asked
  exact if_neg (by omega)

theorem KeepsAsked.step {s s' : Kernel n × (Slot → Option ℤ)} (h : KeepsAsked s)
    (hr : (machine .pbs n).Reachable s.1) (hc : Settled s l) (hs : s.1.step .pbs l = some s'.1)
    (hg : s'.2 = recordAsked s.2 s.1 l s'.1) : KeepsAsked s' := by
  intro p v hv
  rw [hg] at hv
  generalize hu : s'.1.table = u
  have he := (reachable_inv hr).reprices hs
  rw [hu] at he
  cases he with
  | same hl he =>
    rw [he p]
    exact h p v (recordAsked_of_none hl hv).1
  | @alloc _ _ np hl ha =>
    obtain ⟨hv, hp⟩ := recordAsked_of_none hl hv
    rw [allocproc_priority ha]
    split_ifs with e
    · subst e
      obtain ⟨hu', rfl⟩ := Kernel.allocproc_eq ha
      exact absurd (.inr ⟨hu', by rw [hu]; simp [st]⟩) hp
    · exact h p v hv
  | init hl hi he =>
    obtain ⟨hv, -⟩ := recordAsked_of_none hl hv
    rw [he p]
    split_ifs with e
    · subst e
      rw [← h p v hv, hc p hi]
    · exact h p v hv
  | @setPriority c w pid =>
    rcases setPriority_cases s.1.table w pid with ⟨e, hneg⟩ | ⟨q, hq, -, -, ho, hw, hrest⟩
    · rw [e]
      exact h p v (recordAsked_of_none (asked_eq_none hneg) hv).1
    · have hpos : 0 ≤ (s.1.table.setPriority w pid).2 := by
        rw [ho]
        exact (reachable_priorities hr q).1
      unfold recordAsked at hv
      rw [asked_setPriority hq hpos] at hv
      dsimp only at hv
      split_ifs at hv with e
      · subst e
        rw [hw]
        exact Option.some.inj hv
      · rw [hrest p e]
        exact h p v hv

theorem priority_kept (n : ℕ) (s : Kernel n × (Slot → Option ℤ)) (h : (askedMachine n).ReachableWhere Settled s)
    (p : Slot) (v : ℤ) (hv : s.2 p = some v) : (s.1.table.proc p).currPriority = v := by
  have hk : KeepsAsked s := by
    apply h.invariant
    · rintro t ⟨-, ht⟩ p v hv
      rw [ht] at hv
      cases hv
    · intro t l u hr ht hc hn
      obtain ⟨hs, hg⟩ := Machine.history_next hn
      exact ht.step (Machine.history_reachable hr.reachable) hc hs hg
  exact hk p v hv

theorem priority_kept_child : ∃ s : Kernel 1 × (Slot → Option ℤ), s.2 1 = some 5 ∧
    (s.1.table.proc 1).currPriority = 5 := by
  obtain ⟨s, hs, hp⟩ := Machine.exists_reachableWhere (M := askedMachine 1) (C := Settled)
    (s := (Kernel.start 1, fun _ => none)) (w := boot ++ fork ++ [.setPriority 0 5 2])
    (P := fun s => s.2 1 = some 5) ⟨rfl, rfl⟩ (by decide +kernel)
  have hv := of_decide_eq_true hp
  exact ⟨s, hv, priority_kept 1 s hs 1 5 hv⟩

theorem priority_lost_in_allocproc : ∃ s : Kernel 2 × (Slot → Option ℤ), (askedMachine 2).Reachable s ∧
    s.2 2 = some 5 ∧ (s.1.table.proc 2).currPriority = 60 := by
  obtain ⟨s, hs, hp⟩ := Machine.exists_reachable (M := askedMachine 2) (s := (Kernel.start 2, fun _ => none))
    (w := boot ++ fork ++ [.schedule 1, .resume 1, .forkAlloc 0, .setPriority 1 5 3, .forkKalloc 0 true])
    (P := fun s => s.2 2 = some 5 ∧ (s.1.table.proc 2).currPriority = 60) ⟨rfl, rfl⟩ (by decide +kernel)
  exact ⟨s, hs, of_decide_eq_true hp⟩

end EnhancedXv6.Threads
