import EnhancedXv6.Selection

namespace EnhancedXv6.Threads

open ProcTable Table Scheduler Transition Machine

variable {n : ℕ}

namespace Kernel

variable {k k' : Kernel n}

def dispatched (k k' : Kernel n) : Option Slot :=
  slots.find? (fun r => decide (k.table.st r = .runnable) && decide (k'.table.st r = .running))

def recordPassed (g : Slot → List Slot) (k : Kernel n) (_ : Label n) (k' : Kernel n) : Slot → List Slot := fun q =>
  if k.table.st q = .runnable ∧ k'.table.st q = .runnable then (k.dispatched k').toList ++ g q else []

theorem dispatched_eq_none (h : ∀ r, k.table.st r = .runnable → k'.table.st r ≠ .running) :
    k.dispatched k' = none := by
  apply List.find?_eq_none.mpr
  intro r _
  simpa using h r

theorem dispatched_eq_some {r : Slot} (hr : k.table.st r = .runnable) (hst : k'.table.st = Function.update k.table.st r .running) :
    k.dispatched k' = some r := by
  cases hd : k.dispatched k' with
  | none =>
    have hnone := List.find?_eq_none.mp hd r (List.mem_finRange r)
    simp [hr, hst] at hnone
  | some p =>
    have hp := List.find?_some hd
    simp only [Bool.and_eq_true, decide_eq_true_eq] at hp
    by_contra hne
    have hpr : p ≠ r := fun e => hne (by rw [e])
    rw [hst, Function.update_of_ne hpr, hp.1] at hp
    cases hp.2

theorem dispatched_ne {q r : Slot} (h : k.dispatched k' = some r) (hq : k'.table.st q = .runnable) : r ≠ q := by
  rintro rfl
  have hr := List.find?_some h
  simp [hq] at hr

end Kernel

def bypassMachine (n : ℕ) : Machine (Kernel n × (Slot → List Slot)) (Label n) :=
  (machine .rr n).history (fun _ => []) Kernel.recordPassed

def MayPass (pos : Option Slot) (q r : Slot) : Prop :=
  match pos with
  | none => q < r
  | some s => (q ≤ s → q < r ∧ r ≤ s) ∧ (s < q → r ≤ s ∨ q < r)

theorem MayPass.ne {pos : Option Slot} {q r : Slot} (h : MayPass pos q r) : r ≠ q := by
  rintro rfl
  cases pos with
  | none => exact lt_irrefl _ h
  | some s =>
    rcases le_or_gt r s with hle | hlt
    · exact lt_irrefl _ (h.1 hle).1
    · rcases h.2 hlt with hx | hx
      · exact absurd hlt (not_lt.mpr hx)
      · exact lt_irrefl _ hx

theorem pickRR_least {t : Table} {start : ℕ} {p q : Slot} (h : pickRR t start = some p) (hq : (t.proc q).state = .runnable)
    (hs : start ≤ q.val) : p ≤ q :=
  find_slots_first h (by simpa using ⟨hs, hq⟩)

theorem pickRR_none_of_le {t : Table} {start : ℕ} {q : Slot} (h : pickRR t start = none) (hq : (t.proc q).state = .runnable) :
    q.val < start := by
  have hn := List.find?_eq_none.mp h q (List.mem_finRange q)
  simp only [hq, and_true, decide_eq_true_eq] at hn
  omega

inductive Kernel.Turns (k k' : Kernel 1) : Prop
  | stays (hp : (k'.cpu 0).proc = (k.cpu 0).proc) (hd : k.dispatched k' = none)
  | ends (s : Slot) (hp : (k.cpu 0).proc = some s) (hp' : (k'.cpu 0).proc = none) (hd : k.dispatched k' = none)
      (hnone : ∀ q, k.table.st q = .runnable → q ≤ s)
  | first (r : Slot) (hp : (k.cpu 0).proc = none) (hp' : (k'.cpu 0).proc = some r) (hd : k.dispatched k' = some r)
      (hleast : ∀ q, k.table.st q = .runnable → r ≤ q)
  | goesOn (s r : Slot) (hp : (k.cpu 0).proc = some s) (hp' : (k'.cpu 0).proc = some r) (hd : k.dispatched k' = some r)
      (hlt : s < r) (hleast : ∀ q, k.table.st q = .runnable → s < q → r ≤ q)

namespace Kernel

variable {k k' : Kernel 1}

theorem dispatched_self (k : Kernel n) {k' : Kernel n} (h : k'.table = k.table) : k.dispatched k' = none := by
  apply dispatched_eq_none
  intro r hr
  rw [h, hr]
  decide

theorem arrow_of_dispatch {a : Arrow} (hs : a.source = .runnable) (ht : a.target = .running) : a = .dispatch := by
  cases a <;> simp [Arrow.source, Arrow.target] at hs ht ⊢

theorem dispatch_mem {as : List Arrow} {t u : Table} {p : Slot} (h : Moves as t u) (hp : t.st p = .runnable)
    (hp' : u.st p = .running) : .dispatch ∈ as := by
  obtain ⟨a, ha, hsrc, htgt⟩ := h p (by simp [hp, hp'])
  rwa [arrow_of_dispatch (hsrc.symm.trans hp) (htgt.symm.trans hp')] at ha

theorem dispatched_eq_none_of_moves {k k' : Kernel n} {as : List Arrow} (h : Moves as k.table k'.table)
    (ha : .dispatch ∉ as) : k.dispatched k' = none :=
  dispatched_eq_none (fun _ hr hr' => ha (dispatch_mem h hr hr'))

theorem turns_run {l : Label 1} {r : Slot} {t : Table} (h : k.Inv) (hp : Chosen .rr k 0 r l t) :
    k.Turns ((k.setTable t).runOn .rr 0 r) := by
  have hcpu := runOn_proc (k.setTable t) .rr 0 0 r
  rw [if_pos rfl] at hcpu
  cases hp with
  | schedule hl hc hr =>
    have hrun : k.table.st r = .runnable := (pickRR_runnable hr).2
    exact .first r (h.live.proc_none hc) hcpu (dispatched_eq_some hrun (runOn_st k _ _ _))
      (fun q hq => pickRR_first hr hq)
  | @back s _ hs hr =>
    obtain ⟨hlt, hrun⟩ := pickRR_runnable hr
    refine .goesOn s r hs.2 hcpu (dispatched_eq_some hrun (runOn_st k _ _ _)) ?_ (fun q hq hsq => pickRR_least hr hq ?_)
    · rw [Fin.lt_def]
      omega
    · rw [Fin.lt_def] at hsq
      omega

theorem Inv.turns {l : Label 1} (h : k.Inv) (hs : k.step .rr l = some k') : k.Turns k' := by
  have hm := h.moves hs
  cases step_cases hs with
  | idle => exact .stays rfl (dispatched_self k rfl)
  | @run _ c r t hp =>
    obtain rfl : c = 0 := Subsingleton.elim c 0
    exact turns_run h hp
  | @back c s i hp hn hi =>
    obtain rfl : c = 0 := Subsingleton.elim c 0
    refine .ends s hp.2 (by simp [setCpu]) (dispatched_self k rfl) (fun q hq => ?_)
    have := pickRR_none_of_le (hn rfl) hq
    rw [Fin.le_def]
    omega
  | reap ht | waitFail ht | waitSleep ht =>
    exact .stays (by simp) (dispatched_eq_none_of_moves hm (by simp [ht.arrows]))
  | forkNone => exact .stays rfl (dispatched_self k rfl)
  | trapYield | demoteYield =>
    exact .stays (setCtl_proc _ _ _ _) (dispatched_eq_none_of_moves hm (by simp [Label.arrows]))
  | _ => exact .stays (by simp [setMaking]) (dispatched_eq_none_of_moves hm (by simp [Label.arrows]))

end Kernel

def Passed (s : Kernel 1 × (Slot → List Slot)) : Prop :=
  ∀ c q, s.1.table.st q = .runnable → (s.2 q).Nodup ∧ ∀ r ∈ s.2 q, MayPass (s.1.cpu c).proc q r

theorem Passed.step {s s' : Kernel 1 × (Slot → List Slot)} {l : Label 1} (h : Passed s) (hi : s.1.Inv)
    (hs : s.1.step .rr l = some s'.1) (hg : s'.2 = Kernel.recordPassed s.2 s.1 l s'.1) : Passed s' := by
  intro c q hq'
  obtain rfl : c = 0 := Subsingleton.elim c 0
  rw [hg, Kernel.recordPassed]
  split_ifs with hq
  swap
  · exact ⟨List.nodup_nil, fun r hr => absurd hr List.not_mem_nil⟩
  obtain ⟨hnd, hpass⟩ := h 0 q hq.1
  cases hi.turns hs with
  | stays hp hd =>
    rw [hd, hp]
    exact ⟨hnd, hpass⟩
  | ends p hp hp' hd hnone =>
    -- the loop has gone over `q`, so that only slots behind it were dispatched
    rw [hd, hp']
    refine ⟨hnd, fun r hr => ?_⟩
    have hr' := hpass r hr
    rw [hp] at hr'
    exact (hr'.1 (hnone q hq.1)).1
  | first r hp hp' hd hleast =>
    have hlt : r < q := lt_of_le_of_ne (hleast q hq.1) (Kernel.dispatched_ne hd hq')
    rw [hd, hp']
    rw [hp] at hpass
    refine ⟨List.nodup_cons.mpr ⟨fun hr => ?_, hnd⟩, fun x hx => ⟨fun hle => absurd hlt (not_lt.mpr hle), fun _ => ?_⟩⟩
    · exact lt_asymm hlt (hpass r hr)
    · rcases List.mem_cons.mp hx with rfl | hx
      · exact .inl le_rfl
      · exact .inr (hpass x hx)
  | goesOn p r hp hp' hd hlt hleast =>
    rw [hd, hp']
    rw [hp] at hpass
    rcases le_or_gt q p with hqp | hpq
    · refine ⟨List.nodup_cons.mpr ⟨fun hr => ?_, hnd⟩, fun x hx => ⟨fun _ => ?_, fun hrq => ?_⟩⟩
      · exact absurd hlt (not_lt.mpr ((hpass r hr).1 hqp).2)
      · rcases List.mem_cons.mp hx with rfl | hx
        · exact ⟨lt_of_le_of_lt hqp hlt, le_rfl⟩
        · exact ⟨((hpass x hx).1 hqp).1, ((hpass x hx).1 hqp).2.trans hlt.le⟩
      · exact absurd (hqp.trans_lt hlt) (lt_asymm hrq)
    · have hrq : r < q := lt_of_le_of_ne (hleast q hq.1 hpq) (Kernel.dispatched_ne hd hq')
      refine ⟨List.nodup_cons.mpr ⟨fun hr => ?_, hnd⟩, fun x hx => ⟨fun hle => absurd hrq (not_lt.mpr hle), fun _ => ?_⟩⟩
      · rcases (hpass r hr).2 hpq with hx | hx
        · exact absurd hlt (not_lt.mpr hx)
        · exact lt_asymm hrq hx
      · rcases List.mem_cons.mp hx with rfl | hx
        · exact .inl le_rfl
        · exact ((hpass x hx).2 hpq).imp (fun hle => hle.trans hlt.le) id

theorem reachable_passed {s : Kernel 1 × (Slot → List Slot)} (h : (bypassMachine 1).Reachable s) : Passed s := by
  refine ReachableWhere.invariant h ?_ ?_
  · rintro ⟨k, g⟩ ⟨hk, hg⟩ c q -
    cases hg
    exact ⟨List.nodup_nil, fun r hr => absurd hr List.not_mem_nil⟩
  · intro s l s' hr hp _ hn
    obtain ⟨hs, hg⟩ := history_next hn
    exact hp.step (reachable_inv (history_reachable hr.reachable)) hs hg

theorem rr_bounded_bypass (s : Kernel 1 × (Slot → List Slot)) (h : (bypassMachine 1).Reachable s) (q : Slot)
    (hq : s.1.table.st q = .runnable) : (∀ r, (s.2 q).count r ≤ 1) ∧ q ∉ s.2 q ∧ (s.2 q).length ≤ NPROC - 1 := by
  obtain ⟨hnd, hpass⟩ := reachable_passed h 0 q hq
  have hmem : q ∉ s.2 q := fun hq => (hpass q hq).ne rfl
  refine ⟨List.nodup_iff_count_le_one.mp hnd, hmem, ?_⟩
  have hlen := List.Nodup.length_le_card (List.nodup_cons.mpr ⟨hmem, hnd⟩)
  simp only [List.length_cons, Fintype.card_fin] at hlen
  omega

theorem rr_bounded_bypass_children : ∃ s : Kernel 1 × (Slot → List Slot), (bypassMachine 1).Reachable s ∧
    s.1.table.st 0 = .runnable ∧ s.2 0 = [2, 1] ∧ (s.2 0).length ≤ NPROC - 1 := by
  obtain ⟨s, hs, hP⟩ := exists_reachable (M := bypassMachine 1) (s := (Kernel.start 1, fun _ => []))
    (w := boot ++ fork ++ fork ++ [.timer 0, .trapTail 0, .back 0, .resume 0, .timer 0, .trapTail 0, .back 0])
    (P := fun s => decide (s.1.table.st 0 = .runnable) && decide (s.2 0 = [2, 1]))
    ⟨rfl, rfl⟩ (by decide +kernel)
  simp only [Bool.and_eq_true, decide_eq_true_eq] at hP
  exact ⟨s, hs, hP.1, hP.2, (rr_bounded_bypass s hs 0 hP.1).2.2⟩

end EnhancedXv6.Threads
