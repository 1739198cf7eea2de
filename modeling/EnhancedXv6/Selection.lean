import EnhancedXv6.Fairness
import EnhancedXv6.PidWrap
import EnhancedXv6.Priorities
import EnhancedXv6.QueueOrder

namespace EnhancedXv6

open ProcTable Table Transition Machine

namespace Scheduler

variable {t : Table} {p q : Slot}

theorem pickRR_eq_none (h : pickRR t 0 = none) : (t.proc q).state ≠ .runnable := by
  simpa using List.find?_eq_none.mp h q (List.mem_finRange q)

theorem pickRR_first (h : pickRR t 0 = some p) (hq : (t.proc q).state = .runnable) : p ≤ q :=
  Threads.find_slots_first h (by simpa using hq)

theorem older_foldl (ps : List Slot) (hs : ps.Pairwise (· < ·)) :
    match ps.foldl (older t) none with
    | none => ∀ q ∈ ps, (t.proc q).state ≠ .runnable
    | some p => p ∈ ps ∧ ∀ q ∈ ps, (t.proc q).state = .runnable →
        (t.proc p).creationTime < (t.proc q).creationTime ∨
          ((t.proc p).creationTime = (t.proc q).creationTime ∧ p ≤ q) := by
  induction ps using List.reverseRecOn with
  | nil => simp
  | append_singleton ps r ih =>
    obtain ⟨hps, -, hlt⟩ := List.pairwise_append.mp hs
    have ih := ih hps
    rw [List.foldl_append, List.foldl_cons, List.foldl_nil]
    cases ho : ps.foldl (older t) none with
    | none =>
      rw [ho] at ih
      dsimp only at ih
      by_cases hr : (t.proc r).state = .runnable
      · simp only [older, hr, ne_eq, not_true_eq_false, if_false]
        refine ⟨by simp, fun q hq hrun => ?_⟩
        rcases List.mem_append.mp hq with hq | hq
        · exact absurd hrun (ih q hq)
        · rw [List.mem_singleton.mp hq]
          exact .inr ⟨rfl, le_refl _⟩
      · simp only [older, hr, ne_eq, not_false_eq_true, if_true]
        intro q hq
        rcases List.mem_append.mp hq with hq | hq
        · exact ih q hq
        · rw [List.mem_singleton.mp hq]
          exact hr
    | some o =>
      rw [ho] at ih
      dsimp only at ih
      obtain ⟨hmem, hleast⟩ := ih
      have hor : o < r := hlt o hmem r (by simp)
      by_cases hr : (t.proc r).state = .runnable
      · simp only [older, hr, ne_eq, not_true_eq_false, if_false]
        split_ifs with hc
        · refine ⟨by simp, fun q hq hrun => ?_⟩
          rcases List.mem_append.mp hq with hq | hq
          · rcases hleast q hq hrun with h | ⟨h, -⟩
            · exact .inl (hc.trans h)
            · exact .inl (h ▸ hc)
          · rw [List.mem_singleton.mp hq]
            exact .inr ⟨rfl, le_refl _⟩
        · refine ⟨List.mem_append_left _ hmem, fun q hq hrun => ?_⟩
          rcases List.mem_append.mp hq with hq | hq
          · exact hleast q hq hrun
          · rw [List.mem_singleton.mp hq]
            rcases lt_or_eq_of_le (not_lt.mp hc) with h | h
            · exact .inl h
            · exact .inr ⟨h, hor.le⟩
      · simp only [older, hr, ne_eq, not_false_eq_true, if_true]
        refine ⟨List.mem_append_left _ hmem, fun q hq hrun => ?_⟩
        rcases List.mem_append.mp hq with hq | hq
        · exact hleast q hq hrun
        · rw [List.mem_singleton.mp hq] at hrun
          exact absurd hrun hr

theorem pickFCFS_eq_none (h : pickFCFS t = none) : (t.proc q).state ≠ .runnable := by
  have hf := older_foldl (t := t) slots (List.pairwise_lt_finRange NPROC)
  rw [show slots.foldl (older t) none = none from h] at hf
  exact hf q (List.mem_finRange q)

theorem pickFCFS_oldest (h : pickFCFS t = some p) (hq : (t.proc q).state = .runnable) :
    (t.proc p).creationTime < (t.proc q).creationTime ∨
      ((t.proc p).creationTime = (t.proc q).creationTime ∧ p ≤ q) := by
  have hf := older_foldl (t := t) slots (List.pairwise_lt_finRange NPROC)
  rw [show slots.foldl (older t) none = some p from h] at hf
  exact hf.2 q (List.mem_finRange q) hq

theorem pbsMinimum_foldl (hn : NoChances t) (hp : ∀ p, (t.proc p).currPriority ≤ 100) (ps : List Slot) :
    (ps.foldl (pbsMinimum t) (1001, 147483647) = (1001, 147483647) ∧ ∀ q ∈ ps, (t.proc q).state ≠ .runnable) ∨
      ∃ p ∈ ps, (t.proc p).state = .runnable ∧
        ps.foldl (pbsMinimum t) (1001, 147483647) = ((t.proc p).currPriority, 0) := by
  induction ps using List.reverseRecOn with
  | nil => simp
  | append_singleton ps r ih =>
    rw [List.foldl_append, List.foldl_cons, List.foldl_nil]
    by_cases hr : (t.proc r).state = .runnable
    · right
      have h100 := hp r
      rcases ih with ⟨hm, -⟩ | ⟨p, hp', hrun, hm⟩
      · refine ⟨r, by simp, hr, ?_⟩
        rw [hm, pbsMinimum, if_neg (by simp [hr]), if_pos (by simp; omega), hn r]
      · rw [hm, pbsMinimum, if_neg (by simp [hr])]
        split_ifs with h1 h2 h3
        · exact ⟨r, by simp, hr, by rw [hn r]⟩
        · rw [hn r] at h3
          exact absurd h3 (lt_irrefl _)
        · exact ⟨p, List.mem_append_left _ hp', hrun, rfl⟩
        · exact ⟨p, List.mem_append_left _ hp', hrun, rfl⟩
    · rw [pbsMinimum, if_pos (by simpa using hr)]
      rcases ih with ⟨hm, hall⟩ | ⟨p, hp', hrun, hm⟩
      · refine .inl ⟨hm, fun q hq => ?_⟩
        rcases List.mem_append.mp hq with hq | hq
        · exact hall q hq
        · rw [List.mem_singleton.mp hq]
          exact hr
      · exact .inr ⟨p, List.mem_append_left _ hp', hrun, hm⟩

theorem mem_circular (start p : Slot) : p ∈ circular start := by
  refine List.mem_map.mpr ⟨p - start, List.mem_finRange _, ?_⟩
  ext
  simp only [NPROC, Fin.val_add, Fin.val_sub]
  omega

theorem pickPBS_eq_none (hn : NoChances t) (hp : ∀ p, (t.proc p).currPriority ≤ 100) {start : Slot}
    (h : pickPBS t start = none) : (t.proc q).state ≠ .runnable := by
  rcases pbsMinimum_foldl hn hp slots with ⟨-, hall⟩ | ⟨p, -, hrun, hm⟩
  · exact hall q (List.mem_finRange q)
  · have hmin : pbsMinima t = ((t.proc p).currPriority, 0) := hm
    have h100 := hp p
    unfold pickPBS at h
    dsimp only at h
    rw [if_neg (by rw [hmin]; dsimp only; omega)] at h
    have := List.find?_eq_none.mp h p (mem_circular start p)
    simp [hrun, hmin, hn p] at this

theorem pickPBS_least {start : Slot} (h : pickPBS t start = some p) (hq : (t.proc q).state = .runnable) :
    (t.proc p).currPriority ≤ (t.proc q).currPriority := by
  rw [(pickPBS_runnable h).2.1]
  exact Threads.pbsMinima_le hq

theorem pickMLFQ_head (h : InQueues t t.Ready) :
    ((pickMLFQ t).2 = none ∧ ∀ q, (t.proc q).state ≠ .runnable) ∨
      ∃ p, (pickMLFQ t).2 = some p ∧ ∃ q < 5, (∀ r < q, (ageing t).queue r = []) ∧
        ((ageing t).queue q).head? = some p := by
  have ha := (Ages.ageing h).inq
  obtain ⟨Q, hQ⟩ := id ha
  have hst := ageing_st t
  unfold pickMLFQ
  dsimp only
  split
  · rename_i hnone
    refine .inl ⟨rfl, fun p hp => ?_⟩
    have hl := hQ.level p
    have hmem : p ∈ Q ((ageing t).proc p).currQueueId := (hQ.mem _ hl p).mpr ⟨hp, rfl⟩
    have hlast := hQ.last _ hl
    have hpos := List.length_pos_of_mem hmem
    have := List.find?_eq_none.mp hnone _ (List.mem_range.mpr hl)
    simp at this
    omega
  · rename_i i hi
    obtain ⟨hle, hmem, hbefore⟩ := List.find?_range_eq_some.mp hi
    have hlt : i < 5 := List.mem_range.mp hmem
    have hle : (0 : ℤ) ≤ (ageing t).qLatestIdx i := by simpa using hle
    have hlast := hQ.last i hlt
    have hptr := hQ.ptr i hlt 0 (by omega)
    have hempty : ∀ r < i, (ageing t).queue r = [] := by
      intro r hr
      have hr' : (ageing t).qLatestIdx r < 0 := by simpa using hbefore r hr
      have hlast' := hQ.last r (by omega)
      rw [hQ.queue_eq (by omega)]
      exact List.eq_nil_of_length_eq_zero (by omega)
    split
    · rename_i hn
      rw [hptr, List.getElem?_eq_none_iff] at hn
      omega
    · rename_i p hp
      obtain ⟨hW, -⟩ := ha.head hlt hle hp
      have hrun : (((ageing t).deleteProcess p i).1.proc p).state = .runnable := by
        rw [deleteProcess_proc]
        change (ageing t).st p = _
        rw [hst]
        exact hW
      refine .inr ⟨p, by rw [if_pos hrun], i, hlt, hempty, ?_⟩
      rw [hQ.queue_eq hlt, List.head?_eq_getElem?, ← hptr]
      exact hp

end Scheduler

namespace Threads

open Scheduler

variable {n : ℕ} {k k' : Kernel n} {b : Build}

namespace Kernel

variable {p : Slot} {l : Label n} {d : Fin n}

theorem runOn_proc (k : Kernel n) (b : Build) (c d : Fin n) (p : Slot) :
    ((k.runOn b c p).cpu d).proc = if d = c then some p else (k.cpu d).proc := by
  by_cases e : d = c
  · subst e; simp [Kernel.runOn, setCpu]
  · simp [Kernel.runOn, setCpu, e]

theorem runOn_st (k : Kernel n) (b : Build) (c : Fin n) (p : Slot) :
    (k.runOn b c p).table.st = Function.update k.table.st p .running := dispatch_st b k.table p

theorem chosen_of_dispatched (hs : k.step b l = some k')
    (hk : (k.cpu d).proc ≠ some p) (hk' : (k'.cpu d).proc = some p) :
    ∃ t, Chosen b k d p l t ∧ k' = (k.setTable t).runOn b d p := by
  cases step_cases hs with
  | @run _ c q t hp =>
    rw [runOn_proc] at hk'
    split_ifs at hk' with e
    · cases hk'
      subst e
      exact ⟨t, hp, rfl⟩
    · exact absurd hk' hk
  | @back c q i hp hn hi =>
    by_cases e : d = c
    · subst e
      simp [setCpu] at hk'
    · exact absurd (by simpa [setCpu, e] using hk') hk
  | _ => exact absurd (by simpa [yieldOn, setMaking] using hk') hk

theorem runnable_of_dispatched (hs : k.step b l = some k')
    (hk : (k.cpu d).proc ≠ some p) (hk' : (k'.cpu d).proc = some p) : k.table.st p = .runnable := by
  obtain ⟨t, hp, -⟩ := chosen_of_dispatched hs hk hk'
  rw [← hp.st]
  exact hp.runnable

theorem running_of_dispatched (hs : k.step b l = some k')
    (hk : (k.cpu d).proc ≠ some p) (hk' : (k'.cpu d).proc = some p) : k'.table.st p = .running := by
  obtain ⟨t, -, rfl⟩ := chosen_of_dispatched hs hk hk'
  rw [runOn_st, Function.update_self]

def First (b : Build) (s : Kernel n × Arrivals) (p : Slot) : Prop :=
  match b with
  | .pbs => ∀ q, s.1.table.st q = .runnable → (s.1.table.proc p).currPriority ≤ (s.1.table.proc q).currPriority
  | .fcfs => ∀ q, s.1.table.st q = .runnable → (s.1.table.proc p).creationTime < (s.1.table.proc q).creationTime ∨
      ((s.1.table.proc p).creationTime = (s.1.table.proc q).creationTime ∧ p ≤ q)
  | .rr => ∀ q, s.1.table.st q = .runnable → p ≤ q
  | .mlfq => ∃ q < 5, (∀ r < q, (ageing s.1.table).queue r = []) ∧ ((ageing s.1.table).queue q).head? = some p ∧
      ∀ r ∈ (ageing s.1.table).queue q,
        (s.2.pass s.1.table (ageing s.1.table)).since p ≤ (s.2.pass s.1.table (ageing s.1.table)).since r

end Kernel

theorem Ordered.head {g : Arrivals} {t : Table} (h : g.Ordered t) {q : ℕ} (hq : q < 5) {p r : Slot}
    (hp : (t.queue q).head? = some p) (hr : r ∈ t.queue q) : g.since p ≤ g.since r := by
  have hs := h.queue q hq
  cases hl : t.queue q with
  | nil => rw [hl] at hr; cases hr
  | cons x xs =>
    rw [hl] at hp hr hs
    cases hp
    rcases List.mem_cons.mp hr with rfl | hr
    · exact le_refl _
    · exact List.rel_of_pairwise_cons hs hr

theorem pick_first {s : Kernel n × Arrivals} (h : (arrivalMachine b n).Reachable s)
    (hb : b = .mlfq → s.1.table.handedOut < 2 ^ 31) (hl : s.1.LockFree) (c : Fin n) :
    ((s.1.pick b c).2 = none ∧ ∀ q, s.1.table.st q ≠ .runnable) ∨
      ∃ p, (s.1.pick b c).2 = some p ∧ Kernel.First b s p := by
  have hk := Machine.history_reachable h
  cases hp : (s.1.pick b c).2 with
  | none =>
    refine .inl ⟨rfl, fun q => ?_⟩
    cases b with
    | rr => exact pickRR_eq_none hp
    | fcfs => exact pickFCFS_eq_none hp
    | pbs => exact pickPBS_eq_none (reachable_chances hk) (fun p => (reachable_priorities hk p).2) hp
    | mlfq =>
      have hq := (reachable_mlfq hk (hb rfl)).lockFree hl
      rcases pickMLFQ_head hq with ⟨-, hn⟩ | ⟨p, hs, -⟩
      · exact hn q
      · exact absurd (hs.symm.trans hp) (by simp)
  | some p =>
    refine .inr ⟨p, rfl, ?_⟩
    cases b with
    | rr => exact fun q hq => pickRR_first hp hq
    | fcfs => exact fun q hq => pickFCFS_oldest hp hq
    | pbs => exact fun q hq => pickPBS_least hp hq
    | mlfq =>
      have hq := (reachable_mlfq hk (hb rfl)).lockFree hl
      have ha := Ages.ageing hq
      have ho := (reachable_ordered h (hb rfl)).pass (ha.shifts.fifo hq ha.inq) ha.inq
      rcases pickMLFQ_head hq with ⟨hn, -⟩ | ⟨r, hs, q, hlt, hempty, hhead⟩
      · exact absurd (hn.symm.trans hp) (by simp)
      · obtain rfl : r = p := Option.some.inj (hs.symm.trans hp)
        exact ⟨q, hlt, hempty, hhead, fun x hx => Ordered.head ho hlt hhead hx⟩

theorem scheduler_pass (b : Build) (n : ℕ) (s : Kernel n × Arrivals) (h : (arrivalMachine b n).Reachable s)
    (hb : b = .mlfq → s.1.table.handedOut < 2 ^ 31) :
    (∀ c k', s.1.step b (.schedule c) = some k' →
      ((∃ p, (k'.cpu c).proc = some p) ↔ ∃ p, s.1.table.st p = .runnable) ∧
        ∀ p, (k'.cpu c).proc = some p → Kernel.First b s p) ∧
      ∀ l k' c p, s.1.step b l = some k' → (s.1.cpu c).proc ≠ some p → (k'.cpu c).proc = some p →
        s.1.table.st p = .runnable := by
  refine ⟨fun c k' hs => ?_, fun l k' c p hs => Kernel.runnable_of_dispatched hs⟩
  obtain ⟨⟨hl, hc⟩, rfl⟩ := Kernel.schedule_of_step hs
  rw [Kernel.schedule_eq]
  rcases pick_first h hb hl c with ⟨hp, hn⟩ | ⟨p, hp, hf⟩
  · have hnone := (reachable_inv (Machine.history_reachable h)).live.proc_none hc
    rw [hp, Option.elim_none, Kernel.setTable_cpu, hnone]
    exact ⟨iff_of_false (by simp) (fun ⟨q, hq⟩ => hn q hq), by simp⟩
  · have hrun : s.1.table.st p = .runnable := Kernel.pick_st b s.1 c ▸ Kernel.pick_runnable hp
    rw [hp, Option.elim_some, Kernel.runOn_proc, if_pos rfl]
    refine ⟨iff_of_true ⟨p, rfl⟩ ⟨p, hrun⟩, fun q hq => ?_⟩
    cases hq
    exact hf

theorem scheduler_pass_fork : ∃ (s : Kernel 1 × Arrivals) (k' : Kernel 1), s.1.step .mlfq (.schedule 0) = some k' ∧
    (k'.cpu 0).proc = some 1 ∧ Kernel.First .mlfq s 1 := by
  obtain ⟨s, hs, hp⟩ := Machine.exists_reachable (M := arrivalMachine .mlfq 1) (s := (Kernel.start 1, {}))
    (w := boot ++ fork ++ [.sleep 0 7, .back 0])
    (P := fun s => decide (s.1.table.handedOut < 2 ^ 31) &&
      (s.1.step .mlfq (.schedule 0)).any (fun k' => (k'.cpu 0).proc = some 1)) ⟨rfl, rfl⟩ (by decide +kernel)
  rw [Bool.and_eq_true, decide_eq_true_eq] at hp
  cases hk : s.1.step .mlfq (.schedule 0) with
  | none => simp [hk] at hp
  | some k' =>
    have hc : (k'.cpu 0).proc = some 1 := by simpa [hk] using hp.2
    exact ⟨s, k', hk, hc, ((scheduler_pass .mlfq 1 s hs (fun _ => hp.1)).1 0 k' hk).2 1 hc⟩

theorem runnable_init_never_dispatched : ∃ k k' : Kernel 1, (machine .mlfq 1).Reachable k ∧
    k.step .mlfq (.schedule 0) = some k' ∧ k.table.st 0 = .runnable ∧ (k'.cpu 0).proc = none := by
  obtain ⟨k, hk, hp⟩ := exists_after_forks (n := 1) .mlfq boot
    (fork ++ fork ++ [.sleep 0 7, .back 0, .wakeup 0 7, .schedule 0, .resume 0, .sleep 0 8, .back 0,
      .schedule 0, .resume 0, .sleep 0 8, .back 0]) 0 0 1 2 (2 ^ 32 - 2)
    (fun k => decide (k.table.st 0 = .runnable) &&
      (k.step .mlfq (.schedule 0)).any (fun k' => (k'.cpu 0).proc = none)) (by decide +kernel)
  rw [Bool.and_eq_true, decide_eq_true_eq] at hp
  cases hs : k.step .mlfq (.schedule 0) with
  | none => simp [hs] at hp
  | some k' => exact ⟨k, k', hk, hs, hp.1, by simpa [hs] using hp.2⟩

end Threads

end EnhancedXv6
