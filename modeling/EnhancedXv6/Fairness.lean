import EnhancedXv6.Effects

namespace EnhancedXv6.Threads

open ProcTable Table Scheduler Transition Machine

variable {p q r : Slot} {t : Table}

theorem Kernel.Effect.chances {n : ℕ} {k : Kernel n} {l : Label n} {u : Table} (he : k.Effect l u)
    (h : NoChances k.table) : NoChances u := by
  have hset : ∀ {t : Table} (p : Slot) (f : Proc → Proc), NoChances t →
      (f (t.proc p)).pbsChances = (t.proc p).pbsChances → NoChances (t.setProc p f) := by
    intro t p f ht hf q
    rw [setProc_proc]
    split_ifs
    · exact hf.trans (ht p)
    · exact ht q
  cases he with
  | keeps hk => exact hk.chances h
  | alloc hl ha =>
    rw [(allocproc_eq ha).2]
    exact hset _ _ h rfl
  | free hl hp hm => exact hset _ _ h rfl
  | reap hk hq => exact hset _ _ (hk.chances h) rfl
  | kill hp hk => exact hk.chances (hset _ _ h rfl)
  | fault hp => exact hset _ _ h rfl

theorem reachable_chances {b : Build} {n : ℕ} {k : Kernel n} (h : (machine b n).Reachable k) :
    NoChances k.table :=
  ReachableWhere.invariant h (P := fun k => NoChances k.table) (fun _ e => e ▸ fun _ => rfl)
    (fun _ _ _ hr hk _ hs => ((reachable_inv hr.reachable).effect hs).chances hk)

def dist (p r : Slot) : ℕ := (r.val + NPROC - p.val) % NPROC

theorem dist_add (p k : Slot) : dist p (p + k) = k.val := by
  simp only [dist, NPROC, Fin.val_add]
  omega

theorem dist_injective (h : dist p r = dist p q) : r = q := by
  simp only [dist, NPROC] at h
  have hp : p.val < 64 := p.isLt
  have hq : q.val < 64 := q.isLt
  have hr : r.val < 64 := r.isLt
  apply Fin.ext
  omega

theorem dist_succ (h : dist p r + 1 < NPROC) : dist p (r + 1) = dist p r + 1 := by
  simp only [dist, NPROC, Fin.val_add, Fin.val_one] at h ⊢
  omega

theorem dist_trans {s : Slot} (h : dist p s + dist s r < NPROC) : dist p r = dist p s + dist s r := by
  simp only [dist, NPROC] at h ⊢
  omega

theorem find_slots_first {P : Slot → Bool} {i j : Slot} (h : slots.find? P = some i) (hj : P j) : i ≤ j := by
  obtain ⟨-, as, bs, hl, has⟩ := List.find?_eq_some_iff_append.mp h
  have hmem : j ∈ as ++ i :: bs := hl ▸ List.mem_finRange j
  have hsort : (as ++ i :: bs).Pairwise (· < ·) := hl ▸ List.pairwise_lt_finRange NPROC
  rcases List.mem_append.mp hmem with hm | hm
  · simpa [hj] using has j hm
  · rcases List.mem_cons.mp hm with rfl | hm
    · exact le_refl _
    · exact (List.rel_of_pairwise_cons (List.pairwise_append.mp hsort).2.1 hm).le

theorem pickPBS_first {start : Slot} (h : pickPBS t start = some r)
    (hq : (t.proc q).state = .runnable ∧ (t.proc q).currPriority = (pbsMinima t).1 ∧
      (t.proc q).pbsChances = (pbsMinima t).2) : dist start r ≤ dist start q := by
  unfold pickPBS circular at h
  dsimp only at h
  split_ifs at h
  rw [List.find?_map] at h
  obtain ⟨i, hi, rfl⟩ := Option.map_eq_some_iff.mp h
  have hj : start + (q - start) = q := by
    ext
    simp only [NPROC, Fin.val_add, Fin.val_sub]
    omega
  rw [← hj, dist_add, dist_add]
  exact find_slots_first hi (by simpa [hj] using hq)

theorem pbsMinima_le (hq : (t.proc q).state = .runnable) :
    (pbsMinima t).1 ≤ (t.proc q).currPriority := by
  have hstep : ∀ m r, (pbsMinimum t m r).1 ≤ m.1 ∧
      ((t.proc r).state = .runnable → (pbsMinimum t m r).1 ≤ (t.proc r).currPriority) := by
    intro m r
    unfold pbsMinimum
    split_ifs <;> simp_all
    omega
  have hfold : ∀ (ps : List Slot) m, (ps.foldl (pbsMinimum t) m).1 ≤ m.1 ∧
      (q ∈ ps → (ps.foldl (pbsMinimum t) m).1 ≤ (t.proc q).currPriority) := by
    intro ps
    induction ps with
    | nil => simp
    | cons r ps ih =>
      intro m
      obtain ⟨h1, h2⟩ := ih (pbsMinimum t m r)
      refine ⟨h1.trans (hstep m r).1, fun hm => ?_⟩
      rcases List.mem_cons.mp hm with rfl | hm
      · exact h1.trans ((hstep m q).2 hq)
      · exact h2 hm
  exact (hfold slots _).2 (List.mem_finRange q)

theorem dist_lt (p r : Slot) : dist p r < NPROC := Nat.mod_lt _ (by decide)

theorem pickPBS_between {start : Slot} (h : pickPBS t start = some r) (hn : NoChances t)
    (hs : 0 < dist p start ∧ dist p start ≤ dist p q) (hq : (t.proc q).state = .runnable)
    (hr : (t.proc r).currPriority = (t.proc q).currPriority) : 0 < dist p r ∧ dist p r ≤ dist p q := by
  obtain ⟨-, hp, hc⟩ := pickPBS_runnable h
  have hle := pickPBS_first h ⟨hq, hr.symm.trans hp, ((hn q).trans (hn r).symm).trans hc⟩
  have hsq : dist p q = dist p start + dist start q := by
    simp only [dist, NPROC] at hs ⊢
    omega
  have hlt := dist_lt p q
  rw [dist_trans (s := start) (by omega), hsq]
  omega

namespace Kernel

variable {k k' : Kernel 1} {p : Slot}

def Dispatches (b : Build) (k k' : Kernel 1) (p : Slot) : Prop :=
  k.step b (.schedule 0) = some k' ∧ (k'.cpu 0).proc = some p

def ReadyAt (k : Kernel 1) (q : Slot) (c : ℤ) : Prop :=
  k.table.st q = .runnable ∧ (k.table.proc q).currPriority = c

def Clear (p q : Slot) (c : ℤ) (k : Kernel 1) (l : Label 1) : Prop :=
  l = .schedule 0 → ∀ r, k.table.st r = .runnable → (k.table.proc r).currPriority < c →
    0 < dist p r ∧ dist p r < dist p q

def Inside (p q : Slot) (x : Cpu) : Prop :=
  match x.proc with
  | some r => dist p r < dist p q
  | none => 0 < dist p x.startIdx ∧ dist p x.startIdx ≤ dist p q

theorem schedule_pbs (hs : k.step .pbs (.schedule 0) = some k') :
    (k.cpu 0).ctl = .idle ∧
      k' = (pickPBS k.table (k.cpu 0).startIdx).elim k (k.runOn .pbs 0) := by
  obtain ⟨⟨-, hc⟩, rfl⟩ := schedule_of_step hs
  exact ⟨hc, rfl⟩

theorem dispatches_pbs (h : k.Inv) (hd : Dispatches .pbs k k' p) :
    pickPBS k.table (k.cpu 0).startIdx = some p := by
  obtain ⟨hc, he⟩ := schedule_pbs hd.1
  have hp := hd.2
  cases hq : pickPBS k.table (k.cpu 0).startIdx with
  | none => simp [he, hq, h.live.proc_none hc] at hp
  | some r => simpa [he, hq, runOn, setCpu] using hp

theorem cpu_of_step {l : Label 1} (hs : k.step .pbs l = some k') (hl : l ≠ .schedule 0) :
    ((k'.cpu 0).proc = (k.cpu 0).proc ∧ (k'.cpu 0).startIdx = (k.cpu 0).startIdx) ∨
      ∃ r, (k.cpu 0).proc = some r ∧ (k'.cpu 0).proc = none ∧ (k'.cpu 0).startIdx = r + 1 := by
  have hset : ∀ (j : Kernel 1) (c : Fin 1) (x : Ctl),
      ((j.setCtl c x).cpu 0).proc = (j.cpu 0).proc ∧ ((j.setCtl c x).cpu 0).startIdx = (j.cpu 0).startIdx := by
    intro j c x
    obtain rfl : c = 0 := Subsingleton.elim _ _
    simp [setCtl, setCpu]
  cases step_cases hs with
  | idle => exact absurd (by rw [Subsingleton.elim (0 : Fin 1)]) hl
  | run hp =>
    cases hp with
    | schedule => exact absurd (by rw [Subsingleton.elim (0 : Fin 1)]) hl
    | back hb => cases hb
  | @back c p i hp hn hi =>
    obtain rfl : c = 0 := Subsingleton.elim _ _
    subst hi
    exact .inr ⟨p, hp.2, by simp [setCpu], by simp [setCpu]⟩
  | userinitDone | exit | reap | waitFail | waitSleep | sleep | tick | timer => exact .inl (hset _ _ _)
  | trapUser | trapDemote | trapYield | demoteYield | resumeUser | resumeSleep => exact .inl (hset _ _ _)
  | _ => exact .inl ⟨rfl, rfl⟩

theorem Inside.schedule {q : Slot} {c : ℤ} (h : Inside p q (k.cpu 0)) (hi : k.Inv)
    (hn : NoChances k.table) (hs : k.step .pbs (.schedule 0) = some k') (hq : k.ReadyAt q c) (hq' : k'.ReadyAt q c)
    (hc : Clear p q c k (.schedule 0)) : Inside p q (k'.cpu 0) := by
  obtain ⟨hidle, he⟩ := schedule_pbs hs
  have hnone := hi.live.proc_none hidle
  cases hr : pickPBS k.table (k.cpu 0).startIdx with
  | none => rw [he, hr]; exact h
  | some r =>
    simp only [hr, Option.elim_some] at he
    have hsame : (k'.cpu 0).proc = some r := by simp [he, runOn, setCpu]
    simp only [Inside, hnone] at h
    simp only [Inside, hsame]
    obtain ⟨hrun, hmin, -⟩ := pickPBS_runnable hr
    have hle := pbsMinima_le hq.1
    rw [← hmin, hq.2] at hle
    rcases lt_or_eq_of_le hle with hlt | heq
    · exact (hc rfl r hrun hlt).2
    · have hb := pickPBS_between hr hn h hq.1 (heq.trans hq.2.symm)
      refine lt_of_le_of_ne hb.2 (fun e => ?_)
      rw [dist_injective e] at he
      have hst := hq'.1
      simp [he, runOn, dispatch, st] at hst

theorem Inside.step {l : Label 1} {q : Slot} {c : ℤ} (h : Inside p q (k.cpu 0)) (hi : k.Inv)
    (hn : NoChances k.table) (hs : k.step .pbs l = some k') (hq : k.ReadyAt q c) (hq' : k'.ReadyAt q c)
    (hc : Clear p q c k l) : Inside p q (k'.cpu 0) := by
  by_cases hl : l = .schedule 0
  · subst hl
    exact h.schedule hi hn hs hq hq' hc
  · rcases cpu_of_step hs hl with ⟨hp, hx⟩ | ⟨r, hr, hp, hx⟩
    · simpa only [Inside, hp, hx] using h
    · simp only [Inside, hr] at h
      have hlt := dist_lt p q
      have hd : dist p (r + 1) = dist p r + 1 := dist_succ (by omega)
      simp only [Inside, hp, hx, hd]
      omega

end Kernel

open Kernel

theorem not_ready_between_dispatches (k₀ k₁ k₂ k₃ : Kernel 1) (ks : List (Kernel 1)) (p q : Slot) (c : ℤ)
    (hne : q ≠ p) (hr : (machine .pbs 1).Reachable k₀) (h₁ : Dispatches .pbs k₀ k₁ p)
    (ht : (machine .pbs 1).Trace (Clear p q c) k₁ (k₂ :: ks))
    (hp : ∀ k ∈ k₂ :: ks, (k.table.proc p).currPriority = c) (h₂ : Dispatches .pbs k₂ k₃ p) :
    ∃ k ∈ k₂ :: ks, ¬ k.ReadyAt q c := by
  by_contra hall
  push Not at hall
  have hr₁ : (machine .pbs 1).Reachable k₁ := hr.next (l := .schedule 0) h₁.1
  have h0 : dist p p = 0 := by simp [dist]
  have hstart : Inside p q (k₁.cpu 0) := by
    simp only [Inside, h₁.2, h0]
    exact Nat.pos_of_ne_zero (fun e => hne (dist_injective (e.trans h0.symm)))
  obtain ⟨hr₂, hin⟩ := ht.invariant (P := fun k => (machine .pbs 1).Reachable k ∧ Inside p q (k.cpu 0)) hall
    ⟨hr₁, hstart⟩ (fun t l u hI hI' hP hC hn => ⟨hP.1.next hn,
      hP.2.step (reachable_inv hP.1) (reachable_chances hP.1) hn hI hI' hC⟩)
  have hpick := dispatches_pbs (reachable_inv hr₂) h₂
  simp only [Inside, (reachable_inv hr₂).live.proc_none (schedule_pbs h₂.1).1] at hin
  have hq := hall k₂ (by simp)
  have hb := pickPBS_between hpick (reachable_chances hr₂) hin hq.1 ((hp k₂ (by simp)).trans hq.2.symm)
  omega

instance (k : Kernel 1) (q : Slot) (c : ℤ) : Decidable (k.ReadyAt q c) := inferInstanceAs (Decidable (_ ∧ _))

instance (p q : Slot) (c : ℤ) (k : Kernel 1) (l : Label 1) : Decidable (Clear p q c k l) :=
  inferInstanceAs (Decidable (_ → _))

def redispatches (C : Kernel 1 → Label 1 → Prop) [∀ k l, Decidable (C k l)] (p : Slot) (pre ls : List (Label 1))
    (P : List (Kernel 1) → Bool) : Bool :=
  ((machine .pbs 1).run (start 1) pre).any (fun k₀ =>
    (k₀.step .pbs (.schedule 0)).any (fun k₁ =>
      (k₁.cpu 0).proc = some p && ((machine .pbs 1).visit C [k₁] ls).any (fun ks =>
        ks.head?.any (fun k₂ =>
          P ks && (k₂.step .pbs (.schedule 0)).any (fun k₃ => (k₃.cpu 0).proc = some p)))))

theorem redispatches_sound {C : Kernel 1 → Label 1 → Prop} [∀ k l, Decidable (C k l)]
    {pre ls : List (Label 1)} {P : List (Kernel 1) → Bool} (h : redispatches C p pre ls P) :
    ∃ k₀ k₁ k₂ k₃ ks, (machine .pbs 1).Reachable k₀ ∧ Dispatches .pbs k₀ k₁ p ∧
      (machine .pbs 1).Trace C k₁ (k₂ :: ks) ∧ Dispatches .pbs k₂ k₃ p ∧ P (k₂ :: ks) := by
  obtain ⟨k₀, hr, h⟩ := exists_reachable rfl h
  obtain ⟨k₁, h₁, h⟩ := (Option.any_eq_true _ _).mp h
  rw [Bool.and_eq_true, decide_eq_true_eq] at h
  obtain ⟨ts, ht, hs⟩ := (Option.any_eq_true _ _).mp h.2
  obtain ⟨k₂, h₂, hs⟩ := (Option.any_eq_true _ _).mp hs
  rw [Bool.and_eq_true] at hs
  obtain ⟨k₃, h₃, hd⟩ := (Option.any_eq_true _ _).mp hs.2
  obtain ⟨ks, rfl⟩ := List.head?_eq_some_iff.mp h₂
  exact ⟨k₀, k₁, k₂, k₃, ks, hr, ⟨h₁, h.1⟩, Trace.visit .start ht, ⟨h₃, of_decide_eq_true hd⟩, hs.1⟩

theorem not_ready_between_turns :
    ∃ ks : List (Kernel 1), ks.length = 10 ∧ ∃ k ∈ ks, ¬ k.ReadyAt 0 60 := by
  have hrun : redispatches (Clear 1 0 60) 1 (boot ++ fork ++ [.timer 0, .trapTail 0, .back 0])
      [.resume 0, .timer 0, .trapTail 0, .back 0, .schedule 0, .resume 0, .timer 0, .trapTail 0, .back 0]
      (fun ks => ks.length = 10 && ks.all (fun k => (k.table.proc 1).currPriority = 60)) := by decide +kernel
  obtain ⟨k₀, k₁, k₂, k₃, ks, hr, h₁, ht, h₂, hp⟩ := redispatches_sound hrun
  rw [Bool.and_eq_true, decide_eq_true_eq] at hp
  exact ⟨k₂ :: ks, hp.1, not_ready_between_dispatches k₀ k₁ k₂ k₃ ks 1 0 60 (by decide) hr h₁ ht
    (by simpa using hp.2) h₂⟩

theorem ready_process_passed_over :
    ∃ k₀ k₁ k₂ k₃ ks, (machine .pbs 1).Reachable k₀ ∧ Dispatches .pbs k₀ k₁ 1 ∧
      (machine .pbs 1).Trace (fun _ _ => True) k₁ (k₂ :: ks) ∧ Dispatches .pbs k₂ k₃ 1 ∧
      ∀ k ∈ k₂ :: ks, (k.table.proc 1).currPriority = 60 ∧ k.ReadyAt 2 60 := by
  have hrun : redispatches (fun _ _ => True) 1
      (boot ++ fork ++ fork ++ fork ++ [.setPriority 0 10 4, .wait 0 .wait, .back 0, .schedule 0, .resume 0,
        .sleep 0 7, .back 0])
      [.resume 0, .wakeup 0 7, .timer 0, .trapTail 0, .back 0, .schedule 0, .resume 0, .sleep 0 7, .back 0]
      (fun ks => ks.all (fun k => (k.table.proc 1).currPriority = 60 ∧ k.ReadyAt 2 60)) := by decide +kernel
  obtain ⟨k₀, k₁, k₂, k₃, ks, hr, h₁, ht, h₂, hp⟩ := redispatches_sound hrun
  exact ⟨k₀, k₁, k₂, k₃, ks, hr, h₁, ht, h₂, by simpa using hp⟩

end EnhancedXv6.Threads
