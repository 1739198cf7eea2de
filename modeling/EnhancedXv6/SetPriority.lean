import EnhancedXv6.Pids
import EnhancedXv6.Priorities

namespace EnhancedXv6.ProcTable

open Table

namespace Table

theorem le_getMaxima (a b : ℤ) : a ≤ getMaxima a b ∧ b ≤ getMaxima a b ∧ (getMaxima a b = a ∨ getMaxima a b = b) := by
  unfold getMaxima
  split_ifs with h
  · exact ⟨le_refl a, h.le, .inl rfl⟩
  · exact ⟨not_lt.mp h, le_refl b, .inr rfl⟩

theorem foldl_getMaxima (t : Table) (c : ℤ) (ps : List Slot) (m r : ℤ)
    (hr : ps.foldl (fun m p => if (t.proc p).currPriority = c then getMaxima m (t.proc p).pbsChances else m) m = r) :
    m ≤ r ∧ (∀ p ∈ ps, (t.proc p).currPriority = c → (t.proc p).pbsChances ≤ r) ∧
      (r = m ∨ ∃ p ∈ ps, (t.proc p).currPriority = c ∧ (t.proc p).pbsChances = r) := by
  induction ps generalizing m with
  | nil =>
    subst hr
    exact ⟨le_refl m, by simp, .inl rfl⟩
  | cons p ps ih =>
    obtain ⟨h1, h2, h3⟩ := ih _ hr
    dsimp only at h1 h3
    by_cases hp : (t.proc p).currPriority = c
    · rw [if_pos hp] at h1 h3
      obtain ⟨ha, hb, hab⟩ := le_getMaxima m (t.proc p).pbsChances
      refine ⟨ha.trans h1, ?_, ?_⟩
      · intro q hq hc
        rcases List.mem_cons.mp hq with rfl | hq
        · exact hb.trans h1
        · exact h2 q hq hc
      · rcases h3 with h3 | ⟨q, hq, hc, he⟩
        · rcases hab with e | e
          · exact .inl (h3.trans e)
          · exact .inr ⟨p, List.mem_cons_self, hp, (h3.trans e).symm⟩
        · exact .inr ⟨q, List.mem_cons_of_mem p hq, hc, he⟩
    · rw [if_neg hp] at h1 h3
      refine ⟨h1, ?_, ?_⟩
      · intro q hq hc
        rcases List.mem_cons.mp hq with rfl | hq
        · exact absurd hc hp
        · exact h2 q hq hc
      · rcases h3 with h3 | ⟨q, hq, hc, he⟩
        · exact .inl h3
        · exact .inr ⟨q, List.mem_cons_of_mem p hq, hc, he⟩

theorem maxChances_spec (t : Table) (c : ℤ) : 0 ≤ t.maxChances c ∧
    (∀ p, (t.proc p).currPriority = c → (t.proc p).pbsChances ≤ t.maxChances c) ∧
    (t.maxChances c = 0 ∨ ∃ p, (t.proc p).currPriority = c ∧ (t.proc p).pbsChances = t.maxChances c) := by
  obtain ⟨h1, h2, h3⟩ := foldl_getMaxima t c slots 0 (t.maxChances c) rfl
  refine ⟨h1, fun p => h2 p (List.mem_finRange p), h3.imp_right ?_⟩
  rintro ⟨p, -, hp⟩
  exact ⟨p, hp⟩

theorem subtractChances_eq_zero (c m : ℤ) (ps : List Slot) (t : Table) (hps : ps.Nodup) :
    (subtractChances c m ps t).2 = 0 ↔
      ∀ p ∈ ps, (t.proc p).currPriority = c → (t.proc p).pbsChances - m = 0 ∨ (t.proc p).pbsChances - m = 1 := by
  induction ps generalizing t with
  | nil => exact iff_of_true rfl (by simp)
  | cons p ps ih =>
    obtain ⟨hp, hps⟩ := List.nodup_cons.mp hps
    unfold subtractChances
    by_cases hc : (t.proc p).currPriority = c
    · rw [if_pos hc]
      dsimp only
      have hself : ((t.setProc p (fun r => { r with pbsChances := r.pbsChances - m })).proc p).pbsChances = (t.proc p).pbsChances - m := by
        rw [setProc_self]
      have hother : ∀ q ∈ ps, (t.setProc p (fun r => { r with pbsChances := r.pbsChances - m })).proc q = t.proc q := by
        intro q hq
        apply setProc_of_ne
        rintro rfl
        exact hp hq
      rw [hself]
      by_cases hbad : (t.proc p).pbsChances - m ≠ 0 ∧ (t.proc p).pbsChances - m ≠ 1
      · rw [if_pos hbad]
        apply iff_of_false
        · intro h
          cases h
        · intro h
          have := h p List.mem_cons_self hc
          omega
      · rw [if_neg hbad, ih _ hps]
        constructor
        · intro h q hq hq'
          rcases List.mem_cons.mp hq with rfl | hq
          · omega
          · have := h q hq
            rw [hother q hq] at this
            exact this hq'
        · intro h q hq
          rw [hother q hq]
          exact h q (List.mem_cons_of_mem p hq)
    · rw [if_neg hc, ih _ hps]
      constructor
      · intro h q hq hq'
        rcases List.mem_cons.mp hq with rfl | hq
        · exact absurd hq' hc
        · exact h q hq hq'
      · intro h q hq
        exact h q (List.mem_cons_of_mem p hq)

theorem subtractChances_slot (c m : ℤ) (ps : List Slot) (t : Table) (hps : ps.Nodup) (h : (subtractChances c m ps t).2 = 0) (p : Slot) :
    (subtractChances c m ps t).1.proc p =
      if p ∈ ps ∧ (t.proc p).currPriority = c then { t.proc p with pbsChances := (t.proc p).pbsChances - m } else t.proc p := by
  induction ps generalizing t with
  | nil =>
    rw [if_neg (by simp)]
    rfl
  | cons q ps ih =>
    obtain ⟨hq, hps⟩ := List.nodup_cons.mp hps
    unfold subtractChances at h ⊢
    by_cases hc : (t.proc q).currPriority = c
    · rw [if_pos hc] at h ⊢
      dsimp only at h ⊢
      split_ifs at h with hbad
      · cases h
      · rw [if_neg hbad, ih _ hps h]
        by_cases e : p = q
        · subst e
          rw [if_neg (fun hm => hq hm.1), setProc_self, if_pos ⟨List.mem_cons_self, hc⟩]
        · simp only [setProc_of_ne _ _ _ _ e, List.mem_cons, e, false_or]
    · rw [if_neg hc] at h ⊢
      rw [ih _ hps h]
      by_cases e : p = q
      · subst e
        rw [if_neg (fun hm => hc hm.2), if_neg (fun hm => hc hm.2)]
      · simp only [List.mem_cons, e, false_or]

end Table

structure Normalised (t : Table) (c : ℤ) : Prop where
  ret : (t.resetPbsChances c).2 = 0
  binary : ∀ p, (t.proc p).currPriority = c →
    ((t.resetPbsChances c).1.proc p).pbsChances = 0 ∨ ((t.resetPbsChances c).1.proc p).pbsChances = 1
  differences : ∀ p q, (t.proc p).currPriority = c → (t.proc q).currPriority = c →
    ((t.resetPbsChances c).1.proc p).pbsChances - ((t.resetPbsChances c).1.proc q).pbsChances =
      (t.proc p).pbsChances - (t.proc q).pbsChances
  others : ∀ p, (t.proc p).currPriority ≠ c → (t.resetPbsChances c).1.proc p = t.proc p

theorem normalised_iff (t : Table) (c : ℤ) : Normalised t c ↔
    (∀ p, (t.proc p).currPriority = c → 0 ≤ (t.proc p).pbsChances) ∧
      ∀ p q, (t.proc p).currPriority = c → (t.proc q).currPriority = c → (t.proc p).pbsChances = (t.proc q).pbsChances := by
  obtain ⟨h0, hle, hmax⟩ := maxChances_spec t c
  have hnd : slots.Nodup := List.nodup_finRange NPROC
  have hzero := subtractChances_eq_zero c (t.maxChances c) slots t hnd
  have hproc := subtractChances_slot c (t.maxChances c) slots t hnd
  constructor
  · intro h
    have heq : ∀ p, (t.proc p).currPriority = c → (t.proc p).pbsChances = t.maxChances c := by
      intro p hp
      have hcase := hzero.mp h.ret p (List.mem_finRange p) hp
      have := hle p hp
      omega
    constructor
    · intro p hp
      rw [heq p hp]
      exact h0
    · intro p q hp hq
      rw [heq p hp, heq q hq]
  · rintro ⟨hpos, hsame⟩
    have heq : ∀ p, (t.proc p).currPriority = c → (t.proc p).pbsChances = t.maxChances c := by
      intro p hp
      rcases hmax with e | ⟨q, hq, e⟩
      · have := hle p hp
        have := hpos p hp
        omega
      · rw [← e]
        exact hsame p q hp hq
    have hret : (subtractChances c (t.maxChances c) slots t).2 = 0 := by
      apply hzero.mpr
      intro p _ hp
      left
      rw [heq p hp]
      exact sub_self _
    have hnew : ∀ p, (t.proc p).currPriority = c → ((t.resetPbsChances c).1.proc p).pbsChances = 0 := by
      intro p hp
      rw [resetPbsChances, hproc hret p, if_pos ⟨List.mem_finRange p, hp⟩]
      change (t.proc p).pbsChances - t.maxChances c = 0
      rw [heq p hp]
      exact sub_self _
    refine ⟨hret, fun p hp => .inl (hnew p hp), fun p q hp hq => ?_, fun p hp => ?_⟩
    · rw [hnew p hp, hnew q hq, hsame p q hp hq, sub_self, sub_self]
    · rw [resetPbsChances, hproc hret p]
      exact if_neg (fun hm => hp hm.2)

def unevenClass : Table where
  proc p :=
    if p.val = 0 then { pid := 1, state := .runnable, currPriority := 60 }
    else if p.val = 1 then { pid := 2, state := .runnable, currPriority := 60, pbsChances := 1 }
    else {}

theorem unevenClass_not_normalised :
    (∀ p q, (unevenClass.proc p).currPriority = 60 → (unevenClass.proc q).currPriority = 60 →
      (unevenClass.proc p).pbsChances - (unevenClass.proc q).pbsChances ≤ 1) ∧ ¬ Normalised unevenClass 60 := by
  constructor
  · decide +kernel
  · intro h
    have hret : (unevenClass.resetPbsChances 60).2 = -1 := by decide +kernel
    rw [h.ret] at hret
    cases hret

def Table.Live (t : Table) (p : Slot) : Prop := t.st p ∈ [.embryo, .sleeping, .runnable, .running]

instance (t : Table) (p : Slot) : Decidable (t.Live p) := inferInstanceAs (Decidable (_ ∈ _))

theorem Table.live_iff {t : Table} {p : Slot} : t.Live p ↔ t.st p ≠ .unused ∧ t.st p ≠ .zombie := by
  unfold Table.Live
  cases t.st p <;> simp

theorem setPriority_of_find {t : Table} {np pid : ℤ} {p : Slot} (hnp : 0 ≤ np ∧ np ≤ 100)
    (hp : slots.find? (fun p => (t.proc p).pid = pid) = some p) : t.setPriority np pid =
      if t.Live p then (((t.resetPbsChances np).1.setProc p (fun r => { r with currPriority := np, pbsChances := 0 })),
        (t.proc p).currPriority) else (t, -2) := by
  have hold : ((t.resetPbsChances np).1.proc p).currPriority = (t.proc p).currPriority :=
    (Frame.resetPbsChances (π := Proc.currPriority) t np).proc p
  unfold setPriority
  rw [if_neg (by omega), hp]
  dsimp only
  by_cases hl : t.Live p
  · have hs := Table.live_iff.mp hl
    rw [if_pos hl, if_neg (by rw [not_or]; exact hs), hold]
  · rw [if_neg hl, if_pos]
    by_contra hs
    exact hl (Table.live_iff.mpr (not_or.mp hs))

theorem setPriority_ne (t : Table) (np pid : ℤ) : t.setPriority np pid ≠ (t, -1) := by
  intro h
  by_cases hnp : 0 ≤ np ∧ np ≤ 100
  · cases hf : slots.find? (fun p => (t.proc p).pid = pid) with
    | none =>
      rw [setPriority, if_neg (by omega), hf] at h
      cases congrArg Prod.snd h
    | some p =>
      rw [setPriority_of_find hnp hf] at h
      split_ifs at h with hl
      · obtain ⟨htable, hold⟩ := Prod.mk.inj h
        rw [← htable, setProc_proc, if_pos rfl] at hold
        change np = -1 at hold
        omega
      · cases congrArg Prod.snd h
  · rw [setPriority, if_pos (by omega)] at h
    cases congrArg Prod.snd h

end EnhancedXv6.ProcTable

namespace EnhancedXv6.Threads

open ProcTable Table Scheduler Transition Machine

variable {n : ℕ} {k : Kernel n} {p : Slot} {np pid : ℤ}

theorem find_pid (h : Pids k.table) (hb : k.table.handedOut < 2 ^ 31) (hu : k.table.st p ≠ .unused) (hp : (k.table.proc p).pid = pid) :
    slots.find? (fun q => (k.table.proc q).pid = pid) = some p := by
  cases hf : slots.find? (fun q => (k.table.proc q).pid = pid) with
  | none =>
    have hnone := List.find?_eq_none.mp hf p (List.mem_finRange p)
    exact absurd (decide_eq_true hp) hnone
  | some q =>
    have hq : (k.table.proc q).pid = pid := by simpa using List.find?_some hf
    rw [h.inj hb q p (hq.trans hp.symm)]
    rw [hq, ← hp]
    exact h.used hb p hu

theorem set_priority_contract (h : (machine .pbs n).Reachable k) (hb : k.table.handedOut < 2 ^ 31) (np pid : ℤ) :
    (0 ≤ (k.table.setPriority np pid).2 ↔ (0 ≤ np ∧ np ≤ 100) ∧ ∃ p, k.table.Live p ∧ (k.table.proc p).pid = pid) ∧
    (∀ p, 0 ≤ np ∧ np ≤ 100 → k.table.Live p → (k.table.proc p).pid = pid →
      (k.table.setPriority np pid).2 = (k.table.proc p).currPriority ∧
      (0 ≤ (k.table.proc p).currPriority ∧ (k.table.proc p).currPriority ≤ 100) ∧
      ((k.table.setPriority np pid).1.proc p).currPriority = np ∧
      ∀ q, q ≠ p → ((k.table.setPriority np pid).1.proc q).currPriority = (k.table.proc q).currPriority) ∧
    ((k.table.setPriority np pid).2 < 0 → (k.table.setPriority np pid).1 = k.table) := by
  have hpids := reachable_pids h
  have hprio := reachable_priorities h
  have hfound : ∀ p, 0 ≤ np ∧ np ≤ 100 → k.table.Live p → (k.table.proc p).pid = pid → k.table.setPriority np pid =
      ((k.table.resetPbsChances np).1.setProc p (fun r => { r with currPriority := np, pbsChances := 0 }), (k.table.proc p).currPriority) := by
    intro p hnp hl hp
    rw [setPriority_of_find hnp (find_pid hpids hb (live_iff.mp hl).1 hp), if_pos hl]
  refine ⟨⟨fun hpos => ?_, ?_⟩, fun p hnp hl hp => ?_, fun hneg => ?_⟩
  · by_cases hnp : 0 ≤ np ∧ np ≤ 100
    · refine ⟨hnp, ?_⟩
      cases hf : slots.find? (fun q => (k.table.proc q).pid = pid) with
      | none =>
        rw [setPriority, if_neg (by omega), hf] at hpos
        dsimp only at hpos
        omega
      | some p =>
        refine ⟨p, ?_, by simpa using List.find?_some hf⟩
        by_contra hl
        rw [setPriority_of_find hnp hf, if_neg hl] at hpos
        dsimp only at hpos
        omega
    · rw [setPriority, if_pos (by omega)] at hpos
      dsimp only at hpos
      omega
  · rintro ⟨hnp, p, hl, hp⟩
    rw [hfound p hnp hl hp]
    exact (hprio p).1
  · rw [hfound p hnp hl hp]
    refine ⟨rfl, hprio p, ?_, fun q hq => ?_⟩
    · rw [setProc_self]
    · rw [setProc_of_ne _ _ _ _ hq]
      exact (Frame.resetPbsChances (π := Proc.currPriority) k.table np).proc q
  · rcases setPriority_cases k.table np pid with ⟨hsame, -⟩ | ⟨p, -, -, -, hret, -⟩
    · exact hsame
    · have := (hprio p).1
      omega

theorem set_priority_contract_init : ∃ k : Kernel 1, (machine .pbs 1).Reachable k ∧ (k.table.setPriority 30 1).2 = 60 ∧
    ((k.table.setPriority 30 1).1.proc 0).currPriority = 30 := by
  have hrun : ((machine .pbs 1).run (Kernel.start 1) boot).any (fun k => k.table.handedOut = 1 ∧ k.table.st 0 = .running ∧
      (k.table.proc 0).pid = 1 ∧ (k.table.proc 0).currPriority = 60) := by decide +kernel
  obtain ⟨k, hr, hk⟩ := exists_reachable (M := machine .pbs 1) rfl hrun
  obtain ⟨hout, hst, hpid, hprio⟩ := of_decide_eq_true hk
  have hlive : k.table.Live 0 := by
    unfold Table.Live
    rw [hst]
    decide
  obtain ⟨hret, -, hnew, -⟩ := (set_priority_contract hr (by omega) 30 1).2.1 0 (by decide) hlive hpid
  exact ⟨k, hr, hret.trans hprio, hnew⟩

end EnhancedXv6.Threads
