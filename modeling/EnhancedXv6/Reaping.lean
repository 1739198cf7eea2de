import EnhancedXv6.Births
import EnhancedXv6.Families
import Mathlib.Data.List.Perm.Subperm

namespace EnhancedXv6.Threads

open Function (update update_apply update_of_ne update_self)
open ProcTable Table Scheduler Transition Machine

variable {n : ℕ}

structure Ledger where
  serial : Slot → ℕ := fun _ => 0
  forks : List (ℕ × ℤ) := []
  exits : List ℕ := []
  waits : List (ℕ × ℤ) := []

namespace Kernel

def forks (k : Kernel n) : Label n → Option Slot
  | .forkDone c => (k.procAt c .user).bind (fun p =>
      match k.making (some p) with
      | .copied np => some np
      | _ => none)
  | _ => none

def exits (k : Kernel n) : Label n → Option Slot
  | .exit c => (k.cpu c).proc
  | _ => none

def reaps (k : Kernel n) : Label n → Option (Slot × Slot)
  | .wait c _ => (k.procAt c .user).bind (fun p => (k.table.zombieChild p).map (fun q => (p, q)))
  | .resume c => (k.procAt c .swtchIn).bind (fun p =>
      if (k.table.proc p).context = .wait ∨ (k.table.proc p).context = .waitx then
        ((k.table.wakeSleeper p).zombieChild p).map (fun q => (p, q))
      else none)
  | _ => none

def recordLedger (g : Ledger) (k : Kernel n) (l : Label n) (k' : Kernel n) : Ledger where
  serial p := if k.Takes k' p then k.table.handedOut else g.serial p
  forks := ((k.forks l).map (fun np => (g.serial np, (k.table.proc np).pid))).toList ++ g.forks
  exits := ((k.exits l).map g.serial).toList ++ g.exits
  waits := ((k.reaps l).map (fun r => (g.serial r.2, (k.table.proc r.2).pid))).toList ++ g.waits

end Kernel

def ledgerMachine (b : Build) (n : ℕ) : Machine (Kernel n × Ledger) (Label n) :=
  (machine b n).history {} Kernel.recordLedger

namespace Kernel

variable {k k' : Kernel n} {l : Label n} {b : Build} {p q np : Slot}

theorem forks_step (hi : k.Inv) (hs : k.step b l = some k') (h : k.forks l = some np) :
    k.table.st np = .embryo ∧ k'.table.st np = .runnable := by
  cases step_cases hs with
  | @forkDone _ p np' hl hp hm =>
    rw [forks, procAt_eq.mpr hp, Option.bind_some, hm] at h
    cases h
    refine ⟨hi.live.embryo (some p) np (by rw [hm]; rfl), ?_⟩
    rw [setMaking_table, setTable_table, makeRunnable_st, update_self]
  | reap ht | waitFail ht | waitSleep ht => cases ht <;> cases h
  | run hp => cases hp <;> cases h
  | _ => cases h

theorem zombieChild_eq {t : Table} : t.zombieChild p = some q ↔ t.waitScan p = .reap q := by
  unfold zombieChild
  cases t.waitScan p <;> simp

theorem Turn.reaps {c : Fin n} {x : Context} {t : Table} (h : k.Turn c p x l t) :
    k.reaps l = (t.zombieChild p).map (fun q => (p, q)) := by
  cases h with
  | call hl hp hm hx => rw [Kernel.reaps, procAt_eq.mpr hp, Option.bind_some]
  | again hp hc hx =>
    subst hc
    rw [Kernel.reaps, procAt_eq.mpr hp, Option.bind_some, if_pos hx]

theorem Turn.reaps_eq {c : Fin n} {x : Context} {t : Table} {r : Slot} (h : k.Turn c r x l t) :
    k.reaps l = some (p, q) ↔ r = p ∧ t.waitScan p = .reap q := by
  rw [h.reaps, ← zombieChild_eq, Option.map_eq_some_iff]
  constructor
  · rintro ⟨y, hy, e⟩
    cases e
    exact ⟨rfl, hy⟩
  · rintro ⟨rfl, hy⟩
    exact ⟨q, hy, rfl⟩

theorem reaps_step (hs : k.step b l = some k') (h : k.reaps l = some (p, q)) :
    k.table.st q = .zombie ∧ (k.table.proc q).parent = some p ∧ k'.table.st q = .unused := by
  cases step_cases hs with
  | @reap _ c r q' x t ht hq =>
    obtain ⟨rfl, hscan⟩ := ht.reaps_eq.mp h
    obtain rfl : q = q' := by simpa [hscan] using hq
    obtain ⟨hpar, hz⟩ := waitScan_reap hscan
    refine ⟨ht.st ▸ hz, (ht.parent q).symm.trans hpar, ?_⟩
    rw [setCtl_table, setTable_table, reap_st, update_self]
  | waitFail ht hq | waitSleep ht hq =>
    obtain ⟨rfl, hscan⟩ := ht.reaps_eq.mp h
    rw [hq] at hscan
    cases hscan
  | resumeUser hp hx =>
    rw [reaps, procAt_eq.mpr hp, Option.bind_some, if_neg (by rcases hx with hx | hx <;> simp [hx])] at h
    cases h
  | resumeSleep hp hx =>
    rw [reaps, procAt_eq.mpr hp, Option.bind_some, if_neg (by simp [hx])] at h
    cases h
  | run hp => cases hp <;> cases h
  | _ => cases h

theorem reaps_of_freed (hi : k.Inv) (hs : k.step b l = some k') (hq : k.table.st q = .zombie) (hq' : k'.table.st q = .unused) :
    ∃ p, k.reaps l = some (p, q) := by
  obtain ⟨a, ha, hsrc, -⟩ := hi.moves hs q (by rw [hq, hq']; decide)
  rw [hq] at hsrc
  obtain rfl : a = .reap := by cases a <;> cases hsrc; rfl
  have hne : k.table.st q ≠ .unused := by simp [hq]
  cases step_cases hs with
  | @reap _ c p r x t ht hscan =>
    refine ⟨p, ht.reaps_eq.mpr ⟨rfl, ?_⟩⟩
    rw [setCtl_table, setTable_table, reap_st, ht.st] at hq'
    by_cases e : q = r
    · rw [hscan, e]
    · rw [update_of_ne e] at hq'
      exact absurd hq' hne
  | waitFail ht =>
    rw [setCtl_table, setTable_table, ht.st] at hq'
    exact absurd hq' hne
  | waitSleep ht =>
    rw [setCtl_table, setTable_table, goSleep_st, ht.st, update_apply] at hq'
    split_ifs at hq'
    exact absurd hq' hne
  | resumeUser => exact absurd hq' hne
  | resumeSleep =>
    rw [setCtl_table, setTable_table, wakeSleeper_st] at hq'
    exact absurd hq' hne
  | run hr => simp [hr.arrows] at ha
  | _ => simp [Label.arrows] at ha

theorem started_step (hi : k.Inv) (hs : k.step b l = some k') (hp : k.table.st p = .embryo) (hp' : (k'.table.st p).Started) :
    k.forks l = some p ∨ k.making none = .inited p := by
  obtain ⟨a, ha, hsrc, htgt⟩ := hi.moves hs p (fun e => hp'.2 (e.trans hp))
  rw [hp] at hsrc
  rw [htgt] at hp'
  cases a <;> cases hsrc
  · cases step_cases hs with
    | @userinitDone c q hl hc hm =>
      rw [setCtl_table, setMaking_table, setTable_table, userinitRunnable_st] at htgt
      by_cases e : p = q
      · rw [e]
        exact .inr hm
      · rw [update_of_ne e, hp] at htgt
        cases htgt
    | @forkDone c q np hl hq hm =>
      rw [setMaking_table, setTable_table, makeRunnable_st] at htgt
      by_cases e : p = np
      · left
        rw [forks, procAt_eq.mpr hq, Option.bind_some, hm, e]
      · rw [update_of_ne e, hp] at htgt
        cases htgt
    | reap ht | waitFail ht | waitSleep ht => simp [ht.arrows] at ha
    | run hr => simp [hr.arrows] at ha
    | _ => simp [Label.arrows] at ha
  · exact absurd rfl hp'.1

theorem zombie_of_exits (hi : k.Inv) (hs : k.step b l = some k') (hp : k.table.st p ≠ .zombie) (hp' : k'.table.st p = .zombie) :
    k.exits l = some p := by
  obtain ⟨a, ha, hsrc, htgt⟩ := hi.moves hs p (fun e => hp (e.symm.trans hp'))
  rw [hp'] at htgt
  cases a <;> cases htgt
  cases step_cases hs with
  | @exit c q hl hq hm hinit hc =>
    obtain ⟨u, hw, he⟩ := exit_eq b k.table q
    rw [setCtl_table, setTable_table, he, st_setProc] at hp'
    by_cases e : p = q
    · rw [exits, hq, e]
    · rw [update_of_ne e] at hp'
      exact absurd ((hw.st_of_ne' (by simp [hp'])).symm.trans hp') hp
  | reap ht | waitFail ht | waitSleep ht => simp [ht.arrows] at ha
  | run hr => simp [hr.arrows] at ha
  | _ => simp [Label.arrows] at ha

theorem unused_step (hi : k.Inv) (hs : k.step b l = some k') (hp : k.table.st p = .unused) (hp' : k'.table.st p ≠ .unused) :
    k.Takes k' p := by
  obtain ⟨a, -, hsrc, htgt⟩ := hi.moves hs p (fun e => hp' (e.trans hp))
  rw [hp] at hsrc
  cases a <;> cases hsrc
  exact ⟨hp, htgt⟩

theorem takes_step (hi : k.Inv) (hs : k.step b l = some k') (hp : k.Takes k' p) :
    k'.table.handedOut = k.table.handedOut + 1 ∧ ∀ q, k.Takes k' q → q = p := by
  have he := hi.effect hs
  unfold Takes at hp ⊢
  generalize k'.table = u at he hp ⊢
  have hnot : ∀ {t : Table}, Keeps k.table t → ¬ (k.table.st p = .unused ∧ t.st p = .embryo) := by
    intro t hk hx
    rw [hk.embryo p hx.2] at hx
    cases hx.1
  cases he with
  | keeps hk => exact absurd hp (hnot hk)
  | @alloc _ _ np hl ha =>
    obtain ⟨-, hu⟩ := allocproc_eq ha
    have hst : u.st = update k.table.st np .embryo := by
      rw [hu]
      exact st_setProc _ _ _
    have hnp : ∀ q, k.table.st q = .unused ∧ u.st q = .embryo → q = np := by
      rintro q ⟨hq, hq'⟩
      by_contra e
      rw [hst, update_of_ne e, hq] at hq'
      cases hq'
    refine ⟨?_, fun q hq => (hnp q hq).trans (hnp p hp).symm⟩
    rw [hu]
    rfl
  | @free _ np q c hl hq hm =>
    have hx := hp.2
    rw [freeEmbryo_st] at hx
    by_cases e : p = np
    · rw [e, update_self] at hx
      cases hx
    · rw [update_of_ne e, hp.1] at hx
      cases hx
  | @reap _ v q hk hq =>
    have hx := hp.2
    rw [reap_st] at hx
    by_cases e : p = q
    · rw [e, update_self] at hx
      cases hx
    · rw [update_of_ne e] at hx
      exact absurd ⟨hp.1, hx⟩ (hnot hk)
  | @kill c pid v q hq hk =>
    have hx := hk.embryo p hp.2
    rw [mark_st, hp.1] at hx
    cases hx
  | @fault c q hq =>
    have hx := hp.2
    rw [mark_st, hp.1] at hx
    cases hx

theorem pid_step (hi : k.Inv) (hs : k.step b l = some k') (hp : k.table.st p ≠ .unused) (hp' : k'.table.st p ≠ .unused) :
    (k'.table.proc p).pid = (k.table.proc p).pid := by
  have he := hi.effect hs
  generalize k'.table = u at he hp' ⊢
  have hmark : ∀ q, ((k.table.setProc q (fun r => { r with killed := true })).proc p).pid = (k.table.proc p).pid := by
    intro q
    rw [setProc_proc]
    split_ifs with e
    · rw [e]
    · rfl
  cases he with
  | keeps hk => exact hk.pid p
  | @alloc _ _ np hl ha =>
    obtain ⟨hn, rfl⟩ := allocproc_eq ha
    rw [setProc_of_ne _ _ _ _ (by rintro rfl; exact hp hn)]
  | @free _ np q c hl hq hm =>
    rw [freeEmbryo, setProc_proc]
    split_ifs with e
    · rw [e]
    · rfl
  | @reap _ v q hk hq =>
    have e : p ≠ q := by
      rintro rfl
      exact hp' (by rw [reap_st, update_self])
    rw [Table.reap, setProc_of_ne _ _ _ _ e]
    exact hk.pid p
  | @kill c pid v q hq hk => exact (hk.pid p).trans (hmark q)
  | @fault c q hq => exact hmark q

end Kernel

structure Entered (s : Kernel n × Ledger) : Prop where
  serial_lt : ∀ p, s.1.table.st p ≠ .unused → s.2.serial p < s.1.table.handedOut
  serial_inj : ∀ p q, s.1.table.st p ≠ .unused → s.1.table.st q ≠ .unused → s.2.serial p = s.2.serial q → p = q
  forks_lt : ∀ x ∈ s.2.forks, x.1 < s.1.table.handedOut
  embryo : ∀ p, s.1.table.st p = .embryo → s.2.serial p ∉ s.2.forks.map Prod.fst
  forked : ∀ p, (s.1.table.st p).Started → s.1.table.initproc ≠ some p → (s.2.serial p, (s.1.table.proc p).pid) ∈ s.2.forks
  exited : ∀ p, s.1.table.st p = .zombie → s.2.serial p ∈ s.2.exits
  unwaited : ∀ p, s.1.table.st p ≠ .unused → s.2.serial p ∉ s.2.waits.map Prod.fst
  forks_nodup : (s.2.forks.map Prod.fst).Nodup
  waits_nodup : (s.2.waits.map Prod.fst).Nodup
  waits_forks : s.2.waits ⊆ s.2.forks

namespace Entered

open Kernel

variable {s s' : Kernel n × Ledger} {l : Label n} {b : Build}

theorem reaped (h : Entered s) (hf : s.1.Families) {k' : Kernel n} (hs : s.1.step b l = some k') {p q : Slot}
    (hr : s.1.reaps l = some (p, q)) : (s.1.table.proc q).parent = some p ∧
      (s.2.serial q, (s.1.table.proc q).pid) ∈ s.2.forks ∧ s.2.serial q ∈ s.2.exits ∧
      s.2.serial q ∉ s.2.waits.map Prod.fst := by
  obtain ⟨hz, hpar, -⟩ := reaps_step hs hr
  have hst : (s.1.table.st q).Started := by
    rw [hz]
    exact ⟨by decide, by decide⟩
  have hinit : s.1.table.initproc ≠ some q := by
    intro hq
    obtain ⟨i, hi, ha⟩ := hf.table.init q hst
    rw [hq] at hi
    cases hi
    exact ha.2 hz
  exact ⟨hpar, h.forked q hst hinit, h.exited q hz, h.unwaited q hst.1⟩

theorem used_step (hi : s.1.Inv) (hs : s.1.step b l = some s'.1) (hg : s'.2 = recordLedger s.2 s.1 l s'.1) {p : Slot}
    (hp : s'.1.table.st p ≠ .unused) : (s.1.Takes s'.1 p ∧ s'.2.serial p = s.1.table.handedOut) ∨
      (s.1.table.st p ≠ .unused ∧ s'.2.serial p = s.2.serial p) := by
  rw [hg, recordLedger]
  dsimp only
  by_cases e : s.1.table.st p = .unused
  · have ht := unused_step hi hs e hp
    exact .inl ⟨ht, if_pos ht⟩
  · exact .inr ⟨e, if_neg (fun ht => e ht.1)⟩

theorem serials_step (h : Entered s) (hi : s.1.Inv) (hs : s.1.step b l = some s'.1)
    (hg : s'.2 = recordLedger s.2 s.1 l s'.1) :
    (∀ p, s'.1.table.st p ≠ .unused → s'.2.serial p < s'.1.table.handedOut) ∧
      ∀ p q, s'.1.table.st p ≠ .unused → s'.1.table.st q ≠ .unused → s'.2.serial p = s'.2.serial q → p = q := by
  have hmono := handedOut_mono hi hs
  constructor
  · intro p hp
    rcases used_step hi hs hg hp with ⟨ht, e⟩ | ⟨hu, e⟩
    · rw [e, (takes_step hi hs ht).1]
      exact Nat.lt_succ_self _
    · rw [e]
      exact lt_of_lt_of_le (h.serial_lt p hu) hmono
  · intro p q hp hq heq
    rcases used_step hi hs hg hp with ⟨ht, e⟩ | ⟨hu, e⟩ <;> rcases used_step hi hs hg hq with ⟨ht', e'⟩ | ⟨hu', e'⟩
    · exact (takes_step hi hs ht').2 p ht
    · have := h.serial_lt q hu'
      omega
    · have := h.serial_lt p hu
      omega
    · exact h.serial_inj p q hu hu' (e.symm.trans (heq.trans e'))

theorem mem_forks (hg : s'.2 = recordLedger s.2 s.1 l s'.1) {x : ℕ × ℤ} :
    x ∈ s'.2.forks ↔ (∃ np, s.1.forks l = some np ∧ x = (s.2.serial np, (s.1.table.proc np).pid)) ∨ x ∈ s.2.forks := by
  rw [hg, recordLedger]
  cases s.1.forks l <;> simp

theorem mem_waits (hg : s'.2 = recordLedger s.2 s.1 l s'.1) {x : ℕ × ℤ} :
    x ∈ s'.2.waits ↔ (∃ r, s.1.reaps l = some r ∧ x = (s.2.serial r.2, (s.1.table.proc r.2).pid)) ∨ x ∈ s.2.waits := by
  rw [hg, recordLedger]
  cases s.1.reaps l <;> simp

theorem forks_step (h : Entered s) (hi : s.1.Inv) (hs : s.1.step b l = some s'.1) (hg : s'.2 = recordLedger s.2 s.1 l s'.1) :
    (∀ x ∈ s'.2.forks, x.1 < s.1.table.handedOut) ∧ (s'.2.forks.map Prod.fst).Nodup := by
  constructor
  · intro x hx
    rcases (mem_forks hg).mp hx with ⟨np, hnp, rfl⟩ | hx
    · exact h.serial_lt np (by rw [(Kernel.forks_step hi hs hnp).1]; decide)
    · exact h.forks_lt x hx
  · rw [hg, recordLedger]
    cases hf : s.1.forks l with
    | none => simpa using h.forks_nodup
    | some np => exact List.nodup_cons.mpr ⟨h.embryo np (Kernel.forks_step hi hs hf).1, h.forks_nodup⟩

theorem embryo_step (h : Entered s) (hi : s.1.Inv) (hs : s.1.step b l = some s'.1) (hg : s'.2 = recordLedger s.2 s.1 l s'.1)
    (p : Slot) (hp : s'.1.table.st p = .embryo) : s'.2.serial p ∉ s'.2.forks.map Prod.fst := by
  intro hmem
  obtain ⟨x, hx, hxe⟩ := List.mem_map.mp hmem
  rcases used_step hi hs hg (p := p) (by rw [hp]; decide) with ⟨ht, e⟩ | ⟨hu, e⟩
  · have := (h.forks_step hi hs hg).1 x hx
    omega
  · have hold : s.1.table.st p = .embryo := by
      by_contra hne
      obtain ⟨a, -, hsrc, htgt⟩ := hi.moves hs p (by rw [hp]; exact Ne.symm hne)
      rw [hp] at htgt
      cases a <;> cases htgt
      exact hu hsrc
    rcases (mem_forks hg).mp hx with ⟨np, hnp, rfl⟩ | hx
    · obtain ⟨hne, hne'⟩ := Kernel.forks_step hi hs hnp
      have hpn := h.serial_inj np p (by rw [hne]; decide) hu (hxe.trans e)
      rw [hpn, hp] at hne'
      cases hne'
    · exact h.embryo p hold (List.mem_map.mpr ⟨x, hx, hxe.trans e⟩)

theorem forked_step (h : Entered s) (hi : s.1.Inv) (hf : s.1.Families) (hs : s.1.step b l = some s'.1)
    (hg : s'.2 = recordLedger s.2 s.1 l s'.1) (p : Slot) (hp : (s'.1.table.st p).Started)
    (hne : s'.1.table.initproc ≠ some p) : (s'.2.serial p, (s'.1.table.proc p).pid) ∈ s'.2.forks := by
  rcases used_step hi hs hg hp.1 with ⟨ht, -⟩ | ⟨hu, e⟩
  · exact absurd ht.2 hp.2
  rw [e, pid_step hi hs hu hp.1]
  apply (mem_forks hg).mpr
  by_cases hold : s.1.table.st p = .embryo
  · rcases started_step hi hs hold hp with hfk | hm
    · exact .inl ⟨p, hfk, rfl⟩
    · -- `userinit` has made `init`
      exfalso
      apply hne
      rcases (relates_step hs).initproc with e | ⟨-, q, hq⟩
      · exact e.trans (hf.inited p hm)
      · rw [hm] at hq
        cases hq
  · right
    apply h.forked p ⟨hu, hold⟩
    rcases (relates_step hs).initproc with e | ⟨⟨c, hc⟩, -⟩
    · exact e ▸ hne
    · exact absurd ⟨hu, hold⟩ ((hf.booting c hc).2 p)

theorem exited_step (h : Entered s) (hi : s.1.Inv) (hs : s.1.step b l = some s'.1) (hg : s'.2 = recordLedger s.2 s.1 l s'.1)
    (p : Slot) (hp : s'.1.table.st p = .zombie) : s'.2.serial p ∈ s'.2.exits := by
  rcases used_step hi hs hg (p := p) (by rw [hp]; decide) with ⟨ht, -⟩ | ⟨hu, e⟩
  · rw [ht.2] at hp
    cases hp
  · rw [e, hg, recordLedger]
    dsimp only
    by_cases hz : s.1.table.st p = .zombie
    · exact List.mem_append_right _ (h.exited p hz)
    · rw [zombie_of_exits hi hs hz hp]
      exact List.mem_append_left _ (List.mem_singleton.mpr rfl)

theorem waits_step (h : Entered s) (hi : s.1.Inv) (hf : s.1.Families) (hs : s.1.step b l = some s'.1)
    (hg : s'.2 = recordLedger s.2 s.1 l s'.1) :
    (∀ p, s'.1.table.st p ≠ .unused → s'.2.serial p ∉ s'.2.waits.map Prod.fst) ∧
      (s'.2.waits.map Prod.fst).Nodup ∧ s'.2.waits ⊆ s'.2.forks := by
  have hlt : ∀ x ∈ s'.2.waits, x.1 < s.1.table.handedOut := by
    intro x hx
    rcases (mem_waits hg).mp hx with ⟨⟨p, q⟩, hr, rfl⟩ | hx
    · exact h.serial_lt q (by rw [(reaps_step hs hr).1]; decide)
    · exact h.forks_lt x (h.waits_forks hx)
  refine ⟨fun p hp hmem => ?_, ?_, fun x hx => ?_⟩
  · obtain ⟨x, hx, hxe⟩ := List.mem_map.mp hmem
    rcases used_step hi hs hg hp with ⟨ht, e⟩ | ⟨hu, e⟩
    · have := hlt x hx
      omega
    · rcases (mem_waits hg).mp hx with ⟨⟨r, q⟩, hr, rfl⟩ | hx
      · obtain ⟨hz, -, hun⟩ := reaps_step hs hr
        have hqp := h.serial_inj q p (by rw [hz]; decide) hu (hxe.trans e)
        rw [hqp] at hun
        exact hp hun
      · exact h.unwaited p hu (List.mem_map.mpr ⟨x, hx, hxe.trans e⟩)
  · rw [hg, recordLedger]
    cases hr : s.1.reaps l with
    | none => simpa using h.waits_nodup
    | some r => exact List.nodup_cons.mpr ⟨(h.reaped hf hs (p := r.1) (q := r.2) hr).2.2.2, h.waits_nodup⟩
  · apply (mem_forks hg).mpr
    right
    rcases (mem_waits hg).mp hx with ⟨⟨p, q⟩, hr, rfl⟩ | hx
    · exact (h.reaped hf hs hr).2.1
    · exact h.waits_forks hx

end Entered

theorem reachable_entered {b : Build} {s : Kernel n × Ledger} (h : (ledgerMachine b n).Reachable s) : Entered s := by
  refine ReachableWhere.invariant h ?_ ?_
  · rintro ⟨k, g⟩ ⟨hk, hg⟩
    obtain rfl : k = Kernel.start n := hk
    obtain rfl : g = {} := hg
    have hu : ∀ p, (Kernel.start n).table.st p = .unused := fun _ => rfl
    exact {
      serial_lt := fun p hp => absurd (hu p) hp
      serial_inj := fun p _ hp => absurd (hu p) hp
      forks_lt := fun x hx => absurd hx List.not_mem_nil
      embryo := fun p _ => List.not_mem_nil
      forked := fun p hp => absurd (hu p) hp.1
      exited := fun p hp => absurd ((hu p).symm.trans hp) (by decide)
      unwaited := fun p _ => List.not_mem_nil
      forks_nodup := List.nodup_nil
      waits_nodup := List.nodup_nil
      waits_forks := fun _ => id }
  · intro s l s' hr he _ hn
    obtain ⟨hs, hg⟩ := history_next hn
    have hk := history_reachable hr
    have hi := reachable_inv hk
    have hf := reachable_families hk
    obtain ⟨hlt, hinj⟩ := he.serials_step hi hs hg
    obtain ⟨hflt, hfnd⟩ := he.forks_step hi hs hg
    obtain ⟨hun, hwnd, hsub⟩ := he.waits_step hi hf hs hg
    exact ⟨hlt, hinj, fun x hx => lt_of_lt_of_le (hflt x hx) (handedOut_mono hi hs), he.embryo_step hi hs hg,
      he.forked_step hi hf hs hg, he.exited_step hi hs hg, hun, hfnd, hwnd, hsub⟩

theorem children_reaped_once (b : Build) (n : ℕ) (s : Kernel n × Ledger) (h : (ledgerMachine b n).Reachable s) :
    (∀ q, s.1.table.st q ≠ .unused → s.1.table.st q ≠ .embryo → s.1.table.initproc ≠ some q →
      ∃ p, (s.1.table.proc q).parent = some p ∧ s.1.table.st p ≠ .unused ∧ s.1.table.st p ≠ .zombie) ∧
    (∀ p q, s.1.table.InWait p → (s.1.table.proc q).parent = some p → s.1.table.st q ≠ .zombie) ∧
    ((s.2.forks.map Prod.fst).Nodup ∧ (s.2.waits.map Prod.fst).Nodup ∧ s.2.waits ⊆ s.2.forks ∧
      ∀ pid, s.2.waits.countP (·.2 = pid) ≤ s.2.forks.countP (·.2 = pid)) ∧
    ∀ l k', s.1.step b l = some k' →
      (∀ q, s.1.table.st q = .zombie → k'.table.st q = .unused → ∃ p, s.1.reaps l = some (p, q)) ∧
      ∀ p q, s.1.reaps l = some (p, q) → (s.1.table.proc q).parent = some p ∧
        (s.2.serial q, (s.1.table.proc q).pid) ∈ s.2.forks ∧ s.2.serial q ∈ s.2.exits ∧
        s.2.serial q ∉ s.2.waits.map Prod.fst := by
  have hk := history_reachable h
  have hi := reachable_inv hk
  have hf := reachable_families hk
  have he := reachable_entered h
  refine ⟨fun q hu hne hinit => ?_, fun p q hw hpar hz => hf.table.awake p q hw hz hpar,
    ⟨he.forks_nodup, he.waits_nodup, he.waits_forks, fun pid => ?_⟩, fun l k' hs => ⟨fun q => Kernel.reaps_of_freed hi hs, fun p q => ?_⟩⟩
  · obtain ⟨p, hp, -, ha⟩ := hf.table.parent q ⟨hu, hne⟩ hinit
    exact ⟨p, hp, ha.1.1, ha.2⟩
  · exact (List.subperm_of_subset (List.Nodup.of_map _ he.waits_nodup) he.waits_forks).countP_le _
  · exact he.reaped hf hs

theorem children_reaped_once_child : ∃ s : Kernel 1 × Ledger, (ledgerMachine .rr 1).Reachable s ∧ s.2.waits = [] ∧
    ∃ k', s.1.step .rr (.resume 0) = some k' ∧ s.1.table.st 1 = .zombie ∧ k'.table.st 1 = .unused ∧
      (s.1.table.proc 1).parent = some 0 ∧ s.2.serial 1 ∈ s.2.exits := by
  obtain ⟨s, hs, hP⟩ := exists_reachable (M := ledgerMachine .rr 1) (s := (Kernel.start 1, {}))
    (w := boot ++ fork ++ [.wait 0 .wait, .back 0, .resume 0, .exit 0, .back 0, .schedule 0])
    (P := fun s => decide (s.2.waits = [] ∧ s.1.table.st 1 = .zombie ∧ s.1.reaps (.resume 0) = some (0, 1)) &&
      (s.1.step .rr (.resume 0)).any (fun k' => k'.table.st 1 = .unused)) ⟨rfl, rfl⟩ (by decide +kernel)
  rw [Bool.and_eq_true, decide_eq_true_eq] at hP
  obtain ⟨⟨hw, hz, hr⟩, hnext⟩ := hP
  obtain ⟨k', hk, hu⟩ := (Option.any_eq_true _ _).mp hnext
  obtain ⟨hpar, -, hx, -⟩ := ((children_reaped_once .rr 1 s hs).2.2.2 _ k' hk).2 0 1 hr
  exact ⟨s, hs, hw, k', hk, hz, of_decide_eq_true hu, hpar, hx⟩

end EnhancedXv6.Threads
