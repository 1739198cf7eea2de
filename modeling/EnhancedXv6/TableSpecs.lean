import EnhancedXv6.Frames

namespace EnhancedXv6

namespace ProcTable

open Table

def NoChances (t : Table) : Prop := ∀ p, (t.proc p).pbsChances = 0

structure Wakes (t u : Table) : Prop where
  state : ∀ p, (u.proc p).state = (t.proc p).state ∨
    ((t.proc p).state = .sleeping ∧ (u.proc p).state = .runnable)
  pid : ∀ p, (u.proc p).pid = (t.proc p).pid
  context : ∀ p, (u.proc p).context = (t.proc p).context ∨ (u.proc p).context = .forkret
  killed : ∀ p, (u.proc p).killed = (t.proc p).killed
  chances : NoChances t → NoChances u
  nextpid : u.nextpid = t.nextpid
  handedOut : u.handedOut = t.handedOut

namespace Wakes

theorem of_proc {t u : Table} (hp : u.proc = t.proc) (hn : u.nextpid = t.nextpid)
    (hh : u.handedOut = t.handedOut) : Wakes t u := by
  refine ⟨fun p => .inl ?_, fun p => ?_, fun p => .inl ?_, fun p => ?_, fun h p => ?_, hn, hh⟩
  all_goals rw [hp]
  exact h p

theorem refl (t : Table) : Wakes t t := of_proc rfl rfl rfl

theorem trans {t u v : Table} (h : Wakes t u) (k : Wakes u v) : Wakes t v where
  state p := by
    rcases h.state p with hs | ⟨hs, hr⟩ <;> rcases k.state p with ks | ⟨ks, kr⟩
    · exact .inl (ks.trans hs)
    · exact .inr ⟨hs ▸ ks, kr⟩
    · exact .inr ⟨hs, ks.trans hr⟩
    · exact .inr ⟨hs, kr⟩
  pid p := (k.pid p).trans (h.pid p)
  context p := by
    rcases k.context p with ks | ks
    · rw [ks]; exact h.context p
    · exact .inr ks
  killed p := (k.killed p).trans (h.killed p)
  chances := k.chances ∘ h.chances
  nextpid := k.nextpid.trans h.nextpid
  handedOut := k.handedOut.trans h.handedOut

theorem setProc (t : Table) (p : Slot) (f : Proc → Proc)
    (hs : (f (t.proc p)).state = (t.proc p).state ∨
      ((t.proc p).state = .sleeping ∧ (f (t.proc p)).state = .runnable))
    (hp : (f (t.proc p)).pid = (t.proc p).pid)
    (hx : (f (t.proc p)).context = (t.proc p).context ∨ (f (t.proc p)).context = .forkret := by
      exact .inl rfl)
    (hk : (f (t.proc p)).killed = (t.proc p).killed := by rfl)
    (hc : NoChances t → (f (t.proc p)).pbsChances = 0 := by exact fun h => h _) : Wakes t (t.setProc p f) where
  state q := by
    by_cases h : q = p
    · subst h; simpa using hs
    · simp [h]
  pid q := by
    by_cases h : q = p
    · subst h; simpa using hp
    · simp [h]
  context q := by
    by_cases h : q = p
    · subst h; simpa using hx
    · simp [h]
  killed q := by
    by_cases h : q = p
    · subst h; simpa using hk
    · simp [h]
  chances hn q := by
    by_cases h : q = p
    · subst h; simpa using hc hn
    · simpa [h] using hn q
  nextpid := rfl
  handedOut := rfl

theorem unused {t u : Table} (h : Wakes t u) (p : Slot) : u.st p = .unused ↔ t.st p = .unused := by
  unfold st
  rcases h.state p with e | ⟨e, e'⟩
  · rw [e]
  · rw [e, e']; simp

theorem st_of_ne {t u : Table} {p : Slot} (h : Wakes t u) (hp : t.st p ≠ .sleeping) : u.st p = t.st p :=
  (h.state p).resolve_right (fun e => hp e.1)

theorem st_of_ne' {t u : Table} {p : Slot} (h : Wakes t u) (hp : u.st p ≠ .runnable) : u.st p = t.st p :=
  (h.state p).resolve_right (fun e => hp e.2)

theorem foldl (f : Table → Slot → Table) (hf : ∀ t p, Wakes t (f t p)) (ps : List Slot) (t : Table) :
    Wakes t (ps.foldl f t) := by
  induction ps generalizing t with
  | nil => exact refl t
  | cons p ps ih => exact (hf t p).trans (ih (f t p))

end Wakes

def Proc.core (r : Proc) : ProcState × ℤ × Context × Bool × ℤ := (r.state, r.pid, r.context, r.killed, r.pbsChances)

instance : IgnoresQueue Proc.core := by
  constructor <;> intros <;> rfl

theorem Frame.wakes {t u : Table} (h : Frame Proc.core t u) : Wakes t u := by
  have hp := h.proc
  simp only [Proc.core, Prod.mk.injEq] at hp
  exact ⟨fun p => .inl (hp p).1, fun p => (hp p).2.1, fun p => .inl (hp p).2.2.1, fun p => (hp p).2.2.2.1,
    fun hn p => (hp p).2.2.2.2.trans (hn p), h.pids.1, h.pids.2⟩

theorem Frame.st {t u : Table} (h : Frame Proc.core t u) : u.st = t.st := by
  funext p
  exact congrArg Prod.fst (h.proc p)

theorem pushBackProcess_proc (t : Table) (p r : Slot) (q : ℕ) :
    (t.pushBackProcess p q).1.proc r = t.proc r ∨
      (t.pushBackProcess p q).1.proc r = { t.proc r with currQueueId := q } := by
  unfold pushBackProcess
  split
  · exact .inl rfl
  · simp only [setProc_proc]
    split_ifs with h
    · rw [h]; exact .inr rfl
    · exact .inl rfl

theorem pushBackProcess_of_ne (t : Table) {p r : Slot} (q : ℕ) (h : r ≠ p) :
    (t.pushBackProcess p q).1.proc r = t.proc r := by
  unfold pushBackProcess
  split
  · rfl
  · rw [setProc_of_ne _ _ _ _ h]

theorem pushBackProcess_st (t : Table) (p : Slot) (q : ℕ) : (t.pushBackProcess p q).1.st = t.st := (Frame.pushBackProcess t p q).st

theorem pushBackProcess_state (t : Table) (p r : Slot) (q : ℕ) :
    ((t.pushBackProcess p q).1.proc r).state = (t.proc r).state := congrFun (pushBackProcess_st t p q) r

theorem pushBackProcess_wakes (t : Table) (p : Slot) (q : ℕ) : Wakes t (t.pushBackProcess p q).1 :=
  (Frame.pushBackProcess t p q).wakes

theorem deleteProcess_proc (t : Table) (p : Slot) (q : ℕ) : (t.deleteProcess p q).1.proc = t.proc := by
  unfold deleteProcess
  split <;> rfl

theorem deleteProcess_st (t : Table) (p : Slot) (q : ℕ) : (t.deleteProcess p q).1.st = t.st := by
  unfold st
  rw [deleteProcess_proc]

theorem subtractChances_proc (c m : ℤ) (ps : List Slot) (t : Table) (p : Slot) :
    ∃ x, (subtractChances c m ps t).1.proc p = { t.proc p with pbsChances := x } ∧
      (m = 0 → x = (t.proc p).pbsChances) := by
  induction ps generalizing t with
  | nil => exact ⟨_, rfl, fun _ => rfl⟩
  | cons q ps ih =>
    have hset : ∃ x, (t.setProc q (fun r => { r with pbsChances := r.pbsChances - m })).proc p =
        { t.proc p with pbsChances := x } ∧ (m = 0 → x = (t.proc p).pbsChances) := by
      rw [setProc_proc]
      split_ifs with h
      · exact ⟨_, by rw [h], fun e => by rw [e, h, Int.sub_zero]⟩
      · exact ⟨_, rfl, fun _ => rfl⟩
    simp only [subtractChances]
    split_ifs
    · exact hset
    · obtain ⟨x, hx, hm⟩ := hset
      obtain ⟨y, hy, hn⟩ := ih (t.setProc q (fun r => { r with pbsChances := r.pbsChances - m }))
      exact ⟨y, by rw [hy, hx], fun e => by rw [hn e, hx]; exact hm e⟩
    · exact ih t

theorem subtractChances_counters (c m : ℤ) (ps : List Slot) (t : Table) :
    (subtractChances c m ps t).1.nextpid = t.nextpid ∧
      (subtractChances c m ps t).1.handedOut = t.handedOut := by
  induction ps generalizing t with
  | nil => exact ⟨rfl, rfl⟩
  | cons q ps ih =>
    simp only [subtractChances]
    split_ifs
    · exact ⟨rfl, rfl⟩
    · exact ih _
    · exact ih t

theorem maxChances_eq_zero {t : Table} (h : NoChances t) (c : ℤ) : t.maxChances c = 0 := by
  have key : ∀ ps : List Slot, ps.foldl (fun m p => if (t.proc p).currPriority = c then
      getMaxima m (t.proc p).pbsChances else m) 0 = 0 := by
    intro ps
    induction ps with
    | nil => rfl
    | cons p ps ih =>
      rw [List.foldl_cons]
      split_ifs
      · rw [h p]; exact ih
      · exact ih
  exact key slots

theorem resetPbsChances_wakes (t : Table) (c : ℤ) : Wakes t (t.resetPbsChances c).1 := by
  have hp := subtractChances_proc c (t.maxChances c) slots t
  refine ⟨fun p => .inl ?_, fun p => ?_, fun p => .inl ?_, fun p => ?_, fun hn p => ?_,
    (subtractChances_counters _ _ _ t).1, (subtractChances_counters _ _ _ t).2⟩
  all_goals obtain ⟨x, hx, hm⟩ := hp p; rw [resetPbsChances, hx]
  exact (hm (maxChances_eq_zero hn c)).trans (hn p)

theorem resetPbsChances_state (t : Table) (c : ℤ) (p : Slot) :
    ((t.resetPbsChances c).1.proc p).state = (t.proc p).state := by
  obtain ⟨x, hx, -⟩ := subtractChances_proc c (t.maxChances c) slots t p
  rw [resetPbsChances, hx]

theorem allocprocTail_wakes (b : Build) (t : Table) (p : Slot) : Wakes t (t.allocprocTail b p) := by
  have hc : Wakes t (t.setProc p (fun r => { r with context := .forkret })) :=
    .setProc _ _ _ (.inl rfl) rfl (.inr rfl)
  unfold allocprocTail initializeNewFields
  refine hc.trans (Wakes.setProc _ _ _ ?_ ?_ ?_ ?_ ?_)
  · left; cases b <;> rfl
  · cases b <;> rfl
  · left; cases b <;> rfl
  · cases b <;> rfl
  · intro; cases b <;> rfl

theorem allocprocTail_of_ne (b : Build) (t : Table) {p r : Slot} (h : r ≠ p) :
    (t.allocprocTail b p).proc r = t.proc r := by
  simp [allocprocTail, initializeNewFields, h]

theorem allocprocTail_st (b : Build) (t : Table) (p : Slot) : (t.allocprocTail b p).st = t.st := by
  funext r
  unfold allocprocTail initializeNewFields
  by_cases e : r = p
  · subst e; cases b <;> simp [st]
  · simp [st, e]

theorem resetPbsChances_st (t : Table) (c : ℤ) : (t.resetPbsChances c).1.st = t.st :=
  funext (resetPbsChances_state t c)

theorem setPriority_st (t : Table) (c pid : ℤ) : (t.setPriority c pid).1.st = t.st := by
  unfold setPriority
  split_ifs
  · rfl
  · split
    · rfl
    · split_ifs <;> dsimp only
      rw [st_setProc, ← resetPbsChances_st t c]
      exact Function.update_eq_self _ _

theorem makeRunnable_wakes (b : Build) (t : Table) (np : Slot) :
    Wakes (t.setProc np (fun r => { r with state := .runnable })) (t.makeRunnable b np) := by
  unfold makeRunnable
  cases b with
  | rr => exact .refl _
  | fcfs => exact .refl _
  | pbs => exact resetPbsChances_wakes _ _
  | mlfq => exact pushBackProcess_wakes _ _ _

theorem userinitRunnable_wakes (b : Build) (t : Table) (p : Slot) :
    Wakes (t.setProc p (fun r => { r with state := .runnable })) (t.userinitRunnable b p) := by
  unfold userinitRunnable
  dsimp only
  split_ifs
  · exact pushBackProcess_wakes _ _ _
  · exact .refl _

theorem wakeOne_wakes (b : Build) (chan : Option Chan) (t : Table) (p : Slot) :
    Wakes t (wakeOne b chan t p) := by
  unfold wakeOne
  split_ifs with h hb
  · have hr : Wakes t (t.setProc p (fun r => { r with state := .runnable })) :=
      .setProc _ _ _ (.inr ⟨h.1, rfl⟩) rfl
    exact hr.trans ((Wakes.setProc _ p _ (.inl rfl) rfl).trans (pushBackProcess_wakes _ _ _))
  · exact Wakes.setProc t p _ (.inr ⟨h.1, rfl⟩) rfl
  · exact .refl t

theorem wakeup1_wakes (b : Build) (t : Table) (chan : Option Chan) : Wakes t (t.wakeup1 b chan) :=
  Wakes.foldl _ (wakeOne_wakes b chan) _ t

theorem kill_eq (b : Build) (t : Table) (pid : ℤ) :
    (t.kill b pid = (t, -1) ∧ ∀ p, (t.proc p).pid ≠ pid) ∨
      ∃ p, (t.proc p).pid = pid ∧ (t.kill b pid).2 = 0 ∧
        Wakes (t.setProc p (fun r => { r with killed := true })) (t.kill b pid).1 := by
  unfold kill
  split
  · rename_i hf
    left
    exact ⟨rfl, fun p => by simpa using List.find?_eq_none.mp hf p (List.mem_finRange p)⟩
  · rename_i p hp
    right
    refine ⟨p, by simpa using List.find?_some hp, ?_⟩
    dsimp only
    split_ifs with hs hb <;> dsimp only
    · refine ⟨rfl, (pushBackProcess_wakes _ _ _).trans (Wakes.setProc _ _ _ (.inr ⟨?_, rfl⟩) rfl)⟩
      rw [pushBackProcess_state]
      exact hs
    · exact ⟨rfl, Wakes.setProc _ _ _ (.inr ⟨hs, rfl⟩) rfl⟩
    · exact ⟨rfl, .refl _⟩

theorem setPriority_wakes (t : Table) (c pid : ℤ) : Wakes t (t.setPriority c pid).1 := by
  unfold setPriority
  split_ifs
  · exact .refl t
  · split
    · exact .refl t
    · split_ifs <;> dsimp only
      · exact .refl t
      · exact (resetPbsChances_wakes t c).trans (Wakes.setProc _ _ _ (.inl rfl) rfl (.inl rfl) rfl (fun _ => rfl))

theorem reparentOne_wakes (b : Build) (curproc : Slot) (t : Table) (p : Slot) :
    Wakes t (reparentOne b curproc t p) := by
  have hset : Wakes t (t.setProc p (fun r => { r with parent := t.initproc })) := .setProc _ _ _ (.inl rfl) rfl
  unfold reparentOne
  split
  · dsimp only
    split
    · exact hset.trans (wakeup1_wakes b _ _)
    · exact hset
  · exact .refl t

theorem wakeSleeper_wakes (t : Table) (p : Slot) : Wakes t (t.wakeSleeper p) := .setProc _ _ _ (.inl rfl) rfl

theorem setupDemotion_wakes (t : Table) (p : Slot) : Wakes t (t.setupDemotion p) := (Frame.setupDemotion t p).wakes

theorem exit_eq (b : Build) (t : Table) (p : Slot) :
    ∃ u, Wakes t u ∧ t.exit b p = u.setProc p (fun r => { r with state := .zombie, endTime := i32 u.ticks }) :=
  ⟨_, (wakeup1_wakes b t _).trans (Wakes.foldl _ (reparentOne_wakes b p) _ _), rfl⟩

theorem Frame.exit {α : Type*} {π : Proc → α} [IgnoresState π] [IgnoresFamily π] [IgnoresQueue π] (b : Build) (t : Table) (p : Slot) :
    ∃ u, Frame π t u ∧ Wakes t u ∧
      t.exit b p = u.setProc p (fun r => { r with state := .zombie, endTime := i32 u.ticks }) :=
  ⟨_, (Frame.wakeup1 b t _).trans (.foldl (Frame.reparentOne b p) _ _),
    (wakeup1_wakes b t _).trans (Wakes.foldl _ (reparentOne_wakes b p) _ _), rfl⟩

theorem tickProc_keeps (b : Build) (r : Proc) :
    (tickProc b r).state = r.state ∧ (tickProc b r).pid = r.pid ∧ (tickProc b r).context = r.context ∧
      (tickProc b r).killed = r.killed ∧ (tickProc b r).pbsChances = r.pbsChances := by
  unfold tickProc
  split_ifs
  · exact ⟨rfl, rfl, rfl, rfl, rfl⟩
  all_goals split <;> simp_all

theorem tick_wakes (b : Build) (t : Table) : Wakes t (t.tick b) where
  state p := .inl (tickProc_keeps b (t.proc p)).1
  pid p := (tickProc_keeps b (t.proc p)).2.1
  context p := .inl (tickProc_keeps b (t.proc p)).2.2.1
  killed p := (tickProc_keeps b (t.proc p)).2.2.2.1
  chances h p := (tickProc_keeps b (t.proc p)).2.2.2.2.trans (h p)
  nextpid := rfl
  handedOut := rfl

end ProcTable

namespace Scheduler

open ProcTable Table

variable {t : Table} {p : Slot}

theorem ageing_st (t : Table) : (ageing t).st = t.st := (Frame.ageing t).st

theorem pickMLFQ_st (t : Table) : (pickMLFQ t).1.st = t.st := (Frame.pickMLFQ t).st

theorem requeue_st (t : Table) (p : Slot) : (requeue t p).st = t.st := (Frame.requeue t p).st

theorem demote_st (t : Table) (p : Slot) : (demote t p).st = t.st := by
  unfold demote
  split_ifs
  · rw [st_setProc]; exact Function.update_eq_self p t.st
  · rfl

theorem pickMLFQ_wakes (t : Table) : Wakes t (pickMLFQ t).1 := (Frame.pickMLFQ t).wakes

theorem requeue_wakes (t : Table) (p : Slot) : Wakes t (requeue t p) := (Frame.requeue t p).wakes

theorem pickMLFQ_runnable (h : (pickMLFQ t).2 = some p) :
    ((pickMLFQ t).1.proc p).state = .runnable := by
  unfold pickMLFQ at h ⊢
  dsimp only at h ⊢
  split at h
  · cases h
  · split at h
    · cases h
    · split_ifs at h with hs
      cases h
      simp_all

theorem pickRR_runnable {start : ℕ} (h : pickRR t start = some p) :
    start ≤ p.val ∧ (t.proc p).state = .runnable := by
  simpa using List.find?_some h

theorem pickPBS_runnable {start : Slot} (h : pickPBS t start = some p) :
    (t.proc p).state = .runnable ∧ (t.proc p).currPriority = (pbsMinima t).1 ∧
      (t.proc p).pbsChances = (pbsMinima t).2 := by
  unfold pickPBS at h
  dsimp only at h
  split_ifs at h
  simpa using List.find?_some h

theorem older_runnable {o : Option Slot}
    (ho : ∀ q, o = some q → (t.proc q).state = .runnable) :
    ∀ q, older t o p = some q → (t.proc q).state = .runnable := by
  intro q hq
  unfold older at hq
  split at hq
  · exact ho q hq
  · rename_i hp
    split at hq
    · cases hq; simpa using hp
    · split at hq
      · cases hq; simpa using hp
      · exact ho q hq

theorem pickFCFS_runnable (h : pickFCFS t = some p) :
    (t.proc p).state = .runnable := by
  have key : ∀ (ps : List Slot) (o : Option Slot), (∀ q, o = some q → (t.proc q).state = .runnable) →
      ∀ q, ps.foldl (older t) o = some q → (t.proc q).state = .runnable := by
    intro ps
    induction ps with
    | nil => exact fun o ho => ho
    | cons r ps ih => exact fun o ho => ih _ (older_runnable ho)
  exact key slots none (by simp) p h

end Scheduler

end EnhancedXv6
