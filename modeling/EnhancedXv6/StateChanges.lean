import EnhancedXv6.Parked
import EnhancedXv6.QueueOps

namespace EnhancedXv6.ProcTable

inductive Arrow
  | alloc | start | abandon | dispatch | yield | sleep | exit | wake | reap
  deriving DecidableEq, Repr

def Arrow.source : Arrow → ProcState
  | .alloc => .unused
  | .start => .embryo
  | .abandon => .embryo
  | .dispatch => .runnable
  | .yield => .running
  | .sleep => .running
  | .exit => .running
  | .wake => .sleeping
  | .reap => .zombie

def Arrow.target : Arrow → ProcState
  | .alloc => .embryo
  | .start => .runnable
  | .abandon => .unused
  | .dispatch => .running
  | .yield => .runnable
  | .sleep => .sleeping
  | .exit => .zombie
  | .wake => .runnable
  | .reap => .unused

namespace Table

theorem goSleep_st (t : Table) (p : Slot) (chan : Chan) (x : Context) :
    (t.goSleep p chan x).st = Function.update t.st p .sleeping := st_setProc _ _ _

theorem yield_st (t : Table) (p : Slot) : (t.yield p).st = Function.update t.st p .runnable := st_setProc _ _ _

theorem freeEmbryo_st (t : Table) (p : Slot) : (t.freeEmbryo p).st = Function.update t.st p .unused :=
  st_setProc _ _ _

theorem reap_st (t : Table) (p : Slot) : (t.reap p).st = Function.update t.st p .unused := st_setProc _ _ _

theorem dispatch_st (b : Build) (t : Table) (p : Slot) :
    (Scheduler.dispatch b t p).st = Function.update t.st p .running := by
  unfold Scheduler.dispatch
  rw [st_setProc]
  cases b <;> rfl

theorem setupDemotion_st (t : Table) (p : Slot) : (t.setupDemotion p).st = t.st := by
  unfold setupDemotion
  rw [st_setProc]
  exact Function.update_eq_self _ _

theorem wakeSleeper_st (t : Table) (p : Slot) : (t.wakeSleeper p).st = t.st := by
  unfold wakeSleeper
  rw [st_setProc]
  exact Function.update_eq_self _ _

theorem setParent_st (t : Table) (p q : Slot) : (t.setProc p (fun r => { r with parent := some q })).st = t.st := by
  rw [st_setProc]
  exact Function.update_eq_self _ _

theorem mark_st (t : Table) (p : Slot) : (t.setProc p (fun r => { r with killed := true })).st = t.st := by
  rw [st_setProc]
  exact Function.update_eq_self _ _

end Table

def Moves (as : List Arrow) (t u : Table) : Prop :=
  ∀ p, u.st p ≠ t.st p → ∃ a ∈ as, t.st p = a.source ∧ u.st p = a.target

namespace Moves

open Table

variable {t u v : Table} {p : Slot} {s : ProcState} {as : List Arrow} {a : Arrow}

theorem of_st (h : u.st = t.st) : Moves as t u := by
  intro p hne
  rw [h] at hne
  exact absurd rfl hne

theorem refl (t : Table) : Moves as t t := of_st rfl

theorem of_wakes (h : Wakes t u) (ha : .wake ∈ as) : Moves as t u := by
  intro p hne
  rcases h.state p with e | ⟨hs, hr⟩
  · exact absurd e hne
  · exact ⟨.wake, ha, hs, hr⟩

theorem then_update (hm : Moves as t v) (h : u.st = Function.update v.st p a.target)
    (ha : a ∈ as) (hp : t.st p = a.source) : Moves as t u := by
  intro q hne
  rw [h] at hne ⊢
  by_cases e : q = p
  · subst e
    exact ⟨a, ha, hp, Function.update_self _ _ _⟩
  · rw [Function.update_of_ne e] at hne ⊢
    exact hm q hne

theorem update (h : u.st = Function.update t.st p a.target) (ha : a ∈ as) (hp : t.st p = a.source) : Moves as t u :=
  then_update (.refl t) h ha hp

theorem dispatch (b : Build) (hs : u.st = t.st) (hr : u.st p = .runnable) :
    Moves [.dispatch] t (Scheduler.dispatch b u p) := by
  refine update (a := .dispatch) (p := p) ?_ (by simp) ?_
  · rw [dispatch_st, hs]
    rfl
  · rw [← hs]
    exact hr

end Moves

end EnhancedXv6.ProcTable

namespace EnhancedXv6.Threads

open ProcTable Table Scheduler Transition

variable {n : ℕ}

def Label.arrows : Label n → List Arrow
  | .userinitAlloc _ => [.alloc]
  | .userinitTail _ => []
  | .userinitDone _ => [.start]
  | .forkAlloc _ => [.alloc]
  | .forkKalloc _ ok => if ok then [] else [.abandon]
  | .forkCopyuvm _ ok => if ok then [] else [.abandon]
  | .forkDone _ => [.start]
  | .exit _ => [.wake, .exit]
  | .wait _ _ => [.reap, .sleep]
  | .sleep _ _ => [.sleep]
  | .wakeup _ _ => [.wake]
  | .kill _ _ => [.wake]
  | .setPriority _ _ _ => []
  | .fault _ => []
  | .timer _ => []
  | .trapTail _ => [.yield]
  | .demoteYield _ => [.yield]
  | .schedule _ => [.dispatch]
  | .resume _ => [.reap, .sleep]
  | .back _ => [.dispatch]

def Label.enters (b : Build) : Label n → List Ctl
  | .userinitDone _ => [.idle]
  | .exit _ => [.swtchOut]
  | .wait _ _ => [.user, .swtchOut]
  | .sleep _ _ => [.swtchOut]
  | .timer _ => [.trap, .idle]
  | .trapTail _ =>
    match b with
    | .fcfs => [.user]
    | .mlfq => [.demote, .user]
    | _ => [.swtchOut]
  | .demoteYield _ => [.swtchOut]
  | .schedule _ => [.swtchIn]
  | .resume _ => [.user, .swtchOut]
  | .back _ => [.swtchIn, .idle]
  | _ => []

namespace Kernel

variable {b : Build} {k k' : Kernel n} {l : Label n} {p : Slot}

def Enters (xs : List Ctl) (k k' : Kernel n) : Prop := ∀ d, (k'.cpu d).ctl = (k.cpu d).ctl ∨ (k'.cpu d).ctl ∈ xs

namespace Enters

variable {xs : List Ctl} {k m : Kernel n}

theorem of_cpu {k' : Kernel n} (h : k'.cpu = k.cpu) : Enters xs k k' := by
  intro d
  rw [h]
  exact .inl rfl

theorem setCpu (h : m.cpu = k.cpu) (c : Fin n) (f : Cpu → Cpu)
    (hf : ∀ x, (f x).ctl ∈ xs) : Enters xs k (m.setCpu c f) := by
  intro d
  by_cases e : d = c
  · subst e
    exact .inr (by simpa [Kernel.setCpu] using hf _)
  · exact .inl (by simp [Kernel.setCpu, e, h])

theorem setCtl (h : m.cpu = k.cpu) (c : Fin n) {x : Ctl} (hx : x ∈ xs) :
    Enters xs k (m.setCtl c x) := setCpu h c _ (fun _ => hx)

theorem runOn (h : m.cpu = k.cpu) (b : Build) (c : Fin n) (p : Slot)
    (hx : .swtchIn ∈ xs) : Enters xs k (m.runOn b c p) :=
  setCpu (m := m.setTable (dispatch b m.table p)) h c (fun x => { x with proc := some p, ctl := .swtchIn }) (fun _ => hx)

end Enters

theorem Turn.arrows {c : Fin n} {x : Context} {t : Table} (h : k.Turn c p x l t) : l.arrows = [.reap, .sleep] := by
  cases h <;> rfl

theorem Turn.enters {c : Fin n} {x : Context} {t : Table} (h : k.Turn c p x l t) : l.enters b = [.user, .swtchOut] := by
  cases h <;> rfl

theorem Turn.st {c : Fin n} {x : Context} {t : Table} (h : k.Turn c p x l t) : t.st = k.table.st := by
  cases h with
  | call => rfl
  | again => exact wakeSleeper_st _ _

theorem enters_step (hs : k.step b l = some k') : Enters (l.enters b) k k' := by
  cases step_cases hs with
  | userinitDone | exit | sleep | demoteYield => exact .setCtl rfl _ (by simp [Label.enters])
  | reap ht | waitFail ht | waitSleep ht => exact .setCtl rfl _ (by simp [ht.enters])
  | tick hl hc h0 | timer hl hc h0 =>
    refine .setCtl rfl _ ?_
    split_ifs <;> simp [Label.enters]
  | trapUser hl hp hb => exact .setCtl rfl _ (by rcases hb with rfl | ⟨rfl, -⟩ <;> simp [Label.enters])
  | trapDemote hl hp hb => exact .setCtl rfl _ (by simp [Label.enters, hb])
  | trapYield hl hp hb => exact .setCtl rfl _ (by rcases hb with rfl | rfl <;> simp [Label.enters])
  | run hp =>
    refine .runOn rfl _ _ _ ?_
    cases hp <;> simp [Label.enters]
  | resumeUser | resumeSleep => exact .setCtl rfl _ (by simp [Label.enters])
  | back hp hn hi => exact .setCpu rfl _ _ (by simp [Label.enters])
  | wakeup | kill | setPriority => exact .of_cpu (setTable_cpu _ _)
  | _ => exact .of_cpu rfl

theorem pick_st (b : Build) (k : Kernel n) (c : Fin n) : (k.pick b c).1.st = k.table.st := by
  cases b with
  | mlfq => exact pickMLFQ_st _
  | _ => rfl

theorem Chosen.st {c : Fin n} {t : Table} (h : Chosen b k c p l t) : t.st = k.table.st := by
  cases h with
  | schedule => exact pick_st b k c
  | back => rfl

theorem Chosen.arrows {c : Fin n} {t : Table} (h : Chosen b k c p l t) : l.arrows = [.dispatch] := by
  cases h <;> rfl

theorem backTable_st (b : Build) (t : Table) (p : Slot) : (if b = .mlfq then requeue t p else t).st = t.st := by
  split_ifs
  · exact requeue_st t p
  · rfl

theorem Inv.moves (h : k.Inv) (hs : k.step b l = some k') :
    Moves l.arrows k.table k'.table := by
  have hrun : ∀ {c p}, (k.cpu c).proc = some p → (k.cpu c).ctl ≠ .swtchOut → k.table.st p = .running :=
    fun hp hc => h.live.running_of hp hc
  have halloc : ∀ {t np}, k.table.allocproc = some (t, np) → Moves [.alloc] k.table t := by
    intro t np ha
    obtain ⟨hu, rfl⟩ := allocproc_eq ha
    exact .update (a := .alloc) (st_setProc _ np _) (by simp) hu
  have hmade : ∀ {key np a u}, (k.making key).slot = some np → a.source = .embryo →
      u.st = Function.update k.table.st np a.target → Moves [a] k.table u := by
    intro key np a u hm ha hu
    exact .update hu (by simp) ((h.live.embryo key np hm).trans ha.symm)
  cases step_cases hs with
  | userinitAlloc hl hc hm ha | forkAlloc hl hp hm ha => exact halloc ha
  | userinitTail | forkKalloc => exact .of_st (allocprocTail_st b k.table _)
  | userinitDone hl hc hm => exact hmade (a := .start) (by rw [hm]; rfl) rfl (userinitRunnable_st _ _ _)
  | forkNoStack hp hm | forkNoCopy hp hm => exact hmade (a := .abandon) (by rw [hm]; rfl) rfl (freeEmbryo_st _ _)
  | forkCopyuvm hp hm => exact .of_st (setParent_st _ _ _)
  | forkDone hl hp hm => exact hmade (a := .start) (by rw [hm]; rfl) rfl (makeRunnable_st _ _ _)
  | @exit c p hl hp hm hi hc =>
    obtain ⟨u, hw, he⟩ := exit_eq b k.table p
    rw [setCtl_table, setTable_table, he]
    exact .then_update (a := .exit) (.of_wakes hw (by simp [Label.arrows])) (st_setProc u p _)
      (by simp [Label.arrows]) (hrun hp (hl c).2)
  | @reap l c p q x t ht hq =>
    refine .update (a := .reap) (p := q) ?_ (by simp [ht.arrows]) ?_
    · rw [← ht.st]
      exact reap_st t q
    · rw [← ht.st]
      exact (waitScan_reap hq).2
  | waitFail ht => exact .of_st ht.st
  | waitSleep ht =>
    refine .update (a := .sleep) ?_ (by simp [ht.arrows]) (hrun ht.proc ht.ne_out)
    rw [← ht.st]
    exact goSleep_st _ _ _ _
  | @sleep c p addr hl hp hm => exact .update (a := .sleep) (goSleep_st k.table p _ _) (by simp [Label.arrows]) (hrun hp.2 (hl c).2)
  | wakeup hl hc =>
    rw [setTable_table]
    exact .of_wakes (wakeup1_wakes _ _ _) (by simp [Label.arrows])
  | @kill c p pid hl hp hm =>
    rcases kill_eq b k.table pid with ⟨he, -⟩ | ⟨q, -, -, hw⟩
    · rw [setTable_table, he]
      exact .refl _
    · intro r hne
      have hm : Moves [.wake] _ _ := .of_wakes hw (by simp)
      have hm := hm r
      rw [mark_st] at hm
      exact hm hne
  | setPriority hl hp hm => exact .of_st (setPriority_st _ _ _)
  | fault hp =>
    rw [setTable_table]
    exact .of_st (mark_st _ _)
  | tick => exact .of_st (funext (fun p => (tickProc_keeps b (k.table.proc p)).1))
  | trapDemote => exact .of_st (setupDemotion_st _ _)
  | trapYield hl hp | demoteYield hl hp => exact .update (a := .yield) (yield_st _ _) (by simp [Label.arrows]) (hrun hp.2 (hl _).2)
  | idle => exact .of_st (pick_st b k _)
  | run hp =>
    rw [hp.arrows]
    exact .dispatch b hp.st hp.runnable
  | resumeSleep => exact .of_st (wakeSleeper_st _ _)
  | back => exact .of_st (backTable_st _ _ _)
  | forkNone | timer | trapUser | resumeUser => exact .refl _

theorem Live.running_iff (h : k.Live) (hl : k.LockFree) (p : Slot) :
    k.table.st p = .running ↔ ∃! c, (k.cpu c).proc = some p := by
  constructor
  · intro hp
    obtain ⟨c, hc⟩ := h.running p hp
    exact ⟨c, hc, fun d hd => h.single d c p hd hc⟩
  · rintro ⟨c, hc, -⟩
    exact h.running_of hc (hl c).2

theorem Inv.ready_step (h : k.Inv) (hs : k.step b l = some k')
    (hp : k.table.st p = .runnable) : k'.table.st p = .runnable ∨ k'.table.st p = .running := by
  by_cases e : k'.table.st p = k.table.st p
  · exact .inl (e.trans hp)
  · obtain ⟨a, -, hsrc, htgt⟩ := h.moves hs p e
    rw [hp] at hsrc
    cases a <;> simp [Arrow.source, Arrow.target] at hsrc htgt
    exact .inr htgt

theorem Inv.running_step (h : k.Inv) (hs : k.step b l = some k')
    (hp : k.table.st p = .running) : k'.table.st p = .running ∨ k'.table.st p = .runnable ∨
      k'.table.st p = .sleeping ∨ k'.table.st p = .zombie := by
  by_cases e : k'.table.st p = k.table.st p
  · exact .inl (e.trans hp)
  · obtain ⟨a, -, hsrc, htgt⟩ := h.moves hs p e
    rw [hp] at hsrc
    cases a <;> simp [Arrow.source, Arrow.target] at hsrc htgt <;> simp [htgt]

theorem Inv.zombie_step (h : k.Inv) (hs : k.step b l = some k')
    (hp : k.table.st p = .zombie) : k'.table.st p = .zombie ∨ k'.table.st p = .unused := by
  by_cases e : k'.table.st p = k.table.st p
  · exact .inl (e.trans hp)
  · obtain ⟨a, -, hsrc, htgt⟩ := h.moves hs p e
    rw [hp] at hsrc
    cases a <;> simp [Arrow.source, Arrow.target] at hsrc htgt
    exact .inr htgt

end Kernel

theorem process_life_cycle (b : Build) (n : ℕ) (k : Kernel n) (h : (machine b n).Reachable k) :
    (k.LockFree → ∀ p, k.table.st p = .running ↔ ∃! c, (k.cpu c).proc = some p) ∧
      (k.LockFree → ∀ c p, (k.cpu c).proc = some p → k.table.st p = .running) ∧
      ∀ l k', k.step b l = some k' → ∀ p, k'.table.st p ≠ k.table.st p →
        ∃ a : Arrow, k.table.st p = a.source ∧ k'.table.st p = a.target := by
  have hi := reachable_inv h
  refine ⟨fun hl p => hi.live.running_iff hl p, fun hl c p hp => ?_, fun l k' hs p hne => ?_⟩
  · exact hi.live.running_of hp (hl c).2
  · obtain ⟨a, -, ha⟩ := hi.moves hs p hne
    exact ⟨a, ha⟩

theorem process_life_cycle_boot : ∃ k : Kernel 2, k.LockFree ∧ (k.cpu 0).proc = some 0 ∧
    ∀ p, k.table.st p = .running ↔ ∃! c, (k.cpu c).proc = some p := by
  obtain ⟨k, hk, hp⟩ := Machine.exists_reachable (M := machine .rr 2) (w := boot)
    (P := fun k => decide (k.LockFree ∧ (k.cpu 0).proc = some 0)) rfl (by decide +kernel)
  have hb := of_decide_eq_true hp
  exact ⟨k, hb.1, hb.2, (process_life_cycle .rr 2 k hk).1 hb.1⟩

end EnhancedXv6.Threads
