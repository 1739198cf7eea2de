import EnhancedXv6.Births
import EnhancedXv6.Writes

namespace EnhancedXv6.ProcTable

open Table

instance : IgnoresState Proc.numTimesScheduled := by constructor <;> intros <;> rfl
instance : IgnoresFamily Proc.numTimesScheduled := by constructor <;> intros <;> rfl
instance : IgnoresQueue Proc.numTimesScheduled := by constructor <;> intros <;> rfl

theorem tick_numTimesScheduled (b : Build) (t : Table) (p : Slot) : ((t.tick b).proc p).numTimesScheduled = (t.proc p).numTimesScheduled := by
  change (tickProc b (t.proc p)).numTimesScheduled = _
  unfold tickProc
  split_ifs
  · rfl
  all_goals split <;> rfl

def Dispatched (t u : Table) (p : Slot) : Prop := t.st p = .runnable ∧ u.st p = .running

instance (t u : Table) (p : Slot) : Decidable (Dispatched t u p) := inferInstanceAs (Decidable (_ ∧ _))

def Counts (t u : Table) (p : Slot) : Prop :=
  (u.proc p).numTimesScheduled =
    if Dispatched t u p then i32 ((t.proc p).numTimesScheduled + 1) else (t.proc p).numTimesScheduled

namespace Counts

variable {t u v : Table} {p q : Slot} {b : Build}

theorem of_not (h : ¬ Dispatched t u p) (hn : (u.proc p).numTimesScheduled = (t.proc p).numTimesScheduled) : Counts t u p := by
  rw [Counts, if_neg h, hn]

theorem of_st (h : u.st = t.st) (hn : (u.proc p).numTimesScheduled = (t.proc p).numTimesScheduled) : Counts t u p := by
  apply of_not _ hn
  rintro ⟨h1, h2⟩
  rw [h, h1] at h2
  cases h2

theorem dispatch (hb : b ≠ .pbs) (hs : u.st = t.st) (hn : (u.proc p).numTimesScheduled = (t.proc p).numTimesScheduled)
    (hq : u.st q = .runnable) : Counts t (Scheduler.dispatch b u q) p := by
  by_cases e : p = q
  · subst e
    have hd : Dispatched t (Scheduler.dispatch b u p) p := by
      refine ⟨by rw [← hs, hq], ?_⟩
      rw [dispatch_st, Function.update_self]
    rw [Counts, if_pos hd, ← hn, Scheduler.dispatch, setProc_self]
    cases b with
    | pbs => exact absurd rfl hb
    | _ => rfl
  · have hproc : (Scheduler.dispatch b u q).proc p = u.proc p := setProc_of_ne _ _ _ _ e
    apply of_not
    · rintro ⟨h1, h2⟩
      rw [dispatch_st, Function.update_of_ne e, hs, h1] at h2
      cases h2
    · rw [hproc, hn]

end Counts

end EnhancedXv6.ProcTable

namespace EnhancedXv6.Threads

open ProcTable Table Scheduler Transition Machine

variable {n : ℕ} {k k' : Kernel n} {l : Label n} {b : Build} {p : Slot}

namespace Kernel

theorem Writes.numTimesScheduled {u : Table} (h : Writes Proc.numTimesScheduled b k l u) (hi : k.initialises l ≠ some p) :
    (u.proc p).numTimesScheduled = (k.table.proc p).numTimesScheduled := by
  cases h with
  | frame hl hf => exact hf.proc p
  | alloc hl ha => exact allocproc_proc ha (fun _ _ => rfl) p
  | @init _ _ np hin he hu ht =>
    have e : p ≠ np := by
      rintro rfl
      exact hi hin
    rw [hu, allocprocTail_of_ne _ _ e]
  | exit hp hr hf hw =>
    rw [← hf.proc p]
    apply (Frame.setProc _ _ _ _).proc p
    intro r
    rfl
  | reap hl hf hq =>
    rw [← hf.proc p]
    apply (Frame.setProc _ _ _ _).proc p
    intro r
    rfl
  | tick hc => exact tick_numTimesScheduled b k.table p
  | setPriority =>
    exact (Frame.setPriority (fun _ _ => rfl) k.table _ _).proc p

theorem Inv.counter_of_initialises (h : k.Inv) (hs : k.step b l = some k') (hi : k.initialises l = some p) :
    (k'.table.proc p).numTimesScheduled = 0 ∧ k'.table.st p = .embryo := by
  have hzero : ∀ {key np}, k.making key = .alloced np → ((k.table.allocprocTail b np).proc np).numTimesScheduled = 0 ∧
      (k.table.allocprocTail b np).st np = .embryo := by
    intro key np hm
    refine ⟨?_, ?_⟩
    · unfold allocprocTail initializeNewFields
      rw [setProc_self]
      cases b <;> rfl
    · rw [allocprocTail_st]
      exact h.live.embryo key np (by rw [hm]; rfl)
  cases step_cases hs with
  | reap ht | waitFail ht | waitSleep ht => rw [initialises_of_quiet ht.quiet] at hi; cases hi
  | run hp => rw [initialises_of_quiet hp.quiet] at hi; cases hi
  | userinitTail hc hm =>
    rw [initialises, hm] at hi
    cases hi
    exact hzero hm
  | forkKalloc hp hm =>
    rw [initialises, procAt_eq.mpr hp, Option.bind_some, hm] at hi
    cases hi
    exact hzero hm
  | _ => cases hi

theorem Inv.counts (h : k.Inv) (hb : b ≠ .pbs) (hs : k.step b l = some k') (hi : k.initialises l ≠ some p) :
    Counts k.table k'.table p := by
  by_cases hd : .dispatch ∈ l.arrows
  · cases step_cases hs with
    | idle => exact .of_st (pick_st b k _) ((pick_frame b k _).proc p)
    | run hp => exact .dispatch hb hp.st (hp.frame.proc p) hp.runnable
    | back => exact .of_st (backTable_st b _ _) ((backTable_frame b _ _).proc p)
    | reap ht | waitFail ht | waitSleep ht => simp [ht.arrows] at hd
    | _ => simp [Label.arrows] at hd
  · apply Counts.of_not
    · rintro ⟨h1, h2⟩
      obtain ⟨a, ha, hsrc, htgt⟩ := h.moves hs p (by rw [h1, h2]; decide)
      rw [h2] at htgt
      cases a <;> cases htgt
      exact hd ha
    · exact (h.writes_of_not_dispatch hs hd).numTimesScheduled hi

end Kernel

def recordDispatches (g : Slot → ℕ) (k : Kernel n) (_ : Label n) (k' : Kernel n) : Slot → ℕ := fun p =>
  if k.Takes k' p then 0 else if Dispatched k.table k'.table p then g p + 1 else g p

def dispatchMachine (b : Build) (n : ℕ) : Machine (Kernel n × (Slot → ℕ)) (Label n) :=
  (machine b n).history (fun _ => 0) recordDispatches

theorem dispatchMachine_initial (b : Build) : (dispatchMachine b n).initial (Kernel.start n, fun _ => 0) := ⟨rfl, rfl⟩

structure Counted (s : Kernel n × (Slot → ℕ)) : Prop where
  embryo : ∀ p, s.1.table.st p = .embryo → s.2 p = 0
  started : ∀ p, s.1.table.st p ≠ .unused → ¬ s.1.Fresh p → (s.1.table.proc p).numTimesScheduled = i32 (s.2 p)

theorem Counted.step {s s' : Kernel n × (Slot → ℕ)} (h : Counted s) (hi : s.1.Inv) (hb : b ≠ .pbs) (hs : s.1.step b l = some s'.1)
    (hg : s'.2 = recordDispatches s.2 s.1 l s'.1) : Counted s' := by
  have hembryo : ∀ p, s'.1.table.st p = .embryo → s'.2 p = 0 := by
    intro p hp
    rw [hg, recordDispatches]
    split_ifs with ht hd
    · rfl
    · rw [hd.2] at hp
      cases hp
    · apply h.embryo
      by_contra hne
      obtain ⟨a, -, hsrc, htgt⟩ := hi.moves hs p (by rw [hp]; exact Ne.symm hne)
      rw [hp] at htgt
      cases a <;> cases htgt
      exact ht ⟨hsrc, hp⟩
  refine ⟨hembryo, fun p hu hf => ?_⟩
  by_cases hin : s.1.initialises l = some p
  · obtain ⟨hz, he⟩ := hi.counter_of_initialises hs hin
    rw [hz, hembryo p he]
    rfl
  · obtain ⟨hu0, hf0⟩ := (hi.initialised hs hu hf).resolve_left hin
    have hc := hi.counts hb hs hin
    have ht : ¬ s.1.Takes s'.1 p := fun ht => hu0 ht.1
    rw [hc, h.started p hu0 hf0, hg, recordDispatches, if_neg ht]
    split_ifs
    · rw [i32_succ]
      push_cast
      rfl
    · rfl

theorem reachable_counted (hb : b ≠ .pbs) {s : Kernel n × (Slot → ℕ)} (h : (dispatchMachine b n).Reachable s) : Counted s := by
  refine ReachableWhere.invariant (P := Counted) h ?_ ?_
  · rintro ⟨k, g⟩ ⟨hk, -⟩
    obtain rfl : k = Kernel.start n := hk
    refine ⟨fun p hp => ?_, fun p hp => absurd rfl hp⟩
    cases hp
  · intro s l t hr hk _ hn
    obtain ⟨hs, hg⟩ := history_next hn
    exact hk.step (reachable_inv (history_reachable hr)) hb hs hg

theorem dispatches_counted (b : Build) (hb : b ≠ .pbs) (n : ℕ) (s : Kernel n × (Slot → ℕ))
    (h : (dispatchMachine b n).Reachable s) (p : Slot) (hu : s.1.table.st p ≠ .unused) (hf : ¬ s.1.Fresh p) :
    (s.1.table.proc p).numTimesScheduled = s.2 p ↔ s.2 p < 2 ^ 31 := by
  rw [(reachable_counted hb h).started p hu hf, i32_eq_self_iff]
  omega

theorem dispatches_counted_init : ∃ s : Kernel 1 × (Slot → ℕ), (dispatchMachine .rr 1).Reachable s ∧ s.2 0 = 2 ∧
    (s.1.table.proc 0).numTimesScheduled = 2 := by
  have hrun : ((dispatchMachine .rr 1).run (Kernel.start 1, fun _ => 0) (boot ++ [.timer 0, .trapTail 0, .back 0, .schedule 0, .resume 0])).any
      (fun s => s.2 0 = 2 ∧ s.1.table.st 0 = .running) := by decide +kernel
  obtain ⟨s, hr, hp⟩ := exists_reachable (dispatchMachine_initial .rr) hrun
  obtain ⟨hcount, hst⟩ := of_decide_eq_true hp
  have hinv := reachable_inv (history_reachable hr)
  refine ⟨s, hr, hcount, ?_⟩
  have hfew : s.2 0 < 2 ^ 31 := by
    rw [hcount]
    decide
  rw [(dispatches_counted .rr (by decide) 1 s hr 0 (by rw [hst]; decide) (hinv.not_fresh (by rw [hst]; decide))).mpr hfew,
    hcount]
  rfl

theorem dispatch_not_counted :
    (∃ s : Kernel 1 × (Slot → ℕ), (dispatchMachine .pbs 1).Reachable s ∧ s.1.table.st 0 = .running ∧ s.2 0 = 1 ∧
      (s.1.table.proc 0).numTimesScheduled = 0) ∧
    ∃ s : Kernel 1 × (Slot → ℕ), (dispatchMachine .rr 1).Reachable s ∧ s.1.table.st 1 = .embryo ∧ s.2 1 = 0 ∧
      (s.1.table.proc 1).numTimesScheduled = 1 := by
  constructor
  · have hrun : ((dispatchMachine .pbs 1).run (Kernel.start 1, fun _ => 0) boot).any (fun s =>
        s.1.table.st 0 = .running ∧ s.2 0 = 1 ∧ (s.1.table.proc 0).numTimesScheduled = 0) := by decide +kernel
    obtain ⟨s, hr, hp⟩ := exists_reachable (dispatchMachine_initial .pbs) hrun
    exact ⟨s, hr, of_decide_eq_true hp⟩
  · have hrun : ((dispatchMachine .rr 1).run (Kernel.start 1, fun _ => 0) (boot ++ fork ++
        [.timer 0, .trapTail 0, .back 0, .resume 0, .exit 0, .back 0, .schedule 0, .resume 0, .wait 0 .wait, .forkAlloc 0])).any (fun s =>
          s.1.table.st 1 = .embryo ∧ s.2 1 = 0 ∧ (s.1.table.proc 1).numTimesScheduled = 1) := by decide +kernel
    obtain ⟨s, hr, hp⟩ := exists_reachable (dispatchMachine_initial .rr) hrun
    exact ⟨s, hr, of_decide_eq_true hp⟩

end EnhancedXv6.Threads
