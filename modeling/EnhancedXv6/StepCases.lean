import EnhancedXv6.Threads

namespace EnhancedXv6.Threads

open ProcTable Table Scheduler Transition

namespace Kernel

variable {n : ℕ} {k k' : Kernel n}

@[simp] theorem setTable_table (k : Kernel n) (t : Table) : (k.setTable t).table = t := rfl
@[simp] theorem setTable_cpu (k : Kernel n) (t : Table) : (k.setTable t).cpu = k.cpu := rfl
@[simp] theorem setTable_making (k : Kernel n) (t : Table) : (k.setTable t).making = k.making := rfl
@[simp] theorem setMaking_table (k : Kernel n) (key : Option Slot) (m : Making) :
    (k.setMaking key m).table = k.table := rfl
@[simp] theorem setCpu_table (k : Kernel n) (c : Fin n) (f : Cpu → Cpu) : (k.setCpu c f).table = k.table := rfl
@[simp] theorem setCpu_making (k : Kernel n) (c : Fin n) (f : Cpu → Cpu) :
    (k.setCpu c f).making = k.making := rfl
@[simp] theorem setCtl_table (k : Kernel n) (c : Fin n) (x : Ctl) : (k.setCtl c x).table = k.table := rfl
@[simp] theorem setCtl_making (k : Kernel n) (c : Fin n) (x : Ctl) : (k.setCtl c x).making = k.making := rfl

@[simp] theorem setCtl_proc (k : Kernel n) (c d : Fin n) (x : Ctl) : ((k.setCtl c x).cpu d).proc = (k.cpu d).proc := by
  by_cases e : d = c
  · subst e; simp [setCtl, setCpu]
  · simp [setCtl, setCpu, e]

@[simp] theorem setCtl_ctl (k : Kernel n) (c : Fin n) (x : Ctl) : ((k.setCtl c x).cpu c).ctl = x := by simp [setCtl, setCpu]

abbrev At (k : Kernel n) (c : Fin n) (x : Ctl) (p : Slot) : Prop := (k.cpu c).ctl = x ∧ (k.cpu c).proc = some p

theorem procAt_eq {c : Fin n} {x : Ctl} {p : Slot} : k.procAt c x = some p ↔ k.At c x p := by
  unfold procAt
  split_ifs with h <;> simp [h]

theorem guarded_eq {P : Prop} [Decidable P] :
    guarded P k = some k' ↔ P ∧ k = k' := by
  unfold guarded
  split_ifs with h <;> simp [h]

/-- One turn of the loop of `wait` and `waitx`: at the call, or when the process goes on after the sleep. -/
inductive Turn (k : Kernel n) (c : Fin n) (p : Slot) (x : Context) : Label n → Table → Prop
  | call (hl : k.LockFree) (hp : k.At c .user p) (hm : k.making (some p) = .idle) (hx : x = .wait ∨ x = .waitx) :
      Turn k c p x (.wait c x) k.table
  | again (hp : k.At c .swtchIn p) (hc : (k.table.proc p).context = x) (hx : x = .wait ∨ x = .waitx) :
      Turn k c p x (.resume c) (k.table.wakeSleeper p)

def pick (k : Kernel n) (b : Build) (c : Fin n) : Table × Option Slot :=
  match b with
  | .mlfq => pickMLFQ k.table
  | .rr => (k.table, pickRR k.table 0)
  | .fcfs => (k.table, pickFCFS k.table)
  | .pbs => (k.table, pickPBS k.table (k.cpu c).startIdx)

/-- The scheduler goes on with `p`, from its idle loop or, as the RR scheduler does, from the rest of its pass. -/
inductive Chosen (b : Build) (k : Kernel n) (c : Fin n) (p : Slot) : Label n → Table → Prop
  | schedule (hl : k.LockFree) (hc : (k.cpu c).ctl = .idle) (hp : (k.pick b c).2 = some p) :
      Chosen b k c p (.schedule c) (k.pick b c).1
  | back {q : Slot} (hb : b = .rr) (hq : k.At c .swtchOut q) (hp : pickRR k.table (q.val + 1) = some p) :
      Chosen b k c p (.back c) k.table

inductive Steps (b : Build) (k : Kernel n) : Label n → Kernel n → Prop
  | userinitAlloc {c : Fin n} {t : Table} {np : Slot} (hl : k.LockFree) (hc : (k.cpu c).ctl = .boot)
      (hm : k.making none = .idle) (ha : k.table.allocproc = some (t, np)) :
      Steps b k (.userinitAlloc c) ((k.setTable t).setMaking none (.alloced np))
  | userinitTail {c : Fin n} {p : Slot} (hc : (k.cpu c).ctl = .boot) (hm : k.making none = .alloced p) :
      Steps b k (.userinitTail c)
        ((k.setTable { k.table.allocprocTail b p with initproc := some p }).setMaking none (.inited p))
  | userinitDone {c : Fin n} {p : Slot} (hl : k.LockFree) (hc : (k.cpu c).ctl = .boot)
      (hm : k.making none = .inited p) :
      Steps b k (.userinitDone c)
        (((k.setTable (k.table.userinitRunnable b p)).setMaking none .idle).setCtl c .idle)
  | forkNone {c : Fin n} {p : Slot} (hl : k.LockFree) (hp : k.At c .user p)
      (hm : k.making (some p) = .idle) (ha : k.table.allocproc = none) : Steps b k (.forkAlloc c) k
  | forkAlloc {c : Fin n} {p np : Slot} {t : Table} (hl : k.LockFree) (hp : k.At c .user p)
      (hm : k.making (some p) = .idle) (ha : k.table.allocproc = some (t, np)) :
      Steps b k (.forkAlloc c) ((k.setTable t).setMaking (some p) (.alloced np))
  | forkKalloc {c : Fin n} {p np : Slot} (hp : k.At c .user p) (hm : k.making (some p) = .alloced np) :
      Steps b k (.forkKalloc c true)
        ((k.setTable (k.table.allocprocTail b np)).setMaking (some p) (.inited np))
  | forkNoStack {c : Fin n} {p np : Slot} (hp : k.At c .user p) (hm : k.making (some p) = .alloced np) :
      Steps b k (.forkKalloc c false) ((k.setTable (k.table.freeEmbryo np)).setMaking (some p) .idle)
  | forkCopyuvm {c : Fin n} {p np : Slot} (hp : k.At c .user p) (hm : k.making (some p) = .inited np) :
      Steps b k (.forkCopyuvm c true)
        ((k.setTable (k.table.setProc np (fun r => { r with parent := some p }))).setMaking
          (some p) (.copied np))
  | forkNoCopy {c : Fin n} {p np : Slot} (hp : k.At c .user p) (hm : k.making (some p) = .inited np) :
      Steps b k (.forkCopyuvm c false) ((k.setTable (k.table.freeEmbryo np)).setMaking (some p) .idle)
  | forkDone {c : Fin n} {p np : Slot} (hl : k.LockFree) (hp : k.At c .user p)
      (hm : k.making (some p) = .copied np) :
      Steps b k (.forkDone c) ((k.setTable (k.table.makeRunnable b np)).setMaking (some p) .idle)
  | exit {c : Fin n} {p : Slot} (hl : k.LockFree) (hp : (k.cpu c).proc = some p)
      (hm : k.making (some p) = .idle) (hi : k.table.initproc ≠ some p)
      (hc : (k.cpu c).ctl = .user ∨ ((k.cpu c).ctl = .trap ∧ (k.table.proc p).killed)) :
      Steps b k (.exit c) ((k.setTable (k.table.exit b p)).setCtl c .swtchOut)
  | reap {l : Label n} {c : Fin n} {p q : Slot} {x : Context} {t : Table} (ht : k.Turn c p x l t)
      (hq : t.waitScan p = .reap q) : Steps b k l ((k.setTable (t.reap q)).setCtl c .user)
  | waitFail {l : Label n} {c : Fin n} {p : Slot} {x : Context} {t : Table} (ht : k.Turn c p x l t)
      (hq : t.waitScan p = .fail) : Steps b k l ((k.setTable t).setCtl c .user)
  | waitSleep {l : Label n} {c : Fin n} {p : Slot} {x : Context} {t : Table} (ht : k.Turn c p x l t)
      (hq : t.waitScan p = .sleep) :
      Steps b k l ((k.setTable (t.goSleep p (.proc p) x)).setCtl c .swtchOut)
  | sleep {c : Fin n} {p : Slot} {addr : ℕ} (hl : k.LockFree) (hp : k.At c .user p)
      (hm : k.making (some p) = .idle) :
      Steps b k (.sleep c addr)
        ((k.setTable (k.table.goSleep p (.addr addr) .sleep)).setCtl c .swtchOut)
  | wakeup {c : Fin n} {addr : ℕ} (hl : k.LockFree)
      (hc : (k.cpu c).ctl = .user ∨ (k.cpu c).ctl = .idle) :
      Steps b k (.wakeup c addr) (k.setTable (k.table.wakeup1 b (some (.addr addr))))
  | kill {c : Fin n} {p : Slot} {pid : ℤ} (hl : k.LockFree) (hp : k.At c .user p)
      (hm : k.making (some p) = .idle) : Steps b k (.kill c pid) (k.setTable (k.table.kill b pid).1)
  | setPriority {c : Fin n} {p : Slot} {newPriority pid : ℤ} (hl : k.LockFree) (hp : k.At c .user p)
      (hm : k.making (some p) = .idle) :
      Steps b k (.setPriority c newPriority pid)
        (k.setTable (k.table.setPriority newPriority pid).1)
  | fault {c : Fin n} {p : Slot} (hp : k.At c .user p) :
      Steps b k (.fault c) (k.setTable (k.table.setProc p (fun r => { r with killed := true })))
  | tick {c : Fin n} (hl : k.LockFree) (hc : (k.cpu c).ctl = .user ∨ (k.cpu c).ctl = .idle) (h0 : c.val = 0) :
      Steps b k (.timer c) ((k.setTable (k.table.tick b)).setCtl c (if (k.cpu c).ctl = .user then .trap else .idle))
  | timer {c : Fin n} (hl : k.LockFree) (hc : (k.cpu c).ctl = .user ∨ (k.cpu c).ctl = .idle) (h0 : c.val ≠ 0) :
      Steps b k (.timer c) (k.setCtl c (if (k.cpu c).ctl = .user then .trap else .idle))
  | trapUser {c : Fin n} {p : Slot} (hl : k.LockFree) (hp : k.At c .trap p)
      (hb : b = .fcfs ∨ b = .mlfq ∧ (k.table.proc p).currTicksGot ≤ runtimeLimit (k.table.proc p).currQueueId) :
      Steps b k (.trapTail c) (k.setCtl c .user)
  | trapDemote {c : Fin n} {p : Slot} (hl : k.LockFree) (hp : k.At c .trap p) (hb : b = .mlfq)
      (hg : (k.table.proc p).currTicksGot ≥ runtimeLimit (k.table.proc p).currQueueId + 1) :
      Steps b k (.trapTail c) ((k.setTable (k.table.setupDemotion p)).setCtl c .demote)
  | trapYield {c : Fin n} {p : Slot} (hl : k.LockFree) (hp : k.At c .trap p) (hb : b = .rr ∨ b = .pbs) :
      Steps b k (.trapTail c) (k.yieldOn c p)
  | demoteYield {c : Fin n} {p : Slot} (hl : k.LockFree) (hp : k.At c .demote p) :
      Steps b k (.demoteYield c) (k.yieldOn c p)
  | idle {c : Fin n} (hl : k.LockFree) (hc : (k.cpu c).ctl = .idle) (hn : (k.pick b c).2 = none) :
      Steps b k (.schedule c) (k.setTable (k.pick b c).1)
  | run {l : Label n} {c : Fin n} {p : Slot} {t : Table} (hp : Chosen b k c p l t) :
      Steps b k l ((k.setTable t).runOn b c p)
  | resumeUser {c : Fin n} {p : Slot} (hp : k.At c .swtchIn p)
      (hx : (k.table.proc p).context = .forkret ∨ (k.table.proc p).context = .yield) :
      Steps b k (.resume c) (k.setCtl c .user)
  | resumeSleep {c : Fin n} {p : Slot} (hp : k.At c .swtchIn p) (hx : (k.table.proc p).context = .sleep) :
      Steps b k (.resume c) ((k.setTable (k.table.wakeSleeper p)).setCtl c .user)
  | back {c : Fin n} {p i : Slot} (hp : k.At c .swtchOut p)
      (hn : b = .rr → pickRR k.table (p.val + 1) = none)
      (hi : i = if b = .pbs then p + 1 else (k.cpu c).startIdx) :
      Steps b k (.back c) ((k.setTable (if b = .mlfq then requeue k.table p else k.table)).setCpu c
        (fun _ => { proc := none, ctl := .idle, startIdx := i }))

theorem bind_procAt {c : Fin n} {x : Ctl} {f : Slot → Option (Kernel n)}
    (h : (k.procAt c x).bind f = some k') : ∃ p, k.At c x p ∧ f p = some k' := by
  obtain ⟨p, hp, hf⟩ := Option.bind_eq_some_iff.mp h
  exact ⟨p, procAt_eq.mp hp, hf⟩

theorem Turn.steps {b : Build} {c : Fin n} {p : Slot} {x : Context} {l : Label n} {t : Table} (h : k.Turn c p x l t) :
    Steps b k l ((k.setTable t).waitTurn c p x) := by
  unfold waitTurn
  split
  · exact .reap h ‹_›
  · exact .waitFail h ‹_›
  · exact .waitSleep h ‹_›

theorem schedule_eq (b : Build) (k : Kernel n) (c : Fin n) :
    k.schedule b c = (k.pick b c).2.elim (k.setTable (k.pick b c).1) ((k.setTable (k.pick b c).1).runOn b c) := by
  unfold schedule pick
  cases b with
  | mlfq =>
    dsimp only
    cases (pickMLFQ k.table).2 <;> rfl
  | _ => rfl

theorem schedule_of_step {b : Build} {c : Fin n} (h : k.step b (.schedule c) = some k') :
    (k.LockFree ∧ (k.cpu c).ctl = .idle) ∧ k.schedule b c = k' := guarded_eq.mp h

theorem steps_preempt (b : Build) {c : Fin n} {p : Slot} (hl : k.LockFree) (hp : k.At c .trap p) :
    Steps b k (.trapTail c) (k.preempt b c p) := by
  unfold preempt
  cases b with
  | rr => exact .trapYield hl hp (.inl rfl)
  | pbs => exact .trapYield hl hp (.inr rfl)
  | fcfs => exact .trapUser hl hp (.inl rfl)
  | mlfq =>
    dsimp only
    split_ifs with hg
    · exact .trapDemote hl hp rfl hg
    · exact .trapUser hl hp (.inr ⟨rfl, by omega⟩)

theorem steps_resume (b : Build) {c : Fin n} {p : Slot} (hp : k.At c .swtchIn p) :
    Steps b k (.resume c) (k.resume c p) := by
  unfold resume
  split
  · exact .resumeUser hp (.inl ‹_›)
  · exact .resumeUser hp (.inr ‹_›)
  · exact .resumeSleep hp ‹_›
  · exact (Turn.again hp ‹_› (.inl rfl)).steps
  · exact (Turn.again hp ‹_› (.inr rfl)).steps

theorem steps_back (b : Build) {c : Fin n} {p : Slot} (hp : k.At c .swtchOut p) :
    Steps b k (.back c) (k.back b c p) := by
  unfold back
  cases b with
  | rr =>
    cases hq : pickRR k.table (p.val + 1) with
    | none => exact .back hp (fun _ => hq) rfl
    | some q => exact .run (.back rfl hp hq)
  | pbs =>
    have he : (k.release c).setCpu c (fun x => { x with startIdx := p + 1 }) =
        k.setCpu c (fun _ => { proc := none, ctl := .idle, startIdx := p + 1 }) := by
      simp [release, setCpu]
    dsimp only
    rw [he]
    exact .back hp (by simp) rfl
  | _ => exact .back hp (by simp) rfl

theorem step_cases {b : Build} {l : Label n} (h : k.step b l = some k') :
    Steps b k l k' := by
  cases l with
  | userinitAlloc c =>
    simp only [step] at h
    split_ifs at h with hg
    obtain ⟨r, hr, rfl⟩ := Option.map_eq_some_iff.mp h
    exact .userinitAlloc hg.1 hg.2.1 hg.2.2 hr
  | userinitTail c =>
    simp only [step] at h
    split at h
    · obtain ⟨hc, rfl⟩ := guarded_eq.mp h
      exact .userinitTail hc ‹_›
    · cases h
  | userinitDone c =>
    simp only [step] at h
    split at h
    · obtain ⟨hc, rfl⟩ := guarded_eq.mp h
      exact .userinitDone hc.1 hc.2 ‹_›
    · cases h
  | forkAlloc c =>
    obtain ⟨p, hp, h⟩ := bind_procAt h
    split_ifs at h with hg
    split at h
    · cases h; exact .forkNone hg.1 hp hg.2 ‹_›
    · cases h; exact .forkAlloc hg.1 hp hg.2 ‹_›
  | forkKalloc c ok =>
    obtain ⟨p, hp, h⟩ := bind_procAt h
    split at h
    · cases ok
      · cases h; exact .forkNoStack hp ‹_›
      · cases h; exact .forkKalloc hp ‹_›
    · cases h
  | forkCopyuvm c ok =>
    obtain ⟨p, hp, h⟩ := bind_procAt h
    split at h
    · cases ok
      · cases h; exact .forkNoCopy hp ‹_›
      · cases h; exact .forkCopyuvm hp ‹_›
    · cases h
  | forkDone c =>
    obtain ⟨p, hp, h⟩ := bind_procAt h
    split at h
    · obtain ⟨hl, rfl⟩ := guarded_eq.mp h
      exact .forkDone hl hp ‹_›
    · cases h
  | exit c =>
    obtain ⟨p, hp, h⟩ := Option.bind_eq_some_iff.mp h
    obtain ⟨hg, rfl⟩ := guarded_eq.mp h
    exact .exit hg.1 hp hg.2.1 hg.2.2.1 hg.2.2.2
  | wait c x =>
    obtain ⟨p, hp, h⟩ := bind_procAt h
    obtain ⟨hg, rfl⟩ := guarded_eq.mp h
    exact (Turn.call hg.1 hp hg.2.1 hg.2.2).steps
  | sleep c addr =>
    obtain ⟨p, hp, h⟩ := bind_procAt h
    obtain ⟨hg, rfl⟩ := guarded_eq.mp h
    exact .sleep hg.1 hp hg.2
  | wakeup c addr =>
    obtain ⟨hg, rfl⟩ := guarded_eq.mp h
    exact .wakeup hg.1 hg.2
  | kill c pid =>
    obtain ⟨p, hp, h⟩ := bind_procAt h
    obtain ⟨hg, rfl⟩ := guarded_eq.mp h
    exact .kill hg.1 hp hg.2
  | setPriority c newPriority pid =>
    obtain ⟨p, hp, h⟩ := bind_procAt h
    obtain ⟨hg, rfl⟩ := guarded_eq.mp h
    exact .setPriority hg.1 hp hg.2
  | fault c =>
    obtain ⟨p, hp, rfl⟩ := Option.map_eq_some_iff.mp h
    exact .fault (procAt_eq.mp hp)
  | timer c =>
    obtain ⟨hg, rfl⟩ := guarded_eq.mp h
    by_cases h0 : c.val = 0
    · rw [if_pos h0]
      exact .tick hg.1 hg.2 h0
    · rw [if_neg h0]
      exact .timer hg.1 hg.2 h0
  | trapTail c =>
    obtain ⟨p, hp, h⟩ := bind_procAt h
    obtain ⟨hg, rfl⟩ := guarded_eq.mp h
    exact steps_preempt b hg hp
  | demoteYield c =>
    obtain ⟨p, hp, h⟩ := bind_procAt h
    obtain ⟨hg, rfl⟩ := guarded_eq.mp h
    exact .demoteYield hg hp
  | schedule c =>
    obtain ⟨hg, rfl⟩ := schedule_of_step h
    rw [schedule_eq]
    cases hp : (k.pick b c).2 with
    | none => exact .idle hg.1 hg.2 hp
    | some p => exact .run (.schedule hg.1 hg.2 hp)
  | resume c =>
    obtain ⟨p, hp, rfl⟩ := Option.map_eq_some_iff.mp h
    exact steps_resume b (procAt_eq.mp hp)
  | back c =>
    obtain ⟨p, hp, rfl⟩ := Option.map_eq_some_iff.mp h
    exact steps_back b (procAt_eq.mp hp)

end Kernel

end EnhancedXv6.Threads
