import EnhancedXv6.Queues

namespace EnhancedXv6

open ProcTable Table Scheduler

namespace ProcTable

section Queue

variable {t u : Table}

def Table.queue (t : Table) (q : ℕ) : List Slot :=
  (List.range (t.qLatestIdx q + 1).toNat).filterMap (t.queuePtr q)

theorem filterMap_range_getElem? {α : Type*} (l : List α) : (List.range l.length).filterMap (fun i => l[i]?) = l := by
  induction l using List.reverseRecOn with
  | nil => rfl
  | append_singleton l a ih =>
    rw [List.length_append, List.length_singleton, List.range_succ, List.filterMap_append]
    have hl : (List.range l.length).filterMap (fun i => (l ++ [a])[i]?) = l := by
      rw [List.filterMap_congr (g := fun i => l[i]?)]
      · exact ih
      · intro i hi
        exact List.getElem?_append_left (List.mem_range.mp hi)
    rw [hl]
    simp

theorem Holds.queue_eq {q : ℕ} {Q : List Slot} (h : Holds t q Q) : t.queue q = Q := by
  have hlast := h.last
  have hlen : (t.qLatestIdx q + 1).toNat = Q.length := by omega
  unfold Table.queue
  rw [hlen, List.filterMap_congr (g := fun i => Q[i]?)]
  · exact filterMap_range_getElem? Q
  · intro i hi
    exact h.ptr i (List.mem_range.mp hi)

theorem Queued.queue_eq {W : Slot → Prop} {Q : ℕ → List Slot} (h : Queued t W Q) {q : ℕ} (hq : q < 5) :
    t.queue q = Q q := (h.holds hq).queue_eq

theorem queue_congr (hp : u.queuePtr = t.queuePtr) (hl : u.qLatestIdx = t.qLatestIdx) :
    u.queue = t.queue := by
  funext q
  unfold Table.queue
  rw [hp, hl]

end Queue

def InQueues (t : Table) (W : Slot → Prop) : Prop := ∃ Q, Queued t W Q

def Table.Ready (t : Table) (p : Slot) : Prop := t.st p = .runnable

namespace InQueues

variable {t u : Table} {W V : Slot → Prop} {p : Slot} {q i : ℕ}

theorem iff (h : InQueues t W) (hW : ∀ p, V p ↔ W p) : InQueues t V := by
  obtain ⟨Q, hQ⟩ := h
  exact ⟨Q, hQ.congr rfl rfl rfl rfl hW (fun _ _ => rfl) hQ.level (fun p hp => hQ.used p ((hW p).mp hp)) hQ.pids⟩

theorem push (h : InQueues t W) (hp : ¬ W p) (hq : q < 5) (hu : t.st p ≠ .unused) :
    InQueues (t.pushBackProcess p q).1 (fun r => W r ∨ r = p) := by
  obtain ⟨Q, hQ⟩ := h
  exact ⟨_, (hQ.push hp hq hu).1⟩

theorem delete (h : InQueues t W) (hp : W p) (hl : (t.proc p).currQueueId = q) :
    InQueues (t.deleteProcess p q).1 (fun r => W r ∧ r ≠ p) := by
  obtain ⟨Q, hQ⟩ := h
  exact ⟨_, hQ.delete hp hl⟩

theorem level (h : InQueues t W) (p : Slot) : (t.proc p).currQueueId < 5 := by
  obtain ⟨Q, hQ⟩ := h
  exact hQ.level p

theorem used (h : InQueues t W) (hp : W p) : t.st p ≠ .unused := by
  obtain ⟨Q, hQ⟩ := h
  exact hQ.used p hp

theorem setProc (h : InQueues t W) (p : Slot) (f : Proc → Proc)
    (hid : W p → (f (t.proc p)).currQueueId = (t.proc p).currQueueId) (hlevel : (f (t.proc p)).currQueueId < 5)
    (hpid : (f (t.proc p)).pid = (t.proc p).pid)
    (hst : (f (t.proc p)).state = .unused ↔ (t.proc p).state = .unused) : InQueues (t.setProc p f) W := by
  obtain ⟨Q, hQ⟩ := h
  have hpids : ∀ r, ((t.setProc p f).proc r).pid = (t.proc r).pid := by
    intro r
    rw [setProc_proc]
    split_ifs with e
    · rw [e, hpid]
    · rfl
  have hused : ∀ r, (t.setProc p f).st r = .unused ↔ t.st r = .unused := by
    intro r
    rw [st_setProc]
    by_cases e : r = p
    · subst e; simpa [st] using hst
    · rw [Function.update_of_ne e]
  refine ⟨Q, hQ.congr rfl rfl rfl rfl (fun _ => .rfl) (fun r hr => ?_) (fun r => ?_)
    (fun r hr => mt (hused r).mp (hQ.used r hr)) (fun r s hr he => ?_)⟩
  · rw [setProc_proc]
    split_ifs with e
    · subst e; exact hid hr
    · rfl
  · rw [setProc_proc]
    split_ifs
    · exact hlevel
    · exact hQ.level r
  · rw [hpids, hpids] at he
    exact hQ.pids r s (mt (hused r).mpr hr) he

theorem setProc_same (h : InQueues t W) (p : Slot) (f : Proc → Proc)
    (hid : (f (t.proc p)).currQueueId = (t.proc p).currQueueId) (hpid : (f (t.proc p)).pid = (t.proc p).pid)
    (hst : (f (t.proc p)).state = .unused ↔ (t.proc p).state = .unused) : InQueues (t.setProc p f) W :=
  h.setProc p f (fun _ => hid) (hid ▸ h.level p) hpid hst

theorem init (h : InQueues t W) {np : Slot} (hn : ¬ W np) : InQueues (t.allocprocTail .mlfq np) W := by
  unfold allocprocTail initializeNewFields
  have h1 := h.setProc_same np (fun r => { r with context := .forkret }) rfl rfl .rfl
  refine h1.setProc np _ (fun hw => absurd hw hn) ?_ ?_ ?_ <;> simp

theorem setReady (h : InQueues t W) (hp : t.st p ≠ .unused) :
    InQueues (t.setProc p (fun r => { r with state := .runnable })) W :=
  h.setProc_same p _ rfl rfl (iff_of_false (by simp) hp)

theorem head (h : InQueues t W) (hq : q < 5) (hi : (i : ℤ) ≤ t.qLatestIdx q)
    (hp : t.queuePtr q i = some p) : W p ∧ (t.proc p).currQueueId = q := by
  obtain ⟨Q, hQ⟩ := h
  have := hQ.last q hq
  exact hQ.ptr_mem hq (by omega) hp

theorem mem_queue (h : InQueues t W) (hq : q < 5) :
    p ∈ t.queue q ↔ W p ∧ (t.proc p).currQueueId = q := by
  obtain ⟨Q, hQ⟩ := h
  rw [hQ.queue_eq hq, hQ.mem q hq]

theorem push_queue (h : InQueues t W) {r : ℕ} (hp : ¬ W p) (hq : q < 5) (hr : r < 5) (hu : t.st p ≠ .unused) :
    (t.pushBackProcess p q).1.queue r = if r = q then t.queue r ++ [p] else t.queue r := by
  obtain ⟨Q, hQ⟩ := h
  rw [(hQ.push hp hq hu).1.queue_eq hr, hQ.queue_eq hr]
  split_ifs with e
  · subst e
    exact Function.update_self _ _ _
  · exact Function.update_of_ne e _ _

theorem push_level (h : InQueues t W) (hp : ¬ W p) (hq : q < 5) (hu : t.st p ≠ .unused) :
    ((t.pushBackProcess p q).1.proc p).currQueueId = q := by
  have hm := h.push_queue (r := q) hp hq hq hu
  rw [if_pos rfl] at hm
  exact (((h.push hp hq hu).mem_queue hq).mp (by rw [hm]; simp)).2

theorem delete_queue (h : InQueues t W) {r : ℕ} (hp : W p) (hl : (t.proc p).currQueueId = q) (hr : r < 5) :
    (t.deleteProcess p q).1.queue r = if r = q then (t.queue r).erase p else t.queue r := by
  obtain ⟨Q, hQ⟩ := h
  rw [(hQ.delete hp hl).queue_eq hr, hQ.queue_eq hr]
  split_ifs with e
  · subst e
    exact Function.update_self _ _ _
  · exact Function.update_of_ne e _ _

theorem push_proc {W : Slot → Prop} (h : InQueues t W) {q : ℕ} (hp : ¬ W p)
    (hq : q < 5) (hu : t.st p ≠ .unused) :
    (t.pushBackProcess p q).1.proc p = { t.proc p with currQueueId := q } := by
  have hl := h.push_level hp hq hu
  rcases pushBackProcess_proc t p p q with e | e
  · rw [e] at hl ⊢
    rw [← hl]
  · exact e

end InQueues

def Proc.share (r : Proc) : ℕ × ℤ × ℤ × Bool := (r.currQueueId, r.currTicksGot, r.currWaitTime, r.shouldDemote)

instance : IgnoresState Proc.share := by constructor <;> intros <;> rfl
instance : IgnoresFamily Proc.share := by constructor <;> intros <;> rfl

theorem share_eq {r s : Proc} : r.share = s.share ↔ r.currQueueId = s.currQueueId ∧
    r.currTicksGot = s.currTicksGot ∧ r.currWaitTime = s.currWaitTime ∧ r.shouldDemote = s.shouldDemote := by
  simp [Proc.share]

structure Shifts (t u : Table) : Prop where
  ready : ∀ p, t.Ready p → u.Ready p
  level : ∀ p, t.Ready p → (u.proc p).currQueueId ≤ (t.proc p).currQueueId
  queue : ∀ q < 5, ∃ old new, u.queue q = old ++ new ∧ old.Sublist (t.queue q) ∧
    ∀ p ∈ new, t.Ready p → (u.proc p).currQueueId < (t.proc p).currQueueId

namespace Shifts

variable {t u v : Table} {W : Slot → Prop}

theorem same (hp : u.queuePtr = t.queuePtr) (hl : u.qLatestIdx = t.qLatestIdx) (hr : ∀ p, t.Ready p → u.Ready p)
    (hid : ∀ p, t.Ready p → (u.proc p).currQueueId = (t.proc p).currQueueId) : Shifts t u where
  ready := hr
  level p h := (hid p h).le
  queue q _ := ⟨t.queue q, [], by rw [queue_congr hp hl, List.append_nil], List.Sublist.refl _, by simp⟩

theorem refl (t : Table) : Shifts t t := same rfl rfl (fun _ => id) (fun _ _ => rfl)

theorem trans (h : Shifts t u) (k : Shifts u v) : Shifts t v where
  ready p hp := k.ready p (h.ready p hp)
  level p hp := (k.level p (h.ready p hp)).trans (h.level p hp)
  queue q hq := by
    obtain ⟨old, new, hu, hold, hnew⟩ := h.queue q hq
    obtain ⟨old', new', hv, hold', hnew'⟩ := k.queue q hq
    rw [hu] at hold'
    obtain ⟨l₁, l₂, rfl, h₁, h₂⟩ := List.sublist_append_iff.mp hold'
    refine ⟨l₁, l₂ ++ new', by rw [hv, List.append_assoc], h₁.trans hold, fun p hp hr => ?_⟩
    rcases List.mem_append.mp hp with hp | hp
    · exact lt_of_le_of_lt (k.level p (h.ready p hr)) (hnew p (h₂.subset hp) hr)
    · exact lt_of_lt_of_le (hnew' p hp (h.ready p hr)) (h.level p hr)

theorem setProc (h : Shifts t u) (p : Slot) (f : Proc → Proc)
    (hr : (u.proc p).state = .runnable → (f (u.proc p)).state = .runnable)
    (hid : (f (u.proc p)).currQueueId = (u.proc p).currQueueId) : Shifts t (u.setProc p f) := by
  refine h.trans (same rfl rfl (fun q hq => ?_) (fun q _ => ?_))
  · by_cases e : q = p
    · subst e
      change ((u.setProc q f).proc q).state = _
      rw [setProc_self]
      exact hr hq
    · change ((u.setProc p f).proc q).state = _
      rw [setProc_of_ne _ _ _ _ e]
      exact hq
  · by_cases e : q = p
    · subst e
      rw [setProc_self, hid]
    · rw [setProc_of_ne _ _ _ _ e]

theorem push (h : Shifts t u) (hu : InQueues u W) {p : Slot} {q : ℕ} (hp : ¬ W p) (hq : q < 5) (hs : u.st p ≠ .unused)
    (hlt : t.Ready p → q < (t.proc p).currQueueId) : Shifts t (u.pushBackProcess p q).1 := by
  have hid : ∀ r, r ≠ p → ((u.pushBackProcess p q).1.proc r).currQueueId = (u.proc r).currQueueId :=
    fun r e => by rw [pushBackProcess_of_ne _ _ e]
  have hself := hu.push_level hp hq hs
  refine ⟨fun r hr => ?_, fun r hr => ?_, fun r hr => ?_⟩
  · change (u.pushBackProcess p q).1.st r = _
    rw [pushBackProcess_st]
    exact h.ready r hr
  · by_cases e : r = p
    · subst e
      rw [hself]
      exact (hlt hr).le
    · rw [hid r e]
      exact h.level r hr
  · obtain ⟨old, new, hq', hold, hnew⟩ := h.queue r hr
    rw [hu.push_queue hp hq hr hs]
    have hall : ∀ x ∈ new, t.Ready x →
        ((u.pushBackProcess p q).1.proc x).currQueueId < (t.proc x).currQueueId := by
      intro x hx hrx
      by_cases e : x = p
      · subst e
        rw [hself]
        exact hlt hrx
      · rw [hid x e]
        exact hnew x hx hrx
    split_ifs with e
    · refine ⟨old, new ++ [p], by rw [hq', List.append_assoc], hold, fun x hx hrx => ?_⟩
      rcases List.mem_append.mp hx with hx | hx
      · exact hall x hx hrx
      · rw [List.mem_singleton.mp hx] at hrx ⊢
        rw [hself]
        exact hlt hrx
    · exact ⟨old, new, hq', hold, hall⟩

theorem delete (h : Shifts t u) (hu : InQueues u W) {p : Slot} {q : ℕ} (hp : W p) (hl : (u.proc p).currQueueId = q) :
    Shifts t (u.deleteProcess p q).1 := by
  refine h.trans ⟨fun r hr => ?_, fun r _ => ?_, fun r hr => ?_⟩
  · change (u.deleteProcess p q).1.st r = _
    rw [deleteProcess_st]
    exact hr
  · rw [deleteProcess_proc]
  · refine ⟨(u.deleteProcess p q).1.queue r, [], by simp, ?_, by simp⟩
    rw [hu.delete_queue hp hl hr]
    split_ifs
    · exact List.erase_sublist
    · exact List.Sublist.refl _

end Shifts

structure Promotes (t u : Table) (p : Slot) : Prop where
  pos : 0 < (t.proc p).currQueueId
  waited : patienceThreshold (t.proc p).currQueueId < (t.proc p).currWaitTime
  level : (u.proc p).currQueueId + 1 = (t.proc p).currQueueId
  wait : (u.proc p).currWaitTime = 0
  flag : (u.proc p).shouldDemote = (t.proc p).shouldDemote

def Aged (W : Slot → Prop) (L : ℕ → Prop) (t u : Table) : Prop :=
  ∀ p, (u.proc p).share = (t.proc p).share ∨ (W p ∧ L (t.proc p).currQueueId ∧ Promotes t u p)

namespace Aged

variable {t u v : Table} {W : Slot → Prop} {L M N : ℕ → Prop}

theorem refl (t : Table) : Aged W L t t := fun _ => .inl rfl

theorem congr (h : Aged W L t u) (hv : v.proc = u.proc) : Aged W L t v := by
  intro p
  rcases h p with hs | ⟨hW, hL, hp⟩
  · exact .inl (by rw [hv]; exact hs)
  · exact .inr ⟨hW, hL, hp.pos, hp.waited, by rw [hv]; exact hp.level, by rw [hv]; exact hp.wait, by rw [hv]; exact hp.flag⟩

theorem trans (h : Aged W L t u) (k : Aged W M u v) (hne : ∀ q, L (q + 1) → ¬ M q) (hL : ∀ q, L q → N q)
    (hM : ∀ q, M q → N q) : Aged W N t v := by
  intro p
  rcases h p with hs | ⟨hW, hl, hp⟩
  · obtain ⟨hq, hg, hw, hf⟩ := share_eq.mp hs
    rcases k p with ks | ⟨hW, kl, kp⟩
    · exact .inl (ks.trans hs)
    · refine .inr ⟨hW, hM _ (hq ▸ kl), ?_⟩
      exact ⟨hq ▸ kp.pos, hw ▸ hq ▸ kp.waited, hq ▸ kp.level, kp.wait, kp.flag.trans hf⟩
  · rcases k p with ks | ⟨-, kl, -⟩
    · obtain ⟨kq, -, kw, kf⟩ := share_eq.mp ks
      exact .inr ⟨hW, hL _ hl, hp.pos, hp.waited, by rw [kq]; exact hp.level, kw.trans hp.wait, kf.trans hp.flag⟩
    · exact absurd kl (hne _ (by rw [hp.level]; exact hl))

end Aged

/-- What waking processes does to the queues. -/
structure Evolves (t u : Table) : Prop where
  inq : InQueues u u.Ready
  shifts : Shifts t u

namespace Evolves

variable {t : Table} {p : Slot}

theorem refl (h : InQueues t t.Ready) : Evolves t t := ⟨h, .refl t⟩

theorem wakeOne (h : InQueues t t.Ready) (chan : Option Chan) (p : Slot) : Evolves t (wakeOne .mlfq chan t p) := by
  unfold ProcTable.Table.wakeOne
  split
  · rename_i hs
    have hst : t.st p = .sleeping := hs.1
    have h1 := h.setReady (p := p) (by simp [hst])
    have h2 := h1.setProc_same p (fun r => { r with currTicksGot := 0 }) rfl rfl .rfl
    have s1 : Shifts t (t.setProc p (fun r => { r with state := .runnable })) :=
      (Shifts.refl t).setProc p _ (fun _ => rfl) rfl
    have s2 := s1.setProc p (fun r => { r with currTicksGot := 0 }) id rfl
    have hn : ¬ t.Ready p := by simp [Ready, hst]
    constructor
    · refine (h2.push hn (h2.level p) (by simp [st])).iff (fun r => ?_)
      by_cases e : r = p
      · subst e; simp [Ready, st, pushBackProcess_state]
      · simp [Ready, st, pushBackProcess_state, e]
    · exact s2.push h2 hn (h2.level p) (by simp [st]) (fun hr => absurd hr hn)
  · exact refl h

theorem foldl {f : Table → Slot → Table} (hf : ∀ t p, InQueues t t.Ready → Evolves t (f t p)) (ps : List Slot)
    (h : InQueues t t.Ready) : Evolves t (ps.foldl f t) := by
  induction ps generalizing t with
  | nil => exact refl h
  | cons p ps ih =>
    have hp := hf t p h
    have hps := ih hp.inq
    exact ⟨hps.inq, hp.shifts.trans hps.shifts⟩

theorem wakeup1 (h : InQueues t t.Ready) (chan : Option Chan) : Evolves t (t.wakeup1 .mlfq chan) :=
  foldl (fun _ p ht => wakeOne ht chan p) _ h

theorem setProc (h : InQueues t t.Ready) (p : Slot) (f : Proc → Proc) (hs : (f (t.proc p)).state = (t.proc p).state)
    (hid : (f (t.proc p)).currQueueId = (t.proc p).currQueueId) (hpid : (f (t.proc p)).pid = (t.proc p).pid) :
    Evolves t (t.setProc p f) := by
  refine ⟨(h.setProc_same p f hid hpid (by rw [hs])).iff (fun r => ?_), (Shifts.refl t).setProc p f (by rw [hs]; exact id) hid⟩
  by_cases e : r = p
  · subst e; simp [Ready, st, hs]
  · simp [Ready, st, e]

theorem reparentOne (h : InQueues t t.Ready) (curproc p : Slot) : Evolves t (reparentOne .mlfq curproc t p) := by
  unfold ProcTable.Table.reparentOne
  split
  · have h1 := setProc h p (fun r => { r with parent := t.initproc }) rfl rfl rfl
    dsimp only
    split
    · have h2 := wakeup1 h1.inq (t.initproc.map .proc)
      exact ⟨h2.inq, h1.shifts.trans h2.shifts⟩
    · exact h1
  · exact refl h

theorem exit (h : InQueues t t.Ready) (hp : t.st p = .running) : Evolves t (t.exit .mlfq p) := by
  have h1 := wakeup1 h ((t.proc p).parent.map .proc)
  have h2 := foldl (fun _ r ht => reparentOne ht p r) slots h1.inq
  have hw : Wakes t (slots.foldl (ProcTable.Table.reparentOne .mlfq p) (t.wakeup1 .mlfq _)) :=
    (wakeup1_wakes .mlfq t ((t.proc p).parent.map .proc)).trans (Wakes.foldl _ (reparentOne_wakes .mlfq p) _ _)
  have hs := h1.shifts.trans h2.shifts
  unfold ProcTable.Table.exit
  dsimp only
  generalize slots.foldl (ProcTable.Table.reparentOne .mlfq p) (t.wakeup1 .mlfq _) = u at h2 hw hs ⊢
  have hr : u.st p = .running := (hw.st_of_ne (by simp [hp])).trans hp
  have hu : (u.proc p).state ≠ .unused := fun e => absurd (hr.symm.trans e) (by simp)
  refine ⟨(h2.inq.setProc_same p _ rfl rfl (iff_of_false (by simp) hu)).iff (fun r => ?_),
    hs.setProc p _ (fun e => absurd (hr.symm.trans e) (by simp)) rfl⟩
  by_cases e : r = p
  · subst e; simp [Ready, hr]; simp [st]
  · simp [Ready, st, e]

theorem kill (h : InQueues t t.Ready) (pid : ℤ) : Evolves t (t.kill .mlfq pid).1 := by
  unfold ProcTable.Table.kill
  split
  · exact refl h
  · rename_i p hp
    have h1 := setProc h p (fun r => { r with killed := true }) rfl rfl rfl
    dsimp only
    split
    · rename_i hs
      have hst : (t.proc p).state = .sleeping := by simpa using hs
      have hn : ¬ (t.setProc p (fun r => { r with killed := true })).Ready p := by simp [Ready, st, hst]
      have hu : (t.setProc p (fun r => { r with killed := true })).st p ≠ .unused := by simp [st, hst]
      have h2 := h1.inq.push hn (h1.inq.level p) hu
      have s2 := h1.shifts.push h1.inq hn (h1.inq.level p) hu (fun hr => absurd (hst.symm.trans hr) (by simp))
      refine ⟨(h2.setReady (p := p) (h2.used (.inr rfl))).iff (fun r => ?_),
        s2.setProc p (fun r => { r with state := .runnable }) (fun _ => rfl) rfl⟩
      by_cases e : r = p
      · subst e; simp [Ready, st]
      · simp [Ready, st, pushBackProcess_state, e]
    · exact h1

end Evolves

/-- What ageing does to the queues whose levels `L` allows. -/
structure Ages (W : Slot → Prop) (L : ℕ → Prop) (t u : Table) : Prop where
  inq : InQueues u W
  shifts : Shifts t u
  aged : Aged W L t u

namespace Ages

variable {t u v : Table} {W : Slot → Prop} {L M N : ℕ → Prop} {p : Slot} {i : ℕ}

theorem refl (h : InQueues t W) : Ages W L t t := ⟨h, .refl t, .refl t⟩

theorem trans (h : Ages W L t u) (k : Ages W M u v) (hne : ∀ q, L (q + 1) → ¬ M q) (hL : ∀ q, L q → N q)
    (hM : ∀ q, M q → N q) : Ages W N t v := ⟨k.inq, h.shifts.trans k.shifts, h.aged.trans k.aged hne hL hM⟩

theorem promote (h : InQueues t W) (hp : W p) (hi : (t.proc p).currQueueId = i) (hi0 : 0 < i)
    (hw : (t.proc p).currWaitTime > patienceThreshold i) :
    Ages W (· = i) t
      (((t.deleteProcess p i).1.setProc p (fun r => { r with currWaitTime := 0 })).pushBackProcess p (i - 1)).1 := by
  have hlt : i < 5 := hi ▸ h.level p
  have h2 := (h.delete hp hi).setProc_same p (fun r => { r with currWaitTime := 0 }) rfl rfl .rfl
  have s2 := ((Shifts.refl t).delete h hp hi).setProc p (fun r => { r with currWaitTime := 0 }) id rfl
  have hu : ((t.deleteProcess p i).1.setProc p (fun r => { r with currWaitTime := 0 })).st p ≠ .unused := by
    have := h.used hp
    simpa [st, deleteProcess_proc] using this
  refine ⟨(h2.push (by simp) (by omega) hu).iff (fun r => ?_), s2.push h2 (by simp) (by omega) hu (fun _ => by omega),
    fun r => ?_⟩
  · by_cases e : r = p
    · subst e; simpa using hp
    · simp [e]
  · by_cases e : r = p
    · subst e
      have hproc := h2.push_proc (p := r) (q := i - 1) (by simp) (by omega) hu
      rw [setProc_self, deleteProcess_proc] at hproc
      refine .inr ⟨hp, hi, by omega, by rw [hi]; exact hw, ?_, ?_, ?_⟩
      · rw [hproc, hi]
        exact Nat.succ_pred_eq_of_pos hi0
      · rw [hproc]
      · rw [hproc]
    · left
      rw [pushBackProcess_of_ne _ _ e, setProc_of_ne _ _ _ _ e, deleteProcess_proc]

theorem ageQueue (h : InQueues t W) (hi : i < 5) (hi0 : 0 < i) (fuel j : ℕ) : Ages W (· = i) t (ageQueue i fuel j t) := by
  induction fuel generalizing j t with
  | zero => exact refl h
  | succ fuel ih =>
    unfold Scheduler.ageQueue
    split_ifs with hj
    · split
      · exact ih h _
      · rename_i p hp
        obtain ⟨hW, hl⟩ := h.head hi hj hp
        split_ifs with hw
        · have hp := promote h hW hl hi0 hw
          exact hp.trans (ih hp.inq _) (by omega) (fun _ => id) (fun _ => id)
        · exact ih h _
    · exact refl h

theorem ageing (h : InQueues t W) : Ages W (fun _ => True) t (ageing t) := by
  have step : ∀ m u, m < 4 → Ages W (· ≤ m) t u →
      Ages W (· ≤ m + 1) t (Scheduler.ageQueue (m + 1) (u.qLatestIdx (m + 1) + 1).toNat 0 u) := fun m u hm hu =>
    hu.trans (ageQueue hu.inq (by omega) (by omega) _ _) (by omega) (by omega) (by omega)
  have h4 := step 3 _ (by decide) (step 2 _ (by decide) (step 1 _ (by decide) (step 0 t (by decide) (refl h))))
  exact ⟨h4.inq, h4.shifts, fun p => (h4.aged p).imp_right (fun ⟨hW, _, hp⟩ => ⟨hW, trivial, hp⟩)⟩

end Ages

end ProcTable

namespace Scheduler

theorem pickMLFQ_spec {t : Table} (h : InQueues t t.Ready) :
    InQueues (pickMLFQ t).1 (fun r => (pickMLFQ t).1.Ready r ∧ (pickMLFQ t).2 ≠ some r) ∧ Shifts t (pickMLFQ t).1 ∧
      Aged t.Ready (fun _ => True) t (pickMLFQ t).1 := by
  obtain ⟨ha, s1, hg⟩ := Ages.ageing h
  have hst := ageing_st t
  unfold pickMLFQ
  dsimp only
  generalize ageing t = u at ha s1 hg hst ⊢
  have hready : ∀ p, u.Ready p ↔ t.Ready p := by simp [Ready, hst]
  split
  · exact ⟨ha.iff (fun p => by simp [hready]), s1, hg⟩
  · rename_i i hi
    have hlt : i < 5 := List.mem_range.mp (List.mem_of_find?_eq_some hi)
    have hle : (0 : ℤ) ≤ u.qLatestIdx i := by simpa using List.find?_some hi
    split
    · exact ⟨ha.iff (fun p => by simp [hready]), s1, hg⟩
    · rename_i p hp
      obtain ⟨hW, hl⟩ := ha.head hlt (by simpa using hle) hp
      have hrun : ((u.deleteProcess p i).1.proc p).state = .runnable := by
        rw [deleteProcess_proc]
        exact (hready p).mpr hW
      rw [if_pos hrun]
      refine ⟨(ha.delete hW hl).iff (fun r => ?_), s1.delete ha hW hl, hg.congr (deleteProcess_proc u p i)⟩
      simp only [Ready, deleteProcess_st]
      exact and_congr (hready r) (by simp [eq_comm])

theorem requeue_inQueues {t : Table} {W : Slot → Prop} (h : InQueues t W) {p : Slot} (hp : ¬ W p) :
    InQueues (requeue t p) (fun r => W r ∨ (t.Ready r ∧ r = p)) := by
  unfold requeue
  split_ifs with hs
  · have h1 : InQueues (demote t p) W := by
      unfold demote
      split_ifs
      · have := h.level p
        refine h.setProc p _ (fun hW => absurd hW hp) ?_ rfl .rfl
        dsimp only
        split_ifs <;> omega
      · exact h
    have hst : (demote t p).st p ≠ .unused := by rw [demote_st, st, hs]; simp
    refine (h1.push hp (h1.level p) hst).iff (fun r => ?_)
    refine or_congr_right ⟨fun hr => hr.2, fun hr => ⟨?_, hr⟩⟩
    rw [hr]; exact hs
  · refine h.iff (fun r => or_iff_left ?_)
    rintro ⟨hr, rfl⟩
    exact hs hr

end Scheduler

end EnhancedXv6
