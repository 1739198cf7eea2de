import EnhancedXv6.Parked

namespace EnhancedXv6.Threads

open ProcTable Table Scheduler Transition

structure Keeps (t u : Table) : Prop where
  pid : ∀ p, (u.proc p).pid = (t.proc p).pid
  killed : ∀ p, (u.proc p).killed = (t.proc p).killed
  unused : ∀ p, u.st p = .unused ↔ t.st p = .unused
  embryo : ∀ p, u.st p = .embryo → t.st p = .embryo
  chances : NoChances t → NoChances u
  nextpid : u.nextpid = t.nextpid
  handedOut : u.handedOut = t.handedOut

namespace Keeps

variable {t u v : Table}

theorem refl (t : Table) : Keeps t t := ⟨fun _ => rfl, fun _ => rfl, fun _ => .rfl, fun _ => id, id, rfl, rfl⟩

theorem trans (h : Keeps t u) (k : Keeps u v) : Keeps t v where
  pid p := (k.pid p).trans (h.pid p)
  killed p := (k.killed p).trans (h.killed p)
  unused p := (k.unused p).trans (h.unused p)
  embryo p hp := h.embryo p (k.embryo p hp)
  chances := k.chances ∘ h.chances
  nextpid := k.nextpid.trans h.nextpid
  handedOut := k.handedOut.trans h.handedOut

theorem of_wakes (h : Wakes t u) : Keeps t u where
  pid := h.pid
  killed := h.killed
  unused := h.unused
  embryo p hp := (h.st_of_ne' (by simp [hp])).symm.trans hp
  chances := h.chances
  nextpid := h.nextpid
  handedOut := h.handedOut

theorem setProc (t : Table) (p : Slot) (f : Proc → Proc) (hp : ∀ r, (f r).pid = r.pid)
    (hk : ∀ r, (f r).killed = r.killed) (hc : ∀ r, (f r).pbsChances = r.pbsChances)
    (hs : ∀ r, (f r).state ≠ .unused ∧ (f r).state ≠ .embryo) (hu : t.st p ≠ .unused) : Keeps t (t.setProc p f) where
  pid q := by
    by_cases e : q = p
    · subst e; simp [hp]
    · simp [e]
  killed q := by
    by_cases e : q = p
    · subst e; simp [hk]
    · simp [e]
  unused q := by
    by_cases e : q = p
    · subst e; exact iff_of_false (by simpa [st] using (hs (t.proc q)).1) hu
    · simp [st, e]
  embryo q hq := by
    by_cases e : q = p
    · subst e; exact absurd (by simpa [st] using hq) (hs (t.proc q)).2
    · simpa [st, e] using hq
  chances hn q := by
    by_cases e : q = p
    · subst e; simpa [hc] using hn q
    · simpa [e] using hn q
  nextpid := rfl
  handedOut := rfl

theorem setState (t : Table) (p : Slot) (s : ProcState) (hs : s ≠ .unused ∧ s ≠ .embryo) (hu : t.st p ≠ .unused) :
    Keeps t (t.setProc p (fun r => { r with state := s })) :=
  .setProc _ _ _ (fun _ => rfl) (fun _ => rfl) (fun _ => rfl) (fun _ => hs) hu

theorem goSleep (t : Table) (p : Slot) (chan : Chan) (x : Context) (hu : t.st p ≠ .unused) :
    Keeps t (t.goSleep p chan x) := by
  unfold Table.goSleep
  exact .setProc _ _ _ (fun _ => rfl) (fun _ => rfl) (fun _ => rfl) (by simp) hu

theorem yield (t : Table) (p : Slot) (hu : t.st p ≠ .unused) : Keeps t (t.yield p) := by
  unfold Table.yield
  exact .setProc _ _ _ (fun _ => rfl) (fun _ => rfl) (fun _ => rfl) (by simp) hu

theorem dispatch (b : Build) (t : Table) (p : Slot) (hu : t.st p = .runnable) : Keeps t (dispatch b t p) := by
  unfold Scheduler.dispatch
  apply setProc _ _ _ _ _ _ _ (by simp [hu]) <;> intro r <;> cases b <;> simp

theorem exit (b : Build) (t : Table) (p : Slot) (hu : t.st p = .running) : Keeps t (t.exit b p) := by
  obtain ⟨u, hw, he⟩ := exit_eq b t p
  refine (of_wakes hw).trans ?_
  rw [he]
  refine .setProc _ _ _ (fun _ => rfl) (fun _ => rfl) (fun _ => rfl) (by simp) ?_
  rw [ne_eq, (of_wakes hw).unused p, hu]
  simp

end Keeps

namespace Kernel

variable {n : ℕ}

inductive Effect (k : Kernel n) : Label n → Table → Prop
  | keeps {l : Label n} {u : Table} (h : Keeps k.table u) : Effect k l u
  | alloc {l : Label n} {u : Table} {np : Slot} (hl : (∃ c, l = .userinitAlloc c) ∨ ∃ c, l = .forkAlloc c)
      (ha : k.table.allocproc = some (u, np)) : Effect k l u
  | free {l : Label n} {np p : Slot} {c : Fin n} (hl : l = .forkKalloc c false ∨ l = .forkCopyuvm c false)
      (hp : (k.cpu c).ctl = .user ∧ (k.cpu c).proc = some p) (hm : (k.making (some p)).slot = some np) :
      Effect k l (k.table.freeEmbryo np)
  | reap {l : Label n} {u : Table} {q : Slot} (h : Keeps k.table u) (hq : u.st q = .zombie) :
      Effect k l (u.reap q)
  | kill {c : Fin n} {pid : ℤ} {u : Table} {p : Slot} (hp : (k.table.proc p).pid = pid)
      (h : Keeps (k.table.setProc p (fun r => { r with killed := true })) u) : Effect k (.kill c pid) u
  | fault {c : Fin n} {p : Slot} (hp : (k.cpu c).ctl = .user ∧ (k.cpu c).proc = some p) :
      Effect k (.fault c) (k.table.setProc p (fun r => { r with killed := true }))

theorem Inv.effect {b : Build} {k k' : Kernel n} {l : Label n} (h : k.Inv) (hs : k.step b l = some k') :
    k.Effect l k'.table := by
  have hrun : ∀ {c p}, (k.cpu c).proc = some p → (k.cpu c).ctl ≠ .swtchOut → k.table.st p = .running :=
    fun hp hc => h.live.running_of hp hc
  have hused : ∀ {c p}, (k.cpu c).proc = some p → (k.cpu c).ctl ≠ .swtchOut → k.table.st p ≠ .unused :=
    fun hp hc => by simp [hrun hp hc]
  have hmade : ∀ {key np}, (k.making key).slot = some np →
      Keeps k.table (k.table.setProc np (fun r => { r with state := .runnable })) :=
    fun hm => .setState _ _ _ (by simp) (by simp [h.live.embryo _ _ hm])
  cases step_cases hs with
  | userinitAlloc hl hc hm ha => exact .alloc (.inl ⟨_, rfl⟩) ha
  | userinitTail hc hm =>
    exact .keeps (.of_wakes ((allocprocTail_wakes b k.table _).trans (.of_proc rfl rfl rfl)))
  | userinitDone hl hc hm =>
    exact .keeps ((hmade (by rw [hm]; rfl)).trans (.of_wakes (userinitRunnable_wakes _ _ _)))
  | forkAlloc hl hp hm ha => exact .alloc (.inr ⟨_, rfl⟩) ha
  | forkKalloc hp hm => exact .keeps (.of_wakes (allocprocTail_wakes b k.table _))
  | forkNoStack hp hm => exact .free (.inl rfl) hp (by rw [hm]; rfl)
  | forkCopyuvm hp hm =>
    apply Effect.keeps
    rw [setMaking_table, setTable_table]
    exact .of_wakes (.setProc _ _ _ (.inl rfl) rfl)
  | forkNoCopy hp hm => exact .free (.inr rfl) hp (by rw [hm]; rfl)
  | forkDone hl hp hm =>
    exact .keeps ((hmade (by rw [hm]; rfl)).trans (.of_wakes (makeRunnable_wakes _ _ _)))
  | exit hl hp hm hi hc => exact .keeps (.exit _ _ _ (hrun hp (hl _).2))
  | reap ht hq => exact .reap (.of_wakes ht.wakes) (waitScan_reap hq).2
  | waitFail ht => exact .keeps (.of_wakes ht.wakes)
  | waitSleep ht =>
    refine .keeps ((Keeps.of_wakes ht.wakes).trans (.goSleep _ _ _ _ ?_))
    rw [ne_eq, ht.wakes.unused]
    exact hused ht.proc ht.ne_out
  | sleep hl hp hm => exact .keeps (.goSleep _ _ _ _ (hused hp.2 (hl _).2))
  | wakeup hl hc =>
    apply Effect.keeps
    rw [setTable_table]
    exact .of_wakes (wakeup1_wakes _ _ _)
  | @kill c p pid hl hp hm =>
    rcases kill_eq b k.table pid with ⟨he, -⟩ | ⟨q, hq, -, hw⟩
    · rw [he]; exact .keeps (.refl _)
    · exact .kill hq (.of_wakes hw)
  | setPriority hl hp hm => exact .keeps (.of_wakes (setPriority_wakes _ _ _))
  | fault hp => exact .fault hp
  | tick => exact .keeps (.of_wakes (tick_wakes _ _))
  | trapDemote => exact .keeps (.of_wakes (setupDemotion_wakes _ _))
  | resumeSleep => exact .keeps (.of_wakes (wakeSleeper_wakes _ _))
  | trapYield hl hp | demoteYield hl hp => exact .keeps (.yield _ _ (hused hp.2 (hl _).2))
  | idle => exact .keeps (.of_wakes (pick_wakes b k _))
  | run hp => exact .keeps ((Keeps.of_wakes hp.wakes).trans (.dispatch b _ _ hp.runnable))
  | back => exact .keeps (.of_wakes (backTable_wakes _ _ _))
  | forkNone | timer | trapUser | resumeUser => exact .keeps (.refl _)

end Kernel

theorem handedOut_mono {n : ℕ} {b : Build} {k k' : Kernel n} {l : Label n} (h : k.Inv) (hs : k.step b l = some k') :
    k.table.handedOut ≤ k'.table.handedOut := by
  have he := h.effect hs
  generalize k'.table = u at he
  cases he with
  | keeps hk => exact hk.handedOut.ge
  | alloc hl ha => rw [(Kernel.allocproc_eq ha).2]; exact Nat.le_succ _
  | free => exact le_refl _
  | reap hk => exact hk.handedOut.ge
  | kill _ hk => exact hk.handedOut.ge
  | fault => exact le_refl _

end EnhancedXv6.Threads
