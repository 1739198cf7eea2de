import EnhancedXv6.StateChanges

namespace EnhancedXv6.Threads

open ProcTable Table Scheduler Transition

def Making.fresh : Making → Option Slot
  | .alloced np => some np
  | _ => none

def Label.quiet {n : ℕ} : Label n → Bool
  | .userinitTail _ => false
  | .forkKalloc _ ok => !ok
  | .exit _ => false
  | .timer c => c.val ≠ 0
  | .setPriority _ _ _ => false
  | _ => true

namespace Kernel

variable {n : ℕ} {α : Type*} {p : Slot}

def initialises (k : Kernel n) : Label n → Option Slot
  | .userinitTail _ => (k.making none).fresh
  | .forkKalloc c true => (k.procAt c .user).bind (fun p => (k.making (some p)).fresh)
  | _ => none

theorem initialises_of_quiet {k : Kernel n} {l : Label n} (h : l.quiet) : k.initialises l = none := by
  cases l with
  | userinitTail c => cases h
  | forkKalloc c ok =>
    cases ok with
    | false => rfl
    | true => cases h
  | _ => rfl

inductive Writes (π : Proc → α) (b : Build) (k : Kernel n) : Label n → Table → Prop
  | frame {l : Label n} {u : Table} (hl : l.quiet) (h : Frame π k.table u) : Writes π b k l u
  | alloc {l : Label n} {u : Table} {np : Slot} (hl : l.quiet) (ha : k.table.allocproc = some (u, np)) : Writes π b k l u
  | init {l : Label n} {u : Table} {np : Slot} (hi : k.initialises l = some np) (he : k.table.st np = .embryo)
      (hu : u.proc = (k.table.allocprocTail b np).proc) (ht : u.ticks = k.table.ticks) : Writes π b k l u
  | exit {c : Fin n} {p : Slot} {u : Table} (hp : (k.cpu c).proc = some p) (hr : k.table.st p = .running)
      (h : Frame π k.table u) (hw : Wakes k.table u) :
      Writes π b k (.exit c) (u.setProc p (fun r => { r with state := .zombie, endTime := i32 u.ticks }))
  | reap {l : Label n} {u : Table} {q : Slot} (hl : l.quiet) (h : Frame π k.table u) (hq : k.table.st q = .zombie) :
      Writes π b k l (u.reap q)
  | tick {c : Fin n} (hc : c.val = 0) : Writes π b k (.timer c) (k.table.tick b)
  | setPriority {c : Fin n} {newPriority pid : ℤ} :
      Writes π b k (.setPriority c newPriority pid) (k.table.setPriority newPriority pid).1

variable {π : Proc → α} {b : Build} {k k' : Kernel n} {l : Label n}

section Writes

theorem Turn.frame [IgnoresState π] [IgnoresFamily π] {c : Fin n} {x : Context} {t : Table} (h : k.Turn c p x l t) : Frame π k.table t := by
  cases h with
  | call => exact .refl _
  | again => exact .wakeSleeper _ _

theorem Turn.quiet {c : Fin n} {x : Context} {t : Table} (h : k.Turn c p x l t) : l.quiet := by
  cases h <;> rfl

theorem Chosen.quiet {c : Fin n} {t : Table} (h : Chosen b k c p l t) : l.quiet := by
  cases h <;> rfl

variable [IgnoresQueue π]

theorem pick_frame (b : Build) (k : Kernel n) (c : Fin n) : Frame π k.table (k.pick b c).1 := by
  cases b with
  | mlfq => exact .pickMLFQ _
  | _ => exact .refl _

theorem backTable_frame (b : Build) (t : Table) (p : Slot) : Frame π t (if b = .mlfq then requeue t p else t) := by
  split_ifs
  · exact .requeue _ _
  · exact .refl _

theorem Chosen.frame {c : Fin n} {t : Table} (h : Chosen b k c p l t) : Frame π k.table t := by
  cases h with
  | schedule => exact pick_frame b k c
  | back => exact .refl _

variable [IgnoresState π] [IgnoresFamily π]

theorem Inv.writes_of_not_run (h : k.Inv) (hs : k.step b l = some k')
    (hr : ∀ {c p t}, Chosen b k c p l t → k'.table = (k.setTable t |>.runOn b c p).table → Writes π b k l k'.table) :
    Writes π b k l k'.table := by
  cases step_cases hs with
  | userinitAlloc hl hc hm ha | forkAlloc hl hp hm ha => exact .alloc rfl ha
  | @userinitTail c p hc hm =>
    exact .init (by rw [initialises, hm]; rfl) (h.live.embryo none p (by rw [hm]; rfl)) rfl rfl
  | userinitDone hl hc hm => exact .frame rfl (.userinitRunnable _ _ _)
  | @forkKalloc c p np hp hm =>
    have hin : k.initialises (.forkKalloc c true) = some np := by
      rw [initialises, procAt_eq.mpr hp, Option.bind_some, hm]
      rfl
    exact .init hin (h.live.embryo (some p) np (by rw [hm]; rfl)) rfl rfl
  | forkNoStack | forkNoCopy => exact .frame rfl (.setState _ _ _)
  | forkCopyuvm => exact .frame rfl (.setParent _ _ _)
  | forkDone => exact .frame rfl (.makeRunnable _ _ _)
  | @exit c p hl hp hm hi hc =>
    obtain ⟨u, hu, hw, he⟩ := Frame.exit (π := π) b k.table p
    rw [setCtl_table, setTable_table, he]
    exact .exit hp (h.live.running_of hp (hl c).2) hu hw
  | @reap l c p q x t ht hq =>
    refine .reap ht.quiet ht.frame ?_
    rw [← ht.st]
    exact (waitScan_reap hq).2
  | waitFail ht => exact .frame ht.quiet ht.frame
  | waitSleep ht => exact .frame ht.quiet (ht.frame.trans (.goSleep _ _ _ _))
  | sleep => exact .frame rfl (.goSleep _ _ _ _)
  | wakeup =>
    rw [setTable_table]
    exact .frame rfl (.wakeup1 _ _ _)
  | kill => exact .frame rfl (.kill _ _ _)
  | setPriority => exact .setPriority
  | fault => exact .frame rfl (.mark _ _)
  | tick hl hc h0 => exact .tick h0
  | timer hl hc h0 => exact .frame (decide_eq_true h0) (.refl _)
  | trapDemote => exact .frame rfl (.setupDemotion _ _)
  | trapYield | demoteYield => exact .frame rfl (.yield _ _)
  | idle => exact .frame rfl (pick_frame b k _)
  | run hp => exact hr hp rfl
  | resumeSleep => exact .frame rfl (.wakeSleeper _ _)
  | back => exact .frame rfl (backTable_frame b _ _)
  | forkNone | trapUser | resumeUser => exact .frame rfl (.refl _)

theorem Inv.writes_of_not_dispatch (h : k.Inv) (hs : k.step b l = some k') (hd : .dispatch ∉ l.arrows) :
    Writes π b k l k'.table :=
  h.writes_of_not_run hs (fun hp _ => absurd (by simp [hp.arrows]) hd)

theorem Inv.writes [IgnoresCount π] (h : k.Inv) (hs : k.step b l = some k') : Writes π b k l k'.table := by
  refine h.writes_of_not_run hs (fun hp he => ?_)
  rw [he]
  exact .frame hp.quiet (hp.frame.trans (.dispatch b _ _))

end Writes

def Fresh (k : Kernel n) (p : Slot) : Prop := ∃ key, (k.making key).fresh = some p

theorem Fresh.update {key : Option Slot} {m : Making} (h : k.Fresh p)
    (hk : (k.making key).fresh ≠ some p ∨ m.fresh = some p) (hm : k'.making = Function.update k.making key m) :
    k'.Fresh p := by
  obtain ⟨key', hp⟩ := h
  refine ⟨key', ?_⟩
  rw [hm]
  by_cases e : key' = key
  · subst e
    rw [Function.update_self]
    exact hk.resolve_left (fun hne => hne hp)
  · rw [Function.update_of_ne e]
    exact hp

theorem fresh_step (hs : k.step b l = some k') (hf : k.Fresh p) :
    k'.Fresh p ∨ k.initialises l = some p ∨ k'.table.st p = .unused := by
  have hsame : k'.making = k.making → k'.Fresh p := by
    intro e
    obtain ⟨key, hp⟩ := hf
    exact ⟨key, by rw [e]; exact hp⟩
  have hkeep : ∀ {key m}, (k.making key).fresh = none → k'.making = Function.update k.making key m → k'.Fresh p :=
    fun hk hm => hf.update (.inl (by rw [hk]; simp)) hm
  have hdrop : ∀ {key np}, k.making key = .alloced np → (k'.making = Function.update k.making key .idle ∨
      k'.making = Function.update k.making key (.inited np)) → k'.Fresh p ∨ np = p := by
    intro key np hk hm
    by_cases e : np = p
    · exact .inr e
    · have hne : (k.making key).fresh ≠ some p := by rw [hk]; simpa [Making.fresh] using e
      rcases hm with hm | hm
      · exact .inl (hf.update (.inl hne) hm)
      · exact .inl (hf.update (.inl hne) hm)
  cases step_cases hs with
  | userinitAlloc hl hc hm | forkAlloc hl hc hm | userinitDone hl hc hm | forkDone hl hc hm =>
    exact .inl (hkeep (by rw [hm]; rfl) rfl)
  | forkCopyuvm hp hm | forkNoCopy hp hm => exact .inl (hkeep (by rw [hm]; rfl) rfl)
  | userinitTail hc hm =>
    rcases hdrop hm (.inr rfl) with hf' | rfl
    · exact .inl hf'
    · exact .inr (.inl (by rw [initialises, hm]; rfl))
  | forkKalloc hp hm =>
    rcases hdrop hm (.inr rfl) with hf' | rfl
    · exact .inl hf'
    · refine .inr (.inl ?_)
      rw [initialises, procAt_eq.mpr hp, Option.bind_some, hm]
      rfl
  | forkNoStack hp hm =>
    rcases hdrop hm (.inl rfl) with hf' | rfl
    · exact .inl hf'
    · refine .inr (.inr ?_)
      rw [setMaking_table, setTable_table, freeEmbryo_st]
      exact Function.update_self _ _ _
  | forkNone => exact .inl hf
  | wakeup => exact .inl (hsame (setTable_making _ _))
  | _ => exact .inl (hsame rfl)

theorem fresh_alloc {u : Table} {np : Slot} {key : Option Slot} (ha : k.table.allocproc = some (u, np))
    (hp : k.table.st p = .unused) (hu : u.st p ≠ .unused) : ((k.setTable u).setMaking key (.alloced np)).Fresh p := by
  obtain ⟨-, rfl⟩ := allocproc_eq ha
  have e : p = np := by
    by_contra e
    rw [st_setProc, Function.update_of_ne e] at hu
    exact hu hp
  refine ⟨key, ?_⟩
  rw [e]
  simp [setMaking, Making.fresh]

theorem Inv.initialised (h : k.Inv) (hs : k.step b l = some k') (hu : k'.table.st p ≠ .unused)
    (hf : ¬ k'.Fresh p) : k.initialises l = some p ∨ (k.table.st p ≠ .unused ∧ ¬ k.Fresh p) := by
  by_cases hi : k.initialises l = some p
  · exact .inl hi
  · refine .inr ⟨fun he => ?_, fun hk => ?_⟩
    · obtain ⟨a, ha, hsrc, -⟩ := h.moves hs p (by rw [he]; exact hu)
      rw [he] at hsrc
      -- only `allocproc` takes an unused slot
      have hcases := step_cases hs
      cases a <;> cases hsrc
      cases hcases with
      | userinitAlloc hl hc hm hx => exact hf (fresh_alloc hx he hu)
      | forkNone hl hp hm hx => exact hu he
      | forkAlloc hl hp hm hx => exact hf (fresh_alloc hx he hu)
      | reap ht | waitFail ht | waitSleep ht => simp [ht.arrows] at ha
      | run hp => simp [hp.arrows] at ha
      | _ => simp [Label.arrows] at ha
    · rcases fresh_step hs hk with h1 | h1 | h1
      · exact hf h1
      · exact hi h1
      · exact hu h1

theorem Inv.zombie_iff (h : k.Inv) (hs : k.step b l = some k') (hl : ∀ c, l ≠ .exit c)
    (hu : k'.table.st p ≠ .unused) : k'.table.st p = .zombie ↔ k.table.st p = .zombie := by
  by_cases e : k'.table.st p = k.table.st p
  · rw [e]
  · obtain ⟨a, ha, hsrc, htgt⟩ := h.moves hs p e
    rw [hsrc, htgt]
    rw [htgt] at hu
    cases a with
    | exit => cases l <;> simp_all [Label.arrows]
    | reap => exact absurd rfl hu
    | _ => simp [Arrow.source, Arrow.target]

theorem Inv.not_fresh (h : k.Inv) (hp : k.table.st p ≠ .embryo) : ¬ k.Fresh p := by
  rintro ⟨key, hk⟩
  apply hp
  apply h.live.embryo key
  cases hm : k.making key with
  | alloced np => rw [hm] at hk; exact hk
  | _ => rw [hm] at hk; cases hk

end Kernel

end EnhancedXv6.Threads
