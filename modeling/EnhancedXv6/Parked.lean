import EnhancedXv6.LifecycleSteps

namespace EnhancedXv6.Threads

open ProcTable Table Scheduler Transition

namespace Kernel

variable {n : ℕ} {u : Table} {p : Slot} {k : Kernel n} {c : Fin n} {x : Ctl} {key : Option Slot} {b : Build}

def Waits (x : Context) : Prop := x = .wait ∨ x = .waitx

def Busy (k : Kernel n) (p : Slot) : Prop :=
  ∃ c, (k.cpu c).proc = some p ∧ ((k.cpu c).ctl = .user ∨ (k.cpu c).ctl = .trap ∨ (k.cpu c).ctl = .demote)

def Parked (k : Kernel n) : Prop :=
  ∀ p, k.making (some p) ≠ .idle → Waits (k.table.proc p).context → k.Busy p

theorem Wakes.waits {t : Table} (h : Wakes t u) (p : Slot) (hw : Waits (u.proc p).context) :
    Waits (t.proc p).context := by
  rcases h.context p with e | e
  · rw [← e]; exact hw
  · rw [e] at hw; rcases hw with e | e <;> cases e

theorem waits_setProc {t : Table} {q : Slot} {f : Proc → Proc}
    (hw : Waits ((t.setProc p f).proc q).context) (hf : ∀ r, (f r).context = r.context) : Waits (t.proc q).context := by
  rw [setProc_proc] at hw
  split_ifs at hw with e
  · rw [e, ← hf]; exact hw
  · exact hw

theorem Busy.setCtl {q : Slot} (h : k.Busy q)
    (hp : (k.cpu c).proc = some p) (hq : q = p → x = .user ∨ x = .trap ∨ x = .demote) :
    (k.setCtl c x).Busy q := by
  obtain ⟨d, hd, hk⟩ := h
  by_cases e : d = c
  · subst e
    refine ⟨d, by simpa [Kernel.setCtl, setCpu] using hd, ?_⟩
    simpa [Kernel.setCtl, setCpu] using hq (Option.some.inj (hd.symm.trans hp))
  · exact ⟨d, by simpa [Kernel.setCtl, setCpu, e] using hd, by simpa [Kernel.setCtl, setCpu, e] using hk⟩

theorem Parked.wakes (h : k.Parked) (hw : Wakes k.table u) :
    (k.setTable u).Parked :=
  fun p hp hx => h p hp (Wakes.waits hw p hx)

theorem Parked.setMaking (h : k.Parked) {m : Making}
    (hw : ∀ p, Waits (u.proc p).context → Waits (k.table.proc p).context)
    (hk : ∀ p, key = some p → m ≠ .idle → k.Busy p) : ((k.setTable u).setMaking key m).Parked := by
  intro p hp hx
  by_cases e : some p = key
  · apply hk p e.symm
    intro hm
    apply hp
    simp [Kernel.setMaking, e, hm]
  · exact h p (by simpa [Kernel.setMaking, e] using hp) (hw p hx)

theorem Parked.setCtl (h : k.Parked)
    (hp : (k.cpu c).proc = some p)
    (hx : x = .user ∨ x = .trap ∨ x = .demote ∨ ¬ Waits (k.table.proc p).context ∨ k.making (some p) = .idle) :
    (k.setCtl c x).Parked := by
  intro q hq hw
  refine (h q hq hw).setCtl hp ?_
  rintro rfl
  rcases hx with e | e | e | e | e
  · exact .inl e
  · exact .inr (.inl e)
  · exact .inr (.inr e)
  · exact absurd hw e
  · exact absurd e hq

theorem leave_parked (h : k.Parked)
    (hp : (k.cpu c).proc = some p) (hn : k.making (some p) = .idle ∨ ¬ Waits (u.proc p).context)
    (hw : ∀ q, q ≠ p → Waits (u.proc q).context → Waits (k.table.proc q).context) :
    ((k.setTable u).setCtl c .swtchOut).Parked := by
  intro q hq hx
  have hne : q ≠ p := by
    rintro rfl
    rcases hn with e | e
    · exact hq e
    · exact e hx
  exact Busy.setCtl (k := k.setTable u) (h q hq (hw q hne hx)) hp (fun e => absurd e hne)

theorem yieldOn_parked (h : k.Parked)
    (hp : (k.cpu c).proc = some p) : (k.yieldOn c p).Parked :=
  leave_parked h hp (.inr (by simp [Table.yield, Waits])) (fun q hq hx => by simpa [Table.yield, hq] using hx)

theorem runOn_parked (h : k.Parked)
    (hc : ¬ ((k.cpu c).ctl = .user ∨ (k.cpu c).ctl = .trap ∨ (k.cpu c).ctl = .demote)) :
    (k.runOn b c p).Parked := by
  intro q hq hw
  have hx : ((k.runOn b c p).table.proc q).context = (k.table.proc q).context := by
    simp only [Kernel.runOn, setCpu_table, setTable_table, dispatch, setProc_proc]
    split_ifs with e
    · subst e; cases b <;> rfl
    · rfl
  obtain ⟨d, hd, hk⟩ := h q hq (hx ▸ hw)
  have hne : d ≠ c := by rintro rfl; exact hc hk
  exact ⟨d, by simpa [Kernel.runOn, setCpu, hne] using hd, by simpa [Kernel.runOn, setCpu, hne] using hk⟩

theorem Chosen.not_busy {l : Label n} {t : Table} (h : Chosen b k c p l t) :
    ¬ ((k.cpu c).ctl = .user ∨ (k.cpu c).ctl = .trap ∨ (k.cpu c).ctl = .demote) := by
  cases h with
  | schedule hl hc hp => simp [hc]
  | back hb hq hp => simp [hq.1]

theorem setCpu_parked (h : k.Parked) {f : Cpu → Cpu}
    (hc : ¬ ((k.cpu c).ctl = .user ∨ (k.cpu c).ctl = .trap ∨ (k.cpu c).ctl = .demote)) :
    (k.setCpu c f).Parked := by
  intro q hq hw
  obtain ⟨d, hd, hk⟩ := h q hq hw
  have hne : d ≠ c := by rintro rfl; exact hc hk
  exact ⟨d, by simpa [setCpu, hne] using hd, by simpa [setCpu, hne] using hk⟩

structure Inv (k : Kernel n) : Prop where
  live : k.Live
  parked : k.Parked

theorem Turn.idle {x : Context} {l : Label n} {t : Table} (ht : k.Turn c p x l t) (h : k.Inv) : k.making (some p) = .idle := by
  cases ht with
  | call hl hp hm hx => exact hm
  | again hp hc hx =>
    by_contra hne
    obtain ⟨d, hd, hk⟩ := h.parked p hne (by rw [hc]; exact hx)
    obtain rfl := h.live.single d c p hd hp.2
    rw [hp.1] at hk
    rcases hk with e | e | e <;> cases e

theorem Inv.wakes (h : k.Inv) (hw : Wakes k.table u) : (k.setTable u).Inv :=
  ⟨h.live.wakes hw, h.parked.wakes hw⟩

theorem Inv.mark (h : k.Inv) (p : Slot) :
    (k.setTable (k.table.setProc p (fun r => { r with killed := true }))).Inv := by
  constructor
  · have hst : (k.table.setProc p (fun r => { r with killed := true })).st = k.table.st := by
      rw [st_setProc]
      exact Function.update_eq_self p k.table.st
    unfold Live
    rw [setTable_table, hst]
    exact h.live
  · intro q hq hx
    rw [setTable_table] at hx
    exact h.parked q hq (waits_setProc hx (fun _ => rfl))

theorem Busy.of_user
    (hp : (k.cpu c).ctl = .user ∧ (k.cpu c).proc = some p) : k.Busy p := ⟨c, hp.2, .inl hp.1⟩

theorem Inv.remake (h : k.Inv) {m : Making}
    (hw : Wakes k.table u) (hs : m.slot = (k.making key).slot) (hn : k.making key ≠ .idle)
    (hb : ∀ p, key = some p → k.Busy p) : ((k.setTable u).setMaking key m).Inv := by
  refine ⟨?_, h.parked.setMaking (Wakes.waits hw) (fun p hp _ => hb p hp)⟩
  refine Life.setMaking (h.live.wakes hw) ?_ ?_
  · intro np hnp
    rw [hs] at hnp
    exact ⟨(h.live.wakes hw).embryo key np hnp, fun key' hne hx => hne (h.live.owner _ _ np hx hnp)⟩
  · rintro _ p rfl
    exact (h.live.wakes hw).maker p hn

theorem Inv.release_embryo (h : k.Inv) {np : Slot} {s : ProcState}
    (hm : (k.making key).slot = some np) (hu : u.st = Function.update k.table.st np s) (hs : s ≠ .running)
    (hw : ∀ p, Waits (u.proc p).context → Waits (k.table.proc p).context) :
    ((k.setTable u).setMaking key .idle).Inv :=
  ⟨h.live.release_embryo hm hu hs, h.parked.setMaking hw (fun _ _ hx => absurd rfl hx)⟩

theorem Inv.alloc (h : k.Inv) {np : Slot}
    (ha : k.table.allocproc = some (u, np)) (hk : ∀ p, key = some p → k.table.st p = .running ∧ k.Busy p) :
    ((k.setTable u).setMaking key (.alloced np)).Inv := by
  refine ⟨h.live.alloc ha (fun p hp => (hk p hp).1), h.parked.setMaking ?_ (fun p hp _ => (hk p hp).2)⟩
  intro p hw
  rw [(allocproc_eq ha).2, setProc_proc] at hw
  split_ifs at hw with e
  · exact e ▸ hw
  · exact hw

theorem Inv.move (h : k.Inv) (hp : (k.cpu c).proc = some p)
    (hc : (k.cpu c).ctl ≠ .swtchOut) (hx : x = .user ∨ x = .trap ∨ x = .demote) : (k.setCtl c x).Inv :=
  ⟨h.live.move hp hc hx, h.parked.setCtl hp (by tauto)⟩

theorem Inv.reap (h : k.Inv) {q : Slot} (hq : k.table.st q = .zombie) (hf : ∀ d, (k.cpu d).ctl ≠ .swtchOut) :
    (k.setTable (k.table.reap q)).Inv := by
  refine ⟨h.live.reap hq hf, fun r hr hx => h.parked r hr ?_⟩
  rw [setTable_table, Table.reap] at hx
  exact waits_setProc hx (fun _ => rfl)

theorem Inv.goSleep (h : k.Inv) (hp : (k.cpu c).proc = some p) (hc : (k.cpu c).ctl ≠ .swtchOut)
    (hf : ∀ d, d ≠ c → ¬ (k.cpu d).ctl.Holds) (hm : k.making (some p) = .idle) (chan : Chan) (x : Context) :
    ((k.setTable (k.table.goSleep p chan x)).setCtl c .swtchOut).Inv :=
  ⟨h.live.leave hp (h.live.running_of hp hc) hf (.inr ⟨.inl rfl, hm⟩) (st_setProc _ _ _),
    leave_parked h.parked hp (.inl hm) (fun q hq hx => by simpa [Table.goSleep, hq] using hx)⟩

theorem Inv.yieldOn (h : k.Inv) (hl : k.LockFree)
    (hp : (k.cpu c).proc = some p) : (k.yieldOn c p).Inv :=
  ⟨h.live.yieldOn hl hp, yieldOn_parked h.parked hp⟩

theorem Inv.timer (h : k.Inv)
    (hc : (k.cpu c).ctl = .user ∨ (k.cpu c).ctl = .idle) :
    (k.setCtl c (if (k.cpu c).ctl = .user then .trap else .idle)).Inv := by
  rcases hc with hu | hi
  · rw [if_pos hu]
    cases hp : (k.cpu c).proc with
    | none => rcases h.live.offCpu c hp with e | e <;> rw [hu] at e <;> cases e
    | some p => exact h.move hp (by simp [hu]) (.inr (.inl rfl))
  · rw [if_neg (by simp [hi])]
    have hk : k.setCtl c .idle = k := by
      have : ({ k.cpu c with ctl := .idle } : Cpu) = k.cpu c := by rw [← hi]
      simp [Kernel.setCtl, setCpu, this]
    rw [hk]
    exact h

theorem Inv.begin (h : k.Inv) (hc : (k.cpu c).ctl = .boot) :
    (k.setCtl c .idle).Inv :=
  ⟨Life.drop h.live (.inr hc) ⟨h.live.proc_none_boot hc, rfl⟩, setCpu_parked h.parked (by simp [hc])⟩

theorem Inv.step {k' : Kernel n} {l : Label n} (h : k.Inv) (hs : k.step b l = some k') :
    k'.Inv := by
  cases step_cases hs with
  | userinitAlloc hl hc hm ha => exact h.alloc ha (fun _ hp => by cases hp)
  | @userinitTail c p hc hm =>
    have hw := allocprocTail_wakes b k.table p
    exact h.remake (hw.trans (.of_proc rfl rfl rfl)) (by rw [hm]; rfl) (by simp [hm]) (fun _ hp => by cases hp)
  | @userinitDone c p hl hc hm =>
    have hi := h.release_embryo (by rw [hm]; rfl) (userinitRunnable_st b k.table p) (by simp)
      (fun q hx => waits_setProc (Wakes.waits (userinitRunnable_wakes b k.table p) q hx) (fun _ => rfl))
    exact hi.begin hc
  | forkNone hl hp hm ha => exact h
  | forkAlloc hl hp hm ha =>
    refine h.alloc ha (fun q hq => ?_)
    cases hq
    exact ⟨h.live.running_of hp.2 (hl _).2, .of_user hp⟩
  | forkKalloc hp hm =>
    refine h.remake (allocprocTail_wakes b k.table _) (by rw [hm]; rfl) (by simp [hm]) ?_
    rintro _ ⟨⟩
    exact .of_user hp
  | forkNoStack hp hm =>
    exact h.release_embryo (by rw [hm]; rfl) (st_setProc _ _ _) (by simp) (fun _ hx => waits_setProc hx (fun _ => rfl))
  | forkCopyuvm hp hm =>
    refine h.remake (.setProc _ _ _ (.inl rfl) rfl) (by rw [hm]; rfl) (by simp [hm]) ?_
    rintro _ ⟨⟩
    exact .of_user hp
  | forkNoCopy hp hm =>
    exact h.release_embryo (by rw [hm]; rfl) (st_setProc _ _ _) (by simp) (fun _ hx => waits_setProc hx (fun _ => rfl))
  | forkDone hl hp hm =>
    exact h.release_embryo (by rw [hm]; rfl) (makeRunnable_st _ _ _) (by simp)
      (fun q hx => waits_setProc (Wakes.waits (makeRunnable_wakes b _ _) q hx) (fun _ => rfl))
  | @exit c p hl hp hm hi hc =>
    obtain ⟨u, hw, he⟩ := exit_eq b k.table p
    refine ⟨h.live.exit hl hp hm, leave_parked h.parked hp (.inl hm) (fun q _ hx => ?_)⟩
    rw [he] at hx
    exact Wakes.waits hw q (waits_setProc hx (fun _ => rfl))
  | @reap l c p q x t ht hq =>
    refine ((h.wakes ht.wakes).reap (waitScan_reap hq).2 (fun d hd => ?_)).move ht.proc ht.ne_out (.inl rfl)
    by_cases e : d = c
    · exact ht.ne_out (e ▸ hd)
    · exact ht.not_holds h.live d e (.inr hd)
  | waitFail ht hq => exact (h.wakes ht.wakes).move ht.proc ht.ne_out (.inl rfl)
  | waitSleep ht hq => exact (h.wakes ht.wakes).goSleep ht.proc ht.ne_out (ht.not_holds h.live) (ht.idle h) _ _
  | sleep hl hp hm => exact h.goSleep hp.2 (hl _).2 (fun d _ => hl.not_holds d) hm _ _
  | wakeup hl hc => exact h.wakes (wakeup1_wakes _ _ _)
  | @kill c p pid hl hp hm =>
    rcases kill_eq b k.table pid with ⟨he, -⟩ | ⟨q, -, -, hw⟩
    · rw [he]; exact h
    · exact (h.mark q).wakes hw
  | setPriority hl hp hm => exact h.wakes (setPriority_wakes _ _ _)
  | fault hp => exact h.mark _
  | tick hl hc h0 => exact Inv.timer (k := k.setTable _) (h.wakes (tick_wakes b _)) hc
  | timer hl hc h0 => exact h.timer hc
  | trapUser hl hp | resumeUser hp => exact h.move hp.2 (by simp [hp.1]) (.inl rfl)
  | trapDemote hl hp => exact (h.wakes (setupDemotion_wakes _ _)).move hp.2 (hl _).2 (.inr (.inr rfl))
  | trapYield hl hp | demoteYield hl hp => exact h.yieldOn hl hp.2
  | idle hl hc hn => exact h.wakes (pick_wakes b k _)
  | run hp => exact ⟨hp.live h.live, runOn_parked (h.parked.wakes hp.wakes) hp.not_busy⟩
  | resumeSleep hp => exact (h.wakes (wakeSleeper_wakes _ _)).move hp.2 (by simp [hp.1]) (.inl rfl)
  | @back c p i hp hn hi =>
    have hw := h.wakes (backTable_wakes b k.table p)
    exact ⟨Life.drop hw.live (.inl hp.1) ⟨rfl, rfl⟩, setCpu_parked hw.parked (by simp [hp.1])⟩

theorem Inv.start : (start n).Inv where
  live :=
    { onCpu := fun _ _ hp => by cases hp
      offCpu := fun c _ => by
        change (if c.val = 0 then Ctl.boot else .idle) = _ ∨ (if c.val = 0 then Ctl.boot else .idle) = _
        split_ifs <;> simp
      running := fun _ hp => by cases hp
      single := fun _ _ _ hp => by cases hp
      lock := fun c _ hc => by
        rcases hc with hc | hc <;> change (if c.val = 0 then Ctl.boot else .idle) = _ at hc <;>
          split_ifs at hc
      embryo := fun _ _ hk => by cases hk
      owner := fun _ _ _ hk => by cases hk
      maker := fun _ hp => absurd rfl hp }
  parked := fun p hp => absurd rfl hp

end Kernel

theorem reachable_inv {b : Build} {n : ℕ} {k : Kernel n} (h : (machine b n).Reachable k) : k.Inv :=
  h.invariant (fun _ e => e ▸ Kernel.Inv.start) (fun _ _ _ hk hs => hk.step hs)

end EnhancedXv6.Threads
