
import EnhancedXv6.Lifecycle
import EnhancedXv6.StepCases
import EnhancedXv6.TableSpecs

namespace EnhancedXv6.Threads

open Function (update update_of_ne)
open ProcTable Table Scheduler Transition

namespace Kernel

variable {n : ℕ} {k : Kernel n} {u : Table} {p np : Slot} {c : Fin n} {b : Build}

def Live (k : Kernel n) : Prop := Life k.table.st k.cpu k.making

theorem LockFree.not_holds (h : k.LockFree) (c : Fin n) : ¬ (k.cpu c).ctl.Holds := by
  rintro (hc | hc)
  · exact (h c).1 hc
  · exact (h c).2 hc

theorem Live.wakes (h : k.Live) (hw : Wakes k.table u) : (k.setTable u).Live :=
  h.wake hw.state

theorem Live.release_embryo (h : k.Live) {key : Option Slot} {s : ProcState}
    (hm : (k.making key).slot = some np) (hu : u.st = update k.table.st np s) (hs : s ≠ .running) :
    ((k.setTable u).setMaking key .idle).Live := by
  have he : k.table.st np = .embryo := h.embryo key np hm
  have h1 : Life k.table.st k.cpu (update k.making key .idle) :=
    h.setMaking (fun _ hx => by cases hx) (fun hx => absurd rfl hx)
  have h2 : Life (update k.table.st np s) k.cpu (update k.making key .idle) := by
    apply h1.setSlot _ _ _ hs
    · intro c hc
      have hf := h.onCpu c np hc
      rw [he] at hf
      cases hk : (k.cpu c).ctl <;> simp_all [Ctl.Fits]
    · by_contra hx
      have := h1.maker np hx
      rw [he] at this
      rcases this with e | e <;> cases e
    · intro key' hk
      by_cases e : key' = key
      · subst e; simp [Making.slot] at hk
      · rw [update_of_ne e] at hk
        exact e (h.owner _ _ np hk hm)
  change Life u.st _ _
  rw [hu]
  exact h2

theorem allocproc_eq {t : Table} (h : t.allocproc = some (u, np)) :
    (t.proc np).state = .unused ∧
      u = ({ t with nextpid := i32 (t.nextpid + 1), handedOut := t.handedOut + 1 } : Table).setProc np
        (fun r => { r with state := .embryo, pid := t.nextpid, currPriority := 60 }) := by
  obtain ⟨p, hp, he⟩ := Option.map_eq_some_iff.mp h
  cases he
  exact ⟨by simpa using List.find?_some hp, rfl⟩

theorem allocproc_proc {α : Type*} {π : Proc → α} {t : Table} (h : t.allocproc = some (u, np))
    (hπ : ∀ r x, π { r with state := .embryo, pid := x, currPriority := 60 } = π r) (p : Slot) :
    π (u.proc p) = π (t.proc p) := by
  rw [(allocproc_eq h).2, setProc_proc]
  split_ifs with e
  · rw [e]
    exact hπ _ _
  · rfl

theorem Live.alloc (h : k.Live) {key : Option Slot}
    (ha : k.table.allocproc = some (u, np))
    (hk : ∀ p, key = some p → k.table.st p = .running) :
    ((k.setTable u).setMaking key (.alloced np)).Live := by
  obtain ⟨hu, he⟩ := allocproc_eq ha
  have hst : u.st = update k.table.st np .embryo := by rw [he, st_setProc]; rfl
  have hidle : k.making (some np) = .idle := by
    by_contra hx
    have hs := h.maker np hx
    simp only [Table.st, hu] at hs
    rcases hs with e | e <;> cases e
  have hfree : ∀ key, (k.making key).slot ≠ some np := by
    intro key' hx
    have he := h.embryo key' np hx
    simp only [Table.st, hu] at he
    cases he
  have h1 : Life (update k.table.st np .embryo) k.cpu k.making := by
    apply h.setSlot _ hidle hfree (by simp)
    intro c hc
    have hf := h.onCpu c np hc
    simp only [Table.st, hu] at hf
    cases hk : (k.cpu c).ctl <;> simp_all [Ctl.Fits]
  change Life u.st k.cpu (update k.making key (.alloced np))
  rw [hst]
  refine h1.setMaking ?_ ?_
  · rintro q hq
    cases hq
    exact ⟨by simp, fun key' _ => hfree key'⟩
  · intro _ p hp
    have hr := hk p hp
    have hne : p ≠ np := by
      rintro rfl
      simp only [Table.st, hu] at hr
      cases hr
    rw [update_of_ne hne]
    exact .inr hr

theorem userinitRunnable_st (b : Build) (t : Table) (p : Slot) :
    (t.userinitRunnable b p).st = update t.st p .runnable := by
  unfold userinitRunnable
  dsimp only
  rw [← st_setProc t p (fun r => { r with state := .runnable })]
  split_ifs
  · funext q; exact pushBackProcess_state _ _ _ _
  · rfl

theorem makeRunnable_st (b : Build) (t : Table) (p : Slot) :
    (t.makeRunnable b p).st = update t.st p .runnable := by
  unfold makeRunnable
  dsimp only
  rw [← st_setProc t p (fun r => { r with state := .runnable })]
  cases b with
  | rr => rfl
  | fcfs => rfl
  | pbs => funext q; exact resetPbsChances_state _ _ _
  | mlfq => funext q; exact pushBackProcess_state _ _ _ _

theorem Live.leave (h : k.Live) {s : ProcState}
    (hp : (k.cpu c).proc = some p) (hr : k.table.st p = .running)
    (hf : ∀ d, d ≠ c → ¬ (k.cpu d).ctl.Holds)
    (hs : s = .runnable ∨ ((s = .sleeping ∨ s = .zombie) ∧ k.making (some p) = .idle))
    (hu : u.st = update k.table.st p s) : ((k.setTable u).setCtl c .swtchOut).Live := by
  change Life u.st _ _
  rw [hu]
  exact Life.leave h hp hr hf hs

theorem Live.running_of (h : k.Live) (hp : (k.cpu c).proc = some p)
    (hc : (k.cpu c).ctl ≠ .swtchOut) : k.table.st p = .running := by
  have hf := h.onCpu c p hp
  cases hk : (k.cpu c).ctl <;> simp_all [Ctl.Fits]

theorem Live.exit (h : k.Live) (hl : k.LockFree)
    (hp : (k.cpu c).proc = some p) (hm : k.making (some p) = .idle) :
    ((k.setTable (k.table.exit b p)).setCtl c .swtchOut).Live := by
  obtain ⟨u, hw, he⟩ := exit_eq b k.table p
  have hr : k.table.st p = .running := h.running_of hp (hl c).2
  have hu : u.st p = .running := (hw.st_of_ne (by simp [hr])).trans hr
  refine Live.leave (k := k.setTable u) (h.wakes hw) hp hu (fun d _ => hl.not_holds d)
    (.inr ⟨.inr rfl, hm⟩) ?_
  rw [he, st_setProc]
  rfl

theorem Live.reap (h : k.Live) {q : Slot} (hq : k.table.st q = .zombie)
    (hf : ∀ d, (k.cpu d).ctl ≠ .swtchOut) : (k.setTable (k.table.reap q)).Live := by
  change Life (k.table.reap q).st _ _
  unfold Table.reap
  rw [st_setProc]
  apply Life.setSlot h
  · intro c hc
    have := h.running_of hc (hf c)
    rw [hq] at this; cases this
  · by_contra hx
    have := h.maker q hx
    rw [hq] at this
    rcases this with e | e <;> cases e
  · intro key hk
    have := h.embryo key q hk
    rw [hq] at this; cases this
  · simp

theorem Live.move (h : k.Live) {x : Ctl}
    (hp : (k.cpu c).proc = some p) (hc : (k.cpu c).ctl ≠ .swtchOut)
    (hx : x = .user ∨ x = .trap ∨ x = .demote) : (k.setCtl c x).Live := by
  have hf := h.onCpu c p hp
  apply Life.move h _ _ hx
  · intro s hs
    cases hk : (k.cpu c).ctl <;> simp_all [Ctl.Fits]
  · constructor <;> intro e <;> simp_all [Ctl.Fits]

theorem waitScan_reap {t : Table} {q : Slot} (h : t.waitScan p = .reap q) :
    (t.proc q).parent = some p ∧ (t.proc q).state = .zombie := by
  unfold waitScan at h
  split at h
  · cases h
    rename_i hq
    simpa using List.find?_some hq
  · split_ifs at h

theorem Live.yieldOn (h : k.Live) (hl : k.LockFree)
    (hp : (k.cpu c).proc = some p) : (k.yieldOn c p).Live :=
  h.leave hp (h.running_of hp (hl c).2) (fun d _ => hl.not_holds d) (.inl rfl) (st_setProc _ _ _)

theorem Live.runOn (h : k.Live)
    (hc : (k.cpu c).proc = none) (hf : ∀ d, d ≠ c → ¬ (k.cpu d).ctl.Holds)
    (hr : k.table.st p = .runnable) : (k.runOn b c p).Live := by
  have hst : (dispatch b k.table p).st = update k.table.st p .running := by
    unfold dispatch
    rw [st_setProc]
    cases b <;> rfl
  change Life (dispatch b k.table p).st _ _
  rw [hst]
  exact Life.enter h hc hf hr

theorem Live.proc_none_of_fits (h : k.Live) (hc : ∀ s, ¬ (k.cpu c).ctl.Fits s) : (k.cpu c).proc = none := by
  cases hp : (k.cpu c).proc with
  | none => rfl
  | some p => exact absurd (h.onCpu c p hp) (hc _)

theorem Live.proc_none (h : k.Live) (hc : (k.cpu c).ctl = .idle) : (k.cpu c).proc = none :=
  h.proc_none_of_fits (fun _ => by rw [hc]; exact id)

theorem Live.proc_none_boot (h : k.Live) (hc : (k.cpu c).ctl = .boot) : (k.cpu c).proc = none :=
  h.proc_none_of_fits (fun _ => by rw [hc]; exact id)

theorem runOn_release (k : Kernel n) (b : Build) (c : Fin n) (p : Slot) :
    (k.release c).runOn b c p = k.runOn b c p := by
  simp [Kernel.runOn, Kernel.release, setCpu, setTable]

theorem Live.release (h : k.Live) (hc : (k.cpu c).ctl = .swtchOut) :
    (k.release c).Live := Life.drop h (.inl hc) ⟨rfl, rfl⟩

theorem pick_wakes (b : Build) (k : Kernel n) (c : Fin n) : Wakes k.table (k.pick b c).1 := by
  cases b with
  | mlfq => exact pickMLFQ_wakes k.table
  | _ => exact .refl _

theorem pick_runnable (h : (k.pick b c).2 = some p) : (k.pick b c).1.st p = .runnable := by
  cases b with
  | mlfq => exact pickMLFQ_runnable h
  | rr => exact (pickRR_runnable h).2
  | fcfs => exact pickFCFS_runnable h
  | pbs => exact (pickPBS_runnable h).1

theorem backTable_wakes (b : Build) (t : Table) (p : Slot) : Wakes t (if b = .mlfq then requeue t p else t) := by
  split_ifs
  · exact requeue_wakes t p
  · exact .refl t

namespace Chosen

variable {l : Label n} {t : Table}

theorem wakes (h : Chosen b k c p l t) : Wakes k.table t := by
  cases h with
  | schedule hl hc hp => exact pick_wakes b k c
  | back hb hq hp => exact .refl _

theorem runnable (h : Chosen b k c p l t) : t.st p = .runnable := by
  cases h with
  | schedule hl hc hp => exact pick_runnable hp
  | back hb hq hp => exact (pickRR_runnable hp).2

theorem live (h : Chosen b k c p l t) (hk : k.Live) : ((k.setTable t).runOn b c p).Live := by
  cases h with
  | schedule hl hc hp =>
    exact Live.runOn (k := k.setTable _) (hk.wakes (pick_wakes b k c)) (hk.proc_none hc) (fun d _ => hl.not_holds d)
      (pick_runnable hp)
  | back hb hq hp =>
    change (k.runOn b c p).Live
    rw [← runOn_release]
    refine Live.runOn (hk.release hq.1) (by simp [Kernel.release, setCpu]) (fun d hd hh => hd ?_) (pickRR_runnable hp).2
    exact hk.lock d c (by simpa [Kernel.release, setCpu, hd] using hh) (.inr hq.1)

end Chosen

namespace Turn

variable {l : Label n} {t : Table} {x : Context}

theorem proc (h : k.Turn c p x l t) : (k.cpu c).proc = some p := by
  cases h with
  | call hl hp hm hx => exact hp.2
  | again hp hc hx => exact hp.2

theorem ctl (h : k.Turn c p x l t) : (k.cpu c).ctl = .user ∨ (k.cpu c).ctl = .swtchIn := by
  cases h with
  | call hl hp hm hx => exact .inl hp.1
  | again hp hc hx => exact .inr hp.1

theorem ne_out (h : k.Turn c p x l t) : (k.cpu c).ctl ≠ .swtchOut := by
  rcases h.ctl with e | e <;> simp [e]

theorem wakes (h : k.Turn c p x l t) : Wakes k.table t := by
  cases h with
  | call hl hp hm hx => exact .refl _
  | again hp hc hx => exact wakeSleeper_wakes _ _

theorem not_holds (h : k.Turn c p x l t) (hk : k.Live) (d : Fin n) (hd : d ≠ c) : ¬ (k.cpu d).ctl.Holds := by
  cases h with
  | call hl hp hm hx => exact hl.not_holds d
  | again hp hc hx => exact fun hh => hd (hk.lock d c hh (.inl hp.1))

end Turn

end Kernel

end EnhancedXv6.Threads
