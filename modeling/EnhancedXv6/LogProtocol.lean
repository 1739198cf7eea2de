import EnhancedXv6.Interleaving
import EnhancedXv6.Log
import EnhancedXv6.Transition

namespace EnhancedXv6.LogProtocol

open Function (update update_of_ne update_self)
open Transition Machine Counting

/-- Where a process stands. `logged` lists the blocks its operation has logged so far; no step reads it. -/
inductive Proc
  | out
  | sleep
  | woken
  | op (logged : List ℕ)
  | write (logged : List ℕ) (blockno : ℕ)
  | commit
  | committed
  deriving DecidableEq, Repr

namespace Proc

def wakeup : Proc → Proc
  | sleep => woken
  | c => c

def inOp : Proc → Bool
  | op _ => true
  | write _ _ => true
  | _ => false

def inCommit : Proc → Bool
  | commit => true
  | committed => true
  | _ => false

@[simp] theorem inOp_wakeup (c : Proc) : c.wakeup.inOp = c.inOp := by cases c <;> rfl

@[simp] theorem inCommit_wakeup (c : Proc) : c.wakeup.inCommit = c.inCommit := by cases c <;> rfl

theorem wakeup_ne_sleep (c : Proc) : c.wakeup ≠ sleep := by cases c <;> simp [wakeup]

theorem wakeup_eq_committed {c : Proc} (h : c.wakeup = committed) : c = committed := by
  cases c <;> simp_all [wakeup]

def active (c : Proc) : ℕ := c.inOp.toNat

def commits (c : Proc) : ℕ := c.inCommit.toNat

end Proc

structure State (P : Type*) where
  log : Log
  proc : P → Proc := fun _ => .out
  panic : Option String := none

inductive Label (P : Type*)
  | beginOp (p : P)
  | logCheck (p : P) (blockno : ℕ)
  | logWrite (p : P)
  | endOp (p : P)
  | commit (p : P)
  | endCommit (p : P)
  | kill (p : P)

def Label.proc {P : Type*} : Label P → P
  | beginOp p => p
  | logCheck p _ => p
  | logWrite p => p
  | endOp p => p
  | commit p => p
  | endCommit p => p
  | kill p => p

namespace State

variable {P : Type*} [DecidableEq P]

def setProc (s : State P) (p : P) (c : Proc) : State P := { s with proc := Function.update s.proc p c }

def setLog (s : State P) (log : Log) : State P := { s with log := log }

def wakeup (s : State P) : State P := { s with proc := fun p => (s.proc p).wakeup }

def beginOp (s : State P) (p : P) : State P :=
  match s.log.beginOp with
  | none => s.setProc p .sleep
  | some log => (s.setLog log).setProc p (.op [])

def logCheck (s : State P) (p : P) (logged : List ℕ) (blockno : ℕ) : State P :=
  match s.log.logCheck with
  | .error e => { s with panic := some e }
  | .ok _ => s.setProc p (.write logged blockno)

def endOp (s : State P) (p : P) : State P :=
  match s.log.endOp with
  | .error e => { s with panic := some e }
  | .ok log => if log.committing then (s.setLog log).setProc p .commit else ((s.setLog log).setProc p .out).wakeup

def step (s : State P) (l : Label P) : Option (State P) :=
  if s.panic.isSome then none
  else match l with
    | .beginOp p => if s.proc p = .out ∨ s.proc p = .woken then some (s.beginOp p) else none
    | .logCheck p blockno => match s.proc p with
      | .op logged => some (s.logCheck p logged blockno)
      | _ => none
    | .logWrite p => match s.proc p with
      | .write logged blockno =>
        some ((s.setLog (s.log.logWrite blockno)).setProc p (.op (logged.insert blockno)))
      | _ => none
    | .endOp p => match s.proc p with
      | .op _ => some (s.endOp p)
      | _ => none
    | .commit p => if s.proc p = .commit then some ((s.setLog { s.log with lh := [] }).setProc p .committed) else none
    | .endCommit p =>
      if s.proc p = .committed then some (((s.setLog { s.log with committing := false }).setProc p .out).wakeup) else none
    -- a killed process is made runnable in its sleep
    | .kill p => if s.proc p = .sleep then some (s.setProc p .woken) else none

end State

def machine (P : Type*) [DecidableEq P] : Machine (State P) (Label P) where
  initial s := ∃ start size, s = { log := { start := start, size := size } }
  next := State.step

def Full (l : Log) : Prop := LOGSIZE < l.lh.length + (l.outstanding + 1) * MAXOPBLOCKS

theorem beginOp_eq_none {l : Log} (h : l.beginOp = none) : l.committing ∨ Full l := by
  unfold Log.beginOp at h
  split_ifs at h with hc hn
  · exact .inl hc
  · exact .inr hn

section Steps

variable {P : Type*} [DecidableEq P]

inductive Steps (s : State P) : Label P → State P → Prop
  | wait {p} (hp : s.proc p = .out ∨ s.proc p = .woken) (hl : s.log.beginOp = none) : Steps s (.beginOp p) (s.setProc p .sleep)
  | enter {p} (hp : s.proc p = .out ∨ s.proc p = .woken) (hc : s.log.committing = false)
      (hroom : s.log.lh.length + (s.log.outstanding + 1) * MAXOPBLOCKS ≤ LOGSIZE) :
      Steps s (.beginOp p) ((s.setLog { s.log with outstanding := s.log.outstanding + 1 }).setProc p (.op []))
  | logCheck {p bs b} (hp : s.proc p = .op bs) : Steps s (.logCheck p b) (s.setProc p (.write bs b))
  | logWrite {p bs b} (hp : s.proc p = .write bs b) :
      Steps s (.logWrite p) ((s.setLog (s.log.logWrite b)).setProc p (.op (bs.insert b)))
  | last {p bs} (hp : s.proc p = .op bs) (h0 : s.log.outstanding - 1 = 0) : Steps s (.endOp p)
      ((s.setLog { s.log with outstanding := s.log.outstanding - 1, committing := true }).setProc p .commit)
  | leave {p bs} (hp : s.proc p = .op bs) (h0 : s.log.outstanding - 1 ≠ 0) : Steps s (.endOp p)
      ((s.setLog { s.log with outstanding := s.log.outstanding - 1, committing := false }).setProc p .out).wakeup
  | commit {p} (hp : s.proc p = .commit) : Steps s (.commit p) ((s.setLog { s.log with lh := [] }).setProc p .committed)
  | endCommit {p} (hp : s.proc p = .committed) : Steps s (.endCommit p)
      ((s.setLog { s.log with committing := false }).setProc p .out).wakeup
  | kill {p} (hp : s.proc p = .sleep) : Steps s (.kill p) (s.setProc p .woken)

inductive Panics (s : State P) : Label P → String → Prop
  | logCheck {p bs b e} (hp : s.proc p = .op bs) (he : s.log.logCheck = .error e) : Panics s (.logCheck p b) e
  | endOp {p bs} (hp : s.proc p = .op bs) (hc : s.log.committing) : Panics s (.endOp p) "log.committing"

theorem step_cases {s t : State P} {l : Label P} (h : s.step l = some t) :
    s.panic = none ∧ (Steps s l t ∨ ∃ e, Panics s l e ∧ t = { s with panic := some e }) := by
  unfold State.step at h
  split_ifs at h with hpan
  refine ⟨by simpa using hpan, ?_⟩
  cases l with
  | beginOp p =>
    dsimp only at h
    split_ifs at h with hp
    cases h
    unfold State.beginOp
    cases hl : s.log.beginOp with
    | none => exact .inl (.wait hp hl)
    | some log =>
      obtain ⟨hc, hroom, rfl⟩ := Log.beginOp_eq_some hl
      exact .inl (.enter hp hc hroom)
  | logCheck p b =>
    cases hp : s.proc p <;> simp [hp] at h
    subst h
    unfold State.logCheck
    cases hl : s.log.logCheck with
    | error e => exact .inr ⟨e, .logCheck hp hl, rfl⟩
    | ok _ => exact .inl (.logCheck hp)
  | logWrite p =>
    cases hp : s.proc p <;> simp [hp] at h
    subst h
    exact .inl (.logWrite hp)
  | endOp p =>
    cases hp : s.proc p <;> simp [hp] at h
    subst h
    unfold State.endOp
    cases hc : s.log.committing with
    | true =>
      rw [Log.endOp, if_pos hc]
      exact .inr ⟨_, .endOp hp hc, rfl⟩
    | false =>
      rw [Log.endOp_of_not_committing hc]
      dsimp only
      by_cases h0 : s.log.outstanding - 1 = 0
      · rw [if_pos (decide_eq_true h0), decide_eq_true h0]
        exact .inl (.last hp h0)
      · rw [if_neg (by simpa using h0), decide_eq_false h0]
        exact .inl (.leave hp h0)
  | commit p =>
    dsimp only at h
    split_ifs at h with hp
    cases h
    exact .inl (.commit hp)
  | endCommit p =>
    dsimp only at h
    split_ifs at h with hp
    cases h
    exact .inl (.endCommit hp)
  | kill p =>
    dsimp only at h
    split_ifs at h with hp
    cases h
    exact .inl (.kill hp)

def Waits {P : Type*} (s : State P) : Prop := ∀ p, s.proc p = .sleep → s.log.committing ∨ Full s.log

namespace Waits

variable {s : State P} {p : P}

omit [DecidableEq P] in
theorem wakeup (s : State P) : Waits s.wakeup := fun _ hp => absurd hp (Proc.wakeup_ne_sleep _)

theorem move (h : Waits s) {c : Proc} (log : Log) (hlog : s.log.committing ∨ Full s.log → log.committing ∨ Full log)
    (hc : c = .sleep → s.log.committing ∨ Full s.log) : Waits ((s.setLog log).setProc p c) := by
  intro q hq
  change update s.proc p c q = .sleep at hq
  by_cases e : q = p
  · subst e
    rw [update_self] at hq
    exact hlog (hc hq)
  · rw [update_of_ne e] at hq
    exact hlog (h q hq)

theorem step (h : Waits s) (hcom : ∀ p, (s.proc p).inCommit → s.log.committing) {l : Label P} {t : State P} (hs : Steps s l t) :
    Waits t := by
  cases hs with
  | wait hp hl => exact h.move s.log id (fun _ => beginOp_eq_none hl)
  | enter hp hc hroom =>
    refine h.move _ ?_ (fun e => by cases e)
    rintro (hx | hx)
    · exact .inl hx
    · right
      simp only [Full, MAXOPBLOCKS] at hx ⊢
      omega
  | logCheck hp => exact h.move s.log id (fun e => by cases e)
  | @logWrite p bs b hp =>
    refine h.move _ ?_ (fun e => by cases e)
    rintro (hx | hx)
    · exact .inl hx
    · right
      have hlen : s.log.lh.length ≤ (s.log.logWrite b).lh.length := by
        unfold Log.logWrite
        dsimp only
        split_ifs <;> simp
      unfold Full at hx ⊢
      change _ < (s.log.logWrite b).lh.length + (s.log.outstanding + 1) * MAXOPBLOCKS
      omega
  | last hp h0 => exact h.move _ (fun _ => .inl rfl) (fun e => by cases e)
  | leave hp h0 => exact Waits.wakeup _
  | @commit p hp => exact h.move _ (fun _ => .inl (hcom p (by rw [hp]; rfl))) (fun e => by cases e)
  | endCommit hp => exact Waits.wakeup _
  | kill hp => exact h.move s.log id (fun e => by cases e)

end Waits

def Wakes (s : State P) (q p : P) : Prop :=
  ∃ w t, (∀ l ∈ w, l.proc = q) ∧ (machine P).run s w = some t ∧ t.proc p = .woken

namespace Wakes

variable {s t : State P} {q p : P}

theorem next {l : Label P} (hl : l.proc = q) (hs : s.step l = some t) (h : Wakes t q p) : Wakes s q p := by
  obtain ⟨w, u, hw, hr, hu⟩ := h
  refine ⟨l :: w, u, ?_, ?_, hu⟩
  · simpa using ⟨hl, hw⟩
  · rw [run_cons]
    change (s.step l).bind _ = _
    rw [hs]
    exact hr

theorem of_step {l : Label P} (hl : l.proc = q) (hs : s.step l = some t) (ht : t.proc p = .woken) : Wakes s q p :=
  .next hl hs ⟨[], t, by simp, rfl, ht⟩

omit [DecidableEq P] in
theorem ne_of_sleep {c : Proc} (hp : s.proc p = .sleep) (hq : s.proc q = c) (hc : c ≠ .sleep) : p ≠ q := by
  rintro rfl
  exact hc (hq.symm.trans hp)

theorem of_committed (hn : s.panic = none) (hp : s.proc p = .sleep) (hq : s.proc q = .committed) : Wakes s q p := by
  have hne := ne_of_sleep hp hq (by simp)
  refine of_step (l := .endCommit q) rfl (by simp only [State.step, hn, hq]; rfl) ?_
  change (update s.proc q .out p).wakeup = .woken
  rw [update_of_ne hne, hp]
  rfl

theorem of_commit (hn : s.panic = none) (hp : s.proc p = .sleep) (hq : s.proc q = .commit) : Wakes s q p := by
  have hne := ne_of_sleep hp hq (by simp)
  have hs : s.step (.commit q) = some ((s.setLog { s.log with lh := [] }).setProc q .committed) := by
    simp only [State.step, hn, hq]
    rfl
  refine next (l := .commit q) rfl hs (of_committed hn ?_ (update_self _ _ _))
  exact (update_of_ne hne _ _).trans hp

theorem of_op (hn : s.panic = none) (hc : s.log.committing = false) (hp : s.proc p = .sleep) {bs : List ℕ}
    (hq : s.proc q = .op bs) : Wakes s q p := by
  have hne := ne_of_sleep hp hq (by simp)
  have hs : s.step (.endOp q) = some (s.endOp q) := by
    simp only [State.step, hn, hq]
    rfl
  rw [State.endOp, Log.endOp_of_not_committing hc] at hs
  dsimp only at hs
  split_ifs at hs with h0
  · refine next (l := .endOp q) rfl hs (of_commit hn ?_ (update_self _ _ _))
    exact (update_of_ne hne _ _).trans hp
  · refine of_step (l := .endOp q) rfl hs ?_
    change (update s.proc q .out p).wakeup = .woken
    rw [update_of_ne hne, hp]
    rfl

theorem of_write (hn : s.panic = none) (hc : s.log.committing = false) (hp : s.proc p = .sleep) {bs : List ℕ} {b : ℕ}
    (hq : s.proc q = .write bs b) : Wakes s q p := by
  have hne := ne_of_sleep hp hq (by simp)
  have hs : s.step (.logWrite q) = some ((s.setLog (s.log.logWrite b)).setProc q (.op (bs.insert b))) := by
    simp only [State.step, hn, hq]
    rfl
  refine next (l := .logWrite q) rfl hs (of_op hn hc ?_ (update_self _ _ _))
  exact (update_of_ne hne _ _).trans hp

end Wakes

end Steps

variable {P : Type*} [Fintype P]

structure Ordered (s : State P) : Prop where
  outstanding : s.log.outstanding = total Proc.active s.proc
  commits : s.log.committing.toNat = total Proc.commits s.proc
  quiet : s.log.committing → s.log.outstanding = 0
  empty : s.log.committing = false → s.log.outstanding = 0 → s.log.lh = []
  committed : ∀ p, s.proc p = .committed → s.log.lh = []
  nodup : s.log.lh.Nodup

namespace Ordered

variable {s : State P} {p : P}

theorem outstanding_pos (h : Ordered s) (hp : (s.proc p).inOp) : 0 < s.log.outstanding := by
  have hle := le_total Proc.active s.proc p
  rw [← h.outstanding, Proc.active, hp] at hle
  exact hle

theorem not_committing (h : Ordered s) (hp : (s.proc p).inOp) : s.log.committing = false := by
  by_contra hc
  have := h.quiet (by simpa using hc)
  have := h.outstanding_pos hp
  omega

theorem committing (h : Ordered s) (hp : (s.proc p).inCommit) : s.log.committing = true := by
  have hle := le_total Proc.commits s.proc p
  rw [← h.commits, Proc.commits, hp] at hle
  cases hc : s.log.committing with
  | true => rfl
  | false =>
    rw [hc] at hle
    cases hle

theorem wakeup (h : Ordered s) : Ordered s.wakeup where
  outstanding := h.outstanding.trans (total_congr fun p => by simp [State.wakeup, Proc.active])
  commits := h.commits.trans (total_congr fun p => by simp [State.wakeup, Proc.commits])
  quiet := h.quiet
  empty := h.empty
  committed p hp := h.committed p (Proc.wakeup_eq_committed hp)
  nodup := h.nodup

variable [DecidableEq P]

theorem move (h : Ordered s) {c : Proc} (log : Log)
    (hout : log.outstanding + (s.proc p).active = s.log.outstanding + c.active)
    (hcom : log.committing.toNat + (s.proc p).commits = s.log.committing.toNat + c.commits)
    (hquiet : log.committing → log.outstanding = 0) (hempty : log.committing = false → log.outstanding = 0 → log.lh = [])
    (hdone : ∀ q, update s.proc p c q = .committed → log.lh = []) (hnodup : log.lh.Nodup) :
    Ordered ((s.setLog log).setProc p c) where
  outstanding := by
    have hu := total_update Proc.active s.proc p c
    have ho := h.outstanding
    change log.outstanding = total Proc.active (update s.proc p c)
    omega
  commits := by
    have hu := total_update Proc.commits s.proc p c
    have ho := h.commits
    change log.committing.toNat = total Proc.commits (update s.proc p c)
    omega
  quiet := hquiet
  empty := hempty
  committed := hdone
  nodup := hnodup

theorem committed_update (h : Ordered s) {c : Proc} (hc : c ≠ .committed) (q : P)
    (hq : update s.proc p c q = .committed) : s.log.lh = [] := by
  by_cases e : q = p
  · subst e
    exact absurd (by simpa using hq) hc
  · rw [update_of_ne e] at hq
    exact h.committed q hq

theorem idle (h : Ordered s) {c : Proc} (hp : (s.proc p).active = 0) (hp' : (s.proc p).commits = 0) (hc : c.active = 0)
    (hc' : c.commits = 0) (hne : c ≠ .committed) : Ordered (s.setProc p c) :=
  h.move s.log (by rw [hp, hc]) (by rw [hp', hc']) h.quiet h.empty (h.committed_update hne) h.nodup

theorem step (h : Ordered s) {l : Label P} {t : State P} (hs : Steps s l t) : Ordered t := by
  cases hs with
  | @wait p hp hl => rcases hp with hp | hp <;> exact h.idle (by rw [hp]; rfl) (by rw [hp]; rfl) rfl rfl (by simp)
  | @enter p hp hc hroom =>
    have hidle : (s.proc p).active = 0 ∧ (s.proc p).commits = 0 := by rcases hp with hp | hp <;> rw [hp] <;> exact ⟨rfl, rfl⟩
    refine h.move _ ?_ ?_ ?_ ?_ (h.committed_update (by simp)) h.nodup
    · rw [hidle.1]
      rfl
    · rw [hidle.2]
      rfl
    · intro hc'
      rw [hc] at hc'
      cases hc'
    · intro _ h0
      cases h0
  | @logCheck p bs b hp =>
    refine h.move s.log ?_ ?_ h.quiet h.empty (h.committed_update (by simp)) h.nodup
    · rw [hp]
      rfl
    · rw [hp]
      rfl
  | @logWrite p bs b hp =>
    have hin : (s.proc p).inOp := by rw [hp]; rfl
    have hpos := h.outstanding_pos hin
    have hnc := h.not_committing hin
    refine h.move _ ?_ ?_ h.quiet ?_ ?_ ?_
    · rw [hp]
      rfl
    · rw [hp]
      rfl
    · intro _ h0
      exact absurd h0 hpos.ne'
    · intro q hq
      by_cases e : q = p
      · subst e
        simp at hq
      · rw [update_of_ne e] at hq
        have := h.committing (p := q) (by rw [hq]; rfl)
        rw [hnc] at this
        cases this
    · unfold Log.logWrite
      dsimp only
      split_ifs with hb
      · exact h.nodup
      · exact List.nodup_append.mpr ⟨h.nodup, List.nodup_singleton b, by simpa using fun a ha (e : a = b) => hb (e ▸ ha)⟩
  | @last p bs hp h0 =>
    have hin : (s.proc p).inOp := by rw [hp]; rfl
    have hpos := h.outstanding_pos hin
    refine h.move _ ?_ ?_ (fun _ => h0) ?_ (h.committed_update (by simp)) h.nodup
    · rw [hp]
      simp only [Proc.active, Proc.inOp, Bool.toNat_true, Bool.toNat_false]
      omega
    · rw [hp, h.not_committing hin]
      rfl
    · intro hc
      cases hc
  | @leave p bs hp h0 =>
    have hin : (s.proc p).inOp := by rw [hp]; rfl
    have hpos := h.outstanding_pos hin
    refine (h.move (c := .out) { s.log with outstanding := s.log.outstanding - 1, committing := false } ?_ ?_ ?_ ?_
      (h.committed_update (by simp)) h.nodup).wakeup
    · rw [hp]
      simp only [Proc.active, Proc.inOp, Bool.toNat_true, Bool.toNat_false]
      omega
    · rw [hp, h.not_committing hin]
      rfl
    · intro hc
      cases hc
    · intro _ he
      exact absurd he h0
  | @commit p hp =>
    refine h.move _ ?_ ?_ h.quiet (fun _ _ => rfl) (fun _ _ => rfl) List.nodup_nil
    · rw [hp]
      rfl
    · rw [hp]
      rfl
  | @endCommit p hp =>
    refine (h.move (c := .out) { s.log with committing := false } ?_ ?_ ?_ (fun _ _ => h.committed p hp)
      (h.committed_update (by simp)) h.nodup).wakeup
    · rw [hp]
      rfl
    · rw [hp, h.committing (p := p) (by rw [hp]; rfl)]
      rfl
    · intro hc
      cases hc
  | @kill p hp => exact h.idle (by rw [hp]; rfl) (by rw [hp]; rfl) rfl rfl (by simp)

end Ordered

structure Sane (s : State P) : Prop where
  ordered : Ordered s
  waits : Waits s
  panic : ∀ e, s.panic = some e → e = "too big a transaction"

theorem Sane.busy {s : State P} (h : Sane s) (hw : s.log.committing ∨ Full s.log) :
    ∃ q, (s.proc q).inOp ∨ (s.proc q).inCommit := by
  by_contra hnone
  push Not at hnone
  have h0 : s.log.outstanding = 0 := by
    rw [h.ordered.outstanding]
    exact total_eq_zero_iff.mpr (fun q => by simp [Proc.active, (hnone q).1])
  have hc : s.log.committing.toNat = 0 := by
    rw [h.ordered.commits]
    exact total_eq_zero_iff.mpr (fun q => by simp [Proc.commits, (hnone q).2])
  have hc' : s.log.committing = false := by simpa using hc
  rcases hw with hw | hw
  · rw [hc'] at hw
    cases hw
  · rw [Full, h0, h.ordered.empty hc' h0] at hw
    exact absurd hw (by decide)

variable [DecidableEq P]

theorem Sane.step {s t : State P} {l : Label P} (h : Sane s) (hs : s.step l = some t) : Sane t := by
  obtain ⟨hn, hst | ⟨e, he, rfl⟩⟩ := step_cases hs
  · refine ⟨h.ordered.step hst, h.waits.step (fun p => h.ordered.committing) hst, ?_⟩
    have hpan : t.panic = s.panic := by cases hst <;> rfl
    rw [hpan]
    exact h.panic
  · refine ⟨⟨h.ordered.outstanding, h.ordered.commits, h.ordered.quiet, h.ordered.empty, h.ordered.committed,
      h.ordered.nodup⟩, h.waits, ?_⟩
    rintro _ ⟨⟩
    cases he with
    | @logCheck p bs b _ hp hl =>
      have hpos := h.ordered.outstanding_pos (p := p) (by rw [hp]; rfl)
      unfold Log.logCheck at hl
      split_ifs at hl with h1 h2
      · cases hl
        rfl
      · omega
    | @endOp p bs hp hc =>
      rw [h.ordered.not_committing (p := p) (by rw [hp]; rfl)] at hc
      cases hc

theorem reachable_sane {s : State P} (h : (machine P).Reachable s) : Sane s := by
  refine h.invariant ?_ (fun s l t hp hn => hp.step hn)
  rintro s ⟨start, size, rfl⟩
  have ha : total Proc.active (fun _ : P => .out) = 0 := total_eq_zero_iff.2 fun _ => rfl
  have hc : total Proc.commits (fun _ : P => .out) = 0 := total_eq_zero_iff.2 fun _ => rfl
  exact ⟨⟨ha.symm, hc.symm, fun _ => rfl, fun _ _ => rfl, fun _ _ => rfl, List.nodup_nil⟩, (fun _ hp => by cases hp),
    (fun _ he => by cases he)⟩

theorem Sane.wakes {s : State P} (h : Sane s) (hn : s.panic = none) {p q : P} (hp : s.proc p = .sleep)
    (hq : (s.proc q).inOp ∨ (s.proc q).inCommit) : Wakes s q p := by
  rcases hq with hq | hq
  · have hc := h.ordered.not_committing hq
    cases e : s.proc q with
    | op bs => exact .of_op hn hc hp e
    | write bs b => exact .of_write hn hc hp e
    | _ => rw [e] at hq; cases hq
  · cases e : s.proc q with
    | commit => exact .of_commit hn hp e
    | committed => exact .of_committed hn hp e
    | _ => rw [e] at hq; cases hq

theorem log_never_wedges (s : State P) (h : (machine P).Reachable s) :
    (s.log.committing → s.log.outstanding = 0 ∧ ∀ p, (s.proc p).inOp = false) ∧
    s.panic ≠ some "log.committing" ∧
    (s.log.outstanding = 0 → s.log.committing = false → s.log.lh = []) ∧
    s.log.lh.Nodup ∧
    ∀ p, s.proc p = .sleep → (s.log.committing ∨ s.log.lh.length + (s.log.outstanding + 1) * MAXOPBLOCKS > LOGSIZE) ∧
      (∃ q, (s.proc q).inOp ∨ (s.proc q).inCommit) ∧
      (s.panic = none → ∀ q, (s.proc q).inOp ∨ (s.proc q).inCommit →
        ∃ w t, (∀ l ∈ w, l.proc = q) ∧ (machine P).run s w = some t ∧ t.proc p = .woken) := by
  have hs := reachable_sane h
  refine ⟨fun hc => ⟨hs.ordered.quiet hc, fun p => ?_⟩, fun hp => ?_, fun h0 hc => hs.ordered.empty hc h0,
    hs.ordered.nodup, fun p hp => ⟨hs.waits p hp, hs.busy (hs.waits p hp), fun hn q hq => hs.wakes hn hp hq⟩⟩
  · by_contra hin
    rw [hs.ordered.not_committing (by simpa using hin)] at hc
    cases hc
  · exact absurd (hs.panic _ hp) (by decide)

theorem log_never_wedges_commit : ∃ s : State (Fin 2), (machine (Fin 2)).Reachable s ∧ s.log.lh = [40] ∧
    s.proc 1 = .sleep ∧ ∃ w t, (∀ l ∈ w, l.proc = 0) ∧ (machine (Fin 2)).run s w = some t ∧ t.proc 1 = .woken := by
  obtain ⟨s, hs, hP⟩ := exists_reachable (M := machine (Fin 2)) (s := { log := .mkfs })
    (w := [.beginOp 0, .logCheck 0 40, .logWrite 0, .endOp 0, .beginOp 1])
    (P := fun s => decide (s.log.lh = [40] ∧ s.proc 1 = .sleep ∧ s.proc 0 = .commit ∧ s.panic = none)) ⟨2, LOGSIZE, rfl⟩
    (by decide +kernel)
  obtain ⟨hlh, h1, h0, hn⟩ := of_decide_eq_true hP
  exact ⟨s, hs, hlh, h1, ((log_never_wedges s hs).2.2.2.2 1 h1).2.2 hn 0 (.inr (by rw [h0]; rfl))⟩

end EnhancedXv6.LogProtocol
