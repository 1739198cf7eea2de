import EnhancedXv6.Fifo
import EnhancedXv6.PipeWakeups

namespace EnhancedXv6.Pipes

open Transition Machine

namespace Pipe

variable {p : Pipe}

local instance neZero_PIPESIZE : NeZero 512 := Nat.instNeZeroSucc

def buffered (p : Pipe) : List UInt8 := Ring.view p.data p.nread.toNat p.used

def stored : Pipe → List UInt8 → List UInt8
  | _, [] => []
  | p, b :: bs => if p.nwrite = p.nread + PIPESIZE then [] else b :: stored (p.put b) bs

theorem buffered_eq_nil (h : p.nread = p.nwrite) : p.buffered = [] := by
  rw [buffered, (empty_iff p).mp h, Ring.view_zero]

theorem nwrite_modEq (p : Pipe) : p.nwrite.toNat ≡ p.nread.toNat + p.used [MOD 512] := by
  have h1 := p.nread.toNat_lt
  have h2 := p.nwrite.toNat_lt
  rw [used, UInt32.toNat_sub, Nat.ModEq]
  omega

theorem buffered_put (b : UInt8) (h : p.used < 512) : (p.put b).buffered = p.buffered ++ [b] := by
  have hcell : Fin.ofNat 512 p.nwrite.toNat = Fin.ofNat 512 (p.nread.toNat + p.used) :=
    Ring.ofNat_eq_iff.mpr p.nwrite_modEq
  have hview := Ring.view_push p.data p.nread.toNat h b
  rw [← hcell, ← used_put b h] at hview
  exact hview

theorem buffered_take (h : 0 < p.used) :
    p.buffered = p.data (Fin.ofNat 512 p.nread.toNat) :: p.take.buffered := by
  have hnext : p.nread.toNat + 1 ≡ p.take.nread.toNat [MOD 512] := by
    have h1 := p.nread.toNat_lt
    rw [take, UInt32.toNat_add, UInt32.toNat_one, Nat.ModEq]
    omega
  rw [buffered, ← used_take h, Ring.view_cons, Ring.view_congr p.data hnext]
  rfl

theorem stored_append (bs : List UInt8) (p : Pipe) : p.stored bs ++ (p.copyIn bs).2 = bs := by
  induction bs generalizing p with
  | nil => rfl
  | cons b bs ih =>
    unfold stored copyIn
    split_ifs
    · rfl
    · rw [List.cons_append, ih]

theorem buffered_copyIn (bs : List UInt8) (h : p.used ≤ 512) :
    (p.copyIn bs).1.buffered = p.buffered ++ p.stored bs := by
  induction bs generalizing p with
  | nil => simp [copyIn, stored]
  | cons b bs ih =>
    unfold stored copyIn
    split_ifs with hf
    · simp
    · rw [full_iff] at hf
      have hlt : p.used < 512 := by omega
      have hput := used_put b hlt
      rw [ih (by omega), buffered_put b hlt, List.append_assoc, List.singleton_append]

theorem buffered_copyOut (n : ℕ) (p : Pipe) : p.buffered = (p.copyOut n).2 ++ (p.copyOut n).1.buffered := by
  induction n generalizing p with
  | zero => rfl
  | succ n ih =>
    unfold copyOut
    split_ifs with he
    · rfl
    · rw [empty_iff] at he
      rw [buffered_take (by omega), ih p.take]
      rfl

theorem copyOut_eq_nil {n : ℕ} (hn : 0 < n) (h : (p.copyOut n).2 = []) : p.nread = p.nwrite := by
  obtain ⟨m, rfl⟩ := Nat.exists_eq_succ_of_ne_zero hn.ne'
  unfold copyOut at h
  split_ifs at h with he
  exact he

end Pipe

structure Tape (P : Type*) where
  sent : List UInt8 := []
  received : List UInt8 := []
  addr : P → List UInt8 := fun _ => []
  copied : P → List UInt8 := fun _ => []

namespace State

variable {P : Type*}

def copiesIn (s : State P) (p : P) : List UInt8 :=
  match s.call p with
  | .write _ rest => s.pipe.stored rest
  | _ => []

def copiesOut (s : State P) (p : P) : List UInt8 :=
  match s.call p with
  | .read n => if s.pipe.nread = s.pipe.nwrite ∧ s.pipe.writeopen then [] else (s.pipe.copyOut n).2
  | _ => []

end State

namespace Tape

variable {P : Type*} {g : Tape P} {p : P} {c : Call}

def Pending (g : Tape P) (p : P) : Call → Prop
  | .write n rest => n = (g.addr p).length ∧ g.copied p ++ rest = g.addr p
  | .sleepWrite n rest => n = (g.addr p).length ∧ g.copied p ++ rest = g.addr p
  | _ => True

theorem Pending.wakeRead (h : g.Pending p c) : g.Pending p c.wakeRead := by
  cases c <;> exact h

theorem Pending.wakeWrite (h : g.Pending p c) : g.Pending p c.wakeWrite := by
  cases c <;> exact h

theorem Pending.congr {h : Tape P} (hp : g.Pending p c) (ha : h.addr p = g.addr p)
    (hc : h.copied p = g.copied p) : h.Pending p c := by
  cases c with
  | write n rest => rwa [Pending, ha, hc]
  | sleepWrite n rest => rwa [Pending, ha, hc]
  | _ => trivial

end Tape

variable {P : Type*} [DecidableEq P]

def Tape.record (g : Tape P) (s : State P) : Label P → State P → Tape P
  | .callWrite p addr, _ =>
    { g with addr := Function.update g.addr p addr, copied := Function.update g.copied p [] }
  | .run p _, _ =>
    { g with
      sent := g.sent ++ s.copiesIn p
      received := g.received ++ s.copiesOut p
      copied := Function.update g.copied p (g.copied p ++ s.copiesIn p) }
  | _, _ => g

def tapeMachine (P : Type*) [DecidableEq P] : Machine (State P × Tape P) (Label P) where
  initial s := (∃ d, s.1 = { pipe := { data := d } }) ∧ s.2 = {}
  next := ((machine P).history {} Tape.record).next

structure Lossless (s : State P) (g : Tape P) : Prop where
  bounded : s.Bounded
  fifo : g.received ++ s.pipe.buffered = g.sent
  pending : ∀ p, g.Pending p (s.call p)

namespace Lossless

variable {s : State P} {g : Tape P} {p : P}

theorem setCall {s t : State P} {g h : Tape P} {c : Call} (hl : Lossless s g) (hb : t.Bounded)
    (hf : h.received ++ t.pipe.buffered = h.sent) (ha : h.addr = g.addr)
    (hc : ∀ q, q ≠ p → h.copied q = g.copied q) (ht : ∀ q, q ≠ p → g.Pending q (s.call q) → g.Pending q (t.call q))
    (hp : h.Pending p c) : Lossless (t.setCall p c) h := by
  refine ⟨hb, hf, fun q => ?_⟩
  by_cases e : q = p
  · subst e
    rwa [State.setCall_self]
  · rw [State.setCall_of_ne c e]
    exact (ht q e (hl.pending q)).congr (by rw [ha]) (hc q e)

theorem piperead (hl : Lossless s g) {n : ℕ} (hp : s.call p = .read n) (late : Bool)
    (t : State P) : Lossless (s.piperead p n) (g.record s (.run p late) t) := by
  have hin : s.copiesIn p = [] := by simp [State.copiesIn, hp]
  have hout : s.copiesOut p =
      if s.pipe.nread = s.pipe.nwrite ∧ s.pipe.writeopen then [] else (s.pipe.copyOut n).2 := by
    simp [State.copiesOut, hp]
  have hcopied : ∀ q, q ≠ p → (g.record s (.run p late) t).copied q = g.copied q :=
    fun q e => Function.update_of_ne e _ _
  unfold State.piperead
  split_ifs at hout ⊢ with he hk
  · refine hl.setCall hl.bounded ?_ rfl hcopied (fun q _ => id) trivial
    simp [Tape.record, hin, hout, hl.fifo]
  · refine hl.setCall hl.bounded ?_ rfl hcopied (fun q _ => id) trivial
    simp [Tape.record, hin, hout, hl.fifo]
  · refine hl.setCall (Nat.le_trans (Pipe.copyOut_spec n s.pipe).1 hl.bounded) ?_ rfl hcopied
      (fun q _ hq => hq.wakeWrite) trivial
    change g.received ++ s.copiesOut p ++ (s.pipe.copyOut n).1.buffered = g.sent ++ s.copiesIn p
    rw [hin, hout, List.append_assoc, ← Pipe.buffered_copyOut, List.append_nil, hl.fifo]

theorem pipewrite (hl : Lossless s g) {n : ℕ} {rest : List UInt8} (hp : s.call p = .write n rest) (late : Bool)
    (t : State P) : Lossless (s.pipewrite p n rest) (g.record s (.run p late) t) := by
  have hin : s.copiesIn p = s.pipe.stored rest := by simp [State.copiesIn, hp]
  have hout : s.copiesOut p = [] := by simp [State.copiesOut, hp]
  have hb : (s.pipe.copyIn rest).1.used ≤ 512 := by
    have := (Pipe.copyIn_spec rest hl.bounded).1
    omega
  have hfifo : g.received ++ s.copiesOut p ++ (s.pipe.copyIn rest).1.buffered = g.sent ++ s.copiesIn p := by
    rw [hin, hout, List.append_nil, Pipe.buffered_copyIn rest hl.bounded, ← List.append_assoc, hl.fifo]
  have hcopied : ∀ q, q ≠ p → (g.record s (.run p late) t).copied q = g.copied q :=
    fun q e => Function.update_of_ne e _ _
  have hpend := hl.pending p
  rw [hp] at hpend
  have happ := Pipe.stored_append rest s.pipe
  unfold State.pipewrite
  dsimp only
  split
  · exact hl.setCall hb hfifo rfl hcopied (fun q _ hq => hq.wakeRead) trivial
  · split_ifs
    · exact hl.setCall hb hfifo rfl hcopied (fun q _ => id) trivial
    · refine hl.setCall hb hfifo rfl hcopied (fun q _ hq => hq.wakeRead) ⟨hpend.1, ?_⟩
      change Function.update g.copied p (g.copied p ++ s.copiesIn p) p ++ _ = g.addr p
      rw [Function.update_self, hin, List.append_assoc, happ]
      exact hpend.2

omit [DecidableEq P] in
theorem close (hl : Lossless s g) (writable : Bool) : Lossless (s.pipeclose writable) g := by
  refine ⟨State.pipeclose_bounded hl.bounded writable, ?_, fun p => ?_⟩
  · rw [← hl.fifo]
    unfold State.pipeclose
    cases writable <;> (dsimp only; split_ifs <;> rfl)
  · have hp := hl.pending p
    unfold State.pipeclose
    dsimp only
    split_ifs
    · exact hp.wakeRead
    · exact hp.wakeRead
    · exact hp.wakeWrite
    · exact hp.wakeWrite

theorem step {s' : State P} {l : Label P} (hl : Lossless s g) (hs : s.step l = some s') :
    Lossless s' (g.record s l s') := by
  cases l with
  | callRead p n =>
    obtain ⟨-, rfl⟩ := by simpa [State.step] using hs
    exact hl.setCall hl.bounded hl.fifo rfl (fun _ _ => rfl) (fun _ _ => id) trivial
  | callWrite p addr =>
    obtain ⟨-, rfl⟩ := by simpa [State.step] using hs
    refine ⟨hl.bounded, hl.fifo, fun q => ?_⟩
    by_cases e : q = p
    · subst e
      simp [Tape.record, Tape.Pending]
    · rw [State.setCall_of_ne _ e]
      exact (hl.pending q).congr (Function.update_of_ne e _ _) (Function.update_of_ne e _ _)
  | run p late =>
    obtain ⟨-, t, ht, rfl⟩ := by simpa [State.step, State.critical] using hs
    split at ht
    case h_1 n hp =>
      cases ht
      have hr := hl.piperead hp late s
      exact ⟨hr.bounded, hr.fifo, hr.pending⟩
    case h_2 n rest hp =>
      cases ht
      have hr := hl.pipewrite hp late s
      exact ⟨hr.bounded, hr.fifo, hr.pending⟩
    case h_3 => cases ht
  | close writable =>
    obtain ⟨-, rfl⟩ := by simpa [State.step] using hs
    exact hl.close writable
  | kill p =>
    obtain rfl := by simpa [State.step] using hs
    refine ⟨hl.bounded, hl.fifo, fun q => ?_⟩
    change g.Pending q (Function.update s.call p (s.call p).wakeRead.wakeWrite q)
    by_cases e : q = p
    · subst e
      rw [Function.update_self]
      exact (hl.pending q).wakeRead.wakeWrite
    · rw [Function.update_of_ne e]
      exact hl.pending q

end Lossless

theorem tapeMachine_next {s t : State P × Tape P} {l : Label P} (h : (tapeMachine P).next s l = some t) :
    s.1.step l = some t.1 ∧ t.2 = s.2.record s.1 l t.1 :=
  history_next (M := machine P) (g := {}) h

theorem reachable_lossless {s : State P × Tape P} (h : (tapeMachine P).Reachable s) : Lossless s.1 s.2 := by
  refine ReachableWhere.invariant h (P := fun s => Lossless s.1 s.2) ?_ ?_
  · rintro ⟨s, g⟩ ⟨⟨d, hs⟩, hg⟩
    obtain rfl : s = { pipe := { data := d } } := hs
    obtain rfl : g = {} := hg
    exact ⟨by simp [State.Bounded, Pipe.used], Pipe.buffered_eq_nil rfl, fun _ => trivial⟩
  · intro s l t _ hl _ hn
    obtain ⟨hs, hg⟩ := tapeMachine_next hn
    rw [hg]
    exact hl.step hs

theorem Lossless.copied_of_return {s s' : State P} {g : Tape P} {p : P} {late : Bool} {n : ℕ} {rest data : List UInt8}
    (hl : Lossless s g) (hs : s.step (.run p late) = some s') (hp : s.call p = .write n rest)
    (hr : s'.call p = .out n data) : (g.record s (.run p late) s').copied p = g.addr p ∧ (g.addr p).length = n := by
  have hpend := hl.pending p
  rw [hp] at hpend
  refine ⟨?_, hpend.1.symm⟩
  have hin : s.copiesIn p = s.pipe.stored rest := by simp [State.copiesIn, hp]
  have hdone : (s.pipe.copyIn rest).2 = [] := by
    obtain ⟨-, t, ht, rfl⟩ := by simpa [State.step, State.critical] using hs
    rw [hp] at ht
    obtain rfl : s.pipewrite p n rest = t := Option.some.inj ht
    unfold State.pipewrite at hr
    dsimp only at hr
    split at hr
    · assumption
    · split_ifs at hr
      · rw [State.setCall_self, Call.out.injEq] at hr
        omega
      · rw [State.setCall_self] at hr
        cases hr
  have happ := Pipe.stored_append rest s.pipe
  rw [hdone, List.append_nil] at happ
  change Function.update g.copied p (g.copied p ++ s.copiesIn p) p = _
  rw [Function.update_self, hin, happ]
  exact hpend.2

theorem empty_of_return_zero {s s' : State P} {p : P} {late : Bool} {n : ℕ} {data : List UInt8}
    (hs : s.step (.run p late) = some s') (hp : s.call p = .read n) (hn : 0 < n) (hr : s'.call p = .out 0 data) :
    s.pipe.nread = s.pipe.nwrite ∧ s.pipe.writeopen = false := by
  obtain ⟨-, t, ht, rfl⟩ := by simpa [State.step, State.critical] using hs
  rw [hp] at ht
  obtain rfl : s.piperead p n = t := Option.some.inj ht
  unfold State.piperead at hr
  split_ifs at hr with he hk
  · rw [State.setCall_self, Call.out.injEq] at hr
    omega
  · rw [State.setCall_self] at hr
    cases hr
  · rw [State.setCall_self, Call.out.injEq, Int.natCast_eq_zero, List.length_eq_zero_iff] at hr
    have hempty := Pipe.copyOut_eq_nil hn hr.1
    exact ⟨hempty, by simpa [hempty] using he⟩

theorem pipe_lossless_fifo (s : State P × Tape P) (h : (tapeMachine P).Reachable s) :
    s.2.received ++ s.1.pipe.buffered = s.2.sent ∧ s.1.pipe.used ≤ 512 ∧
    ∀ p late t, (tapeMachine P).next s (.run p late) = some t →
      (∀ n rest data, s.1.call p = .write n rest → t.1.call p = .out n data →
        t.2.copied p = t.2.addr p ∧ (t.2.addr p).length = n) ∧
      (∀ n data, s.1.call p = .read n → 0 < n → t.1.call p = .out 0 data →
        s.1.pipe.nread = s.1.pipe.nwrite ∧ s.1.pipe.writeopen = false) := by
  have hl := reachable_lossless h
  refine ⟨hl.fifo, hl.bounded, fun p late t hn => ?_⟩
  obtain ⟨hs, hg⟩ := tapeMachine_next hn
  refine ⟨fun n rest data hp hr => ?_, fun n data hp hpos hr => empty_of_return_zero hs hp hpos hr⟩
  rw [hg]
  exact hl.copied_of_return hs hp hr

theorem pipe_lossless_fifo_interleaved : ∃ s : State (Fin 3) × Tape (Fin 3),
    s.1.call 0 = .sleepWrite 513 [7] ∧ s.1.call 1 = .out 2 [] ∧ s.2.received = [7, 7] ∧
      s.2.received ++ s.1.pipe.buffered = s.2.sent ∧ s.2.sent = List.replicate 512 7 ++ [8, 9] := by
  obtain ⟨s, hs, hp⟩ := exists_reachable (M := tapeMachine (Fin 3)) (s := ({}, {}))
    (w := [.callWrite 0 (List.replicate 513 7), .run 0 false, .callRead 2 2, .run 2 false, .callWrite 1 [8, 9],
      .run 1 false, .run 0 false])
    (P := fun s => decide (s.1.call 0 = .sleepWrite 513 [7] ∧ s.1.call 1 = .out 2 [] ∧ s.2.received = [7, 7] ∧
      s.2.sent = List.replicate 512 7 ++ [8, 9])) ⟨⟨_, rfl⟩, rfl⟩ (by decide +kernel)
  obtain ⟨h0, h1, hr, hsent⟩ := of_decide_eq_true hp
  exact ⟨s, h0, h1, hr, (pipe_lossless_fifo s hs).1, hsent⟩

end EnhancedXv6.Pipes
