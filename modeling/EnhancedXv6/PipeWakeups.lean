import EnhancedXv6.Pipes
import Mathlib.Data.Fintype.Basic

namespace EnhancedXv6.Pipes

open Transition Machine

namespace Pipe

def used (p : Pipe) : ℕ := (p.nwrite - p.nread).toNat

theorem empty_iff (p : Pipe) : p.nread = p.nwrite ↔ p.used = 0 := by
  have h1 := p.nread.toNat_lt
  have h2 := p.nwrite.toNat_lt
  rw [← UInt32.toNat_inj, used, UInt32.toNat_sub]
  omega

theorem full_iff (p : Pipe) : p.nwrite = p.nread + PIPESIZE ↔ p.used = 512 := by
  have h1 := p.nread.toNat_lt
  have h2 := p.nwrite.toNat_lt
  rw [← UInt32.toNat_inj, used, UInt32.toNat_sub, UInt32.toNat_add]
  change _ = (_ + 512) % _ ↔ _
  omega

theorem used_put {p : Pipe} (b : UInt8) (h : p.used < 512) : (p.put b).used = p.used + 1 := by
  have h1 := p.nread.toNat_lt
  have h2 := p.nwrite.toNat_lt
  simp only [used, put, UInt32.toNat_sub, UInt32.toNat_add, UInt32.toNat_one] at h ⊢
  omega

theorem used_take {p : Pipe} (h : 0 < p.used) : p.take.used + 1 = p.used := by
  have h1 := p.nread.toNat_lt
  have h2 := p.nwrite.toNat_lt
  simp only [used, take, UInt32.toNat_sub, UInt32.toNat_add, UInt32.toNat_one] at h ⊢
  omega

theorem copyIn_spec (bs : List UInt8) {p : Pipe} (h : p.used ≤ 512) :
    (p.copyIn bs).1.used = min (p.used + bs.length) 512 ∧
      (p.copyIn bs).2.length = p.used + bs.length - 512 ∧
      (p.copyIn bs).1.readopen = p.readopen ∧ (p.copyIn bs).1.writeopen = p.writeopen := by
  induction bs generalizing p with
  | nil => simp [copyIn, h]
  | cons b bs ih =>
    unfold copyIn
    split_ifs with hf
    · rw [full_iff] at hf
      simp [hf]
    · rw [full_iff] at hf
      have hlt : p.used < 512 := by omega
      obtain ⟨h1, h2, h3, h4⟩ := ih (p := p.put b) (by rw [used_put b hlt]; omega)
      rw [used_put b hlt] at h1 h2
      refine ⟨?_, ?_, h3, h4⟩
      · rw [h1, List.length_cons]; omega
      · rw [h2, List.length_cons]; omega

theorem copyOut_spec (n : ℕ) (p : Pipe) :
    (p.copyOut n).1.used ≤ p.used ∧ (p.copyOut n).1.readopen = p.readopen ∧
      (p.copyOut n).1.writeopen = p.writeopen := by
  induction n generalizing p with
  | zero => simp [copyOut]
  | succ n ih =>
    unfold copyOut
    split_ifs with he
    · simp
    · rw [empty_iff] at he
      obtain ⟨h1, h2, h3⟩ := ih p.take
      have := used_take (p := p) (by omega)
      exact ⟨by dsimp only; omega, h2, h3⟩

end Pipe

def Call.isSleepRead : Call → Bool
  | .sleepRead _ => true
  | _ => false

namespace State

variable {P : Type*} {c : Call} {n : ℕ} {s : State P} {p : P}

def NoLostWakeup (s : State P) : Prop :=
  (∀ p n, s.call p = .sleepRead n → s.pipe.nread = s.pipe.nwrite ∧ s.pipe.writeopen) ∧
  (∀ p n rest, s.call p = .sleepWrite n rest → s.pipe.nwrite = s.pipe.nread + PIPESIZE ∧ s.pipe.readopen)

def Fits (s : State P) : Label P → Prop
  | .run p _ => match s.call p with
    | .write _ rest => 512 < rest.length → s.pipe.readopen = false ∨ s.killed p → ∀ q, ¬ (s.call q).isSleepRead
    | _ => True
  | _ => True

theorem isSleepRead_iff (c : Call) : c.isSleepRead ↔ ∃ n, c = .sleepRead n := by
  cases c <;> simp [Call.isSleepRead]

theorem wakeRead_ne (c : Call) (n : ℕ) : c.wakeRead ≠ .sleepRead n := by cases c <;> simp [Call.wakeRead]

theorem wakeWrite_ne (c : Call) (n : ℕ) (rest : List UInt8) : c.wakeWrite ≠ .sleepWrite n rest := by
  cases c <;> simp [Call.wakeWrite]

theorem wakeRead_eq {rest : List UInt8} (h : c.wakeRead = .sleepWrite n rest) :
    c = .sleepWrite n rest := by
  cases c <;> simp_all [Call.wakeRead]

theorem wakeWrite_eq (h : c.wakeWrite = .sleepRead n) : c = .sleepRead n := by
  cases c <;> simp_all [Call.wakeWrite]

theorem noLostWakeup_wakeupRead
    (h : ∀ p n rest, s.call p = .sleepWrite n rest → s.pipe.nwrite = s.pipe.nread + PIPESIZE ∧ s.pipe.readopen) :
    s.wakeupRead.NoLostWakeup :=
  ⟨fun p n hp => absurd hp (wakeRead_ne (s.call p) n), fun p n rest hp => h p n rest (wakeRead_eq hp)⟩

theorem noLostWakeup_wakeupWrite
    (h : ∀ p n, s.call p = .sleepRead n → s.pipe.nread = s.pipe.nwrite ∧ s.pipe.writeopen) :
    s.wakeupWrite.NoLostWakeup :=
  ⟨fun p n hp => h p n (wakeWrite_eq hp), fun p n rest hp => absurd hp (wakeWrite_ne (s.call p) n rest)⟩

def Bounded (s : State P) : Prop := s.pipe.used ≤ 512

theorem copyIn_of_sleepWrite (hb : s.Bounded) (h : s.NoLostWakeup) (bs : List UInt8) {q : P}
    {rest : List UInt8} (hq : s.call q = .sleepWrite n rest) :
    (s.pipe.copyIn bs).1.nwrite = (s.pipe.copyIn bs).1.nread + PIPESIZE ∧ (s.pipe.copyIn bs).1.readopen := by
  obtain ⟨hfull, hopen⟩ := h.2 q n rest hq
  rw [Pipe.full_iff] at hfull
  obtain ⟨hu, -, hr, -⟩ := Pipe.copyIn_spec bs hb
  rw [Pipe.full_iff, hu, hr]
  exact ⟨by omega, hopen⟩

theorem pipeclose_noLostWakeup (h : s.NoLostWakeup) (writable : Bool) :
    (s.pipeclose writable).NoLostWakeup := by
  have hc : ∀ t : State P, t.NoLostWakeup →
      (if t.pipe.readopen = false ∧ t.pipe.writeopen = false then { t with freed := true } else t).NoLostWakeup := by
    intro t ht
    split_ifs <;> exact ht
  unfold pipeclose
  refine hc _ ?_
  split_ifs
  · exact noLostWakeup_wakeupRead h.2
  · exact noLostWakeup_wakeupWrite h.1

theorem pipeclose_bounded (h : s.Bounded) (writable : Bool) : (s.pipeclose writable).Bounded := by
  unfold pipeclose
  cases writable <;> (dsimp only; split_ifs <;> exact h)

variable [DecidableEq P]

theorem setCall_of_ne {q : P} (c : Call) (h : q ≠ p) : (s.setCall p c).call q = s.call q := by
  simp [setCall, h]

@[simp] theorem setCall_self (s : State P) (p : P) (c : Call) : (s.setCall p c).call p = c := by simp [setCall]

theorem noLostWakeup_setCall (h : s.NoLostWakeup)
    (hr : ∀ n, c ≠ .sleepRead n) (hw : ∀ n rest, c ≠ .sleepWrite n rest) : (s.setCall p c).NoLostWakeup := by
  refine ⟨fun q n hq => ?_, fun q n rest hq => ?_⟩
  · by_cases hqp : q = p
    · subst hqp
      exact absurd (by simpa using hq) (hr n)
    · exact h.1 q n (by rwa [setCall_of_ne c hqp] at hq)
  · by_cases hqp : q = p
    · subst hqp
      exact absurd (by simpa using hq) (hw n rest)
    · exact h.2 q n rest (by rwa [setCall_of_ne c hqp] at hq)

theorem piperead_bounded (h : s.Bounded) (p : P) (n : ℕ) : (s.piperead p n).Bounded := by
  unfold piperead
  split_ifs
  · exact h
  · exact h
  · exact Nat.le_trans (Pipe.copyOut_spec n s.pipe).1 h

theorem piperead_noLostWakeup (h : s.NoLostWakeup) (p : P) (n : ℕ) :
    (s.piperead p n).NoLostWakeup := by
  unfold piperead
  split_ifs with he hk
  · exact noLostWakeup_setCall h (by simp) (by simp)
  · refine ⟨fun q m hq => ?_, fun q m rest hq => ?_⟩
    · exact he
    · by_cases hqp : q = p
      · subst hqp
        simp at hq
      · exact h.2 q m rest (by rwa [setCall_of_ne _ hqp] at hq)
  · refine noLostWakeup_setCall (noLostWakeup_wakeupWrite fun q m hq => ?_) (by simp) (by simp)
    exact absurd (h.1 q m hq) he

theorem pipewrite_bounded (h : s.Bounded) (p : P) (n : ℕ) (bs : List UInt8) :
    (s.pipewrite p n bs).Bounded := by
  have hu : (s.pipe.copyIn bs).1.used ≤ 512 := by
    have := (Pipe.copyIn_spec bs h).1
    omega
  unfold pipewrite
  dsimp only
  split
  · exact hu
  · split_ifs <;> exact hu

theorem pipewrite_noLostWakeup_iff (hb : s.Bounded) (h : s.NoLostWakeup)
    {bs : List UInt8} (hp : s.call p = .write n bs) :
    (s.pipewrite p n bs).NoLostWakeup ↔
      (512 < bs.length → s.pipe.readopen = false ∨ s.killed p → ∀ q, ¬ (s.call q).isSleepRead) := by
  obtain ⟨hu, hlen, hr, -⟩ := Pipe.copyIn_spec bs hb
  have hw : ∀ q m rest, s.call q = .sleepWrite m rest → _ := fun q m rest hq => copyIn_of_sleepWrite hb h bs hq
  have hempty : ∀ q m, s.call q = .sleepRead m → s.pipe.used = 0 := fun q m hq =>
    (Pipe.empty_iff _).1 (h.1 q m hq).1
  unfold pipewrite
  dsimp only
  split
  case h_1 hdone =>
    rw [hdone, List.length_nil] at hlen
    refine iff_of_true (noLostWakeup_setCall (noLostWakeup_wakeupRead hw) (by simp) (by simp)) ?_
    intro hlong _ q hq
    obtain ⟨m, hm⟩ := (isSleepRead_iff _).1 hq
    have := hempty q m hm
    omega
  case h_2 hmore =>
    have hpos : 0 < (s.pipe.copyIn bs).2.length := List.length_pos_iff.2 hmore
    rw [hr]
    split_ifs with hfail
    · constructor
      · intro hl _ _ q hq
        obtain ⟨m, hm⟩ := (isSleepRead_iff _).1 hq
        have hqp : q ≠ p := by rintro rfl; simp [hp] at hm
        have hfull := (hl.1 q m (by rw [setCall_of_ne _ hqp]; exact hm)).1
        rw [Pipe.empty_iff] at hfull
        have : (s.pipe.copyIn bs).1.used = 0 := hfull
        omega
      · intro hfit
        have hno : ∀ q m, s.call q ≠ .sleepRead m := fun q m hq =>
          hfit (by have := hempty q m hq; omega) hfail q ((isSleepRead_iff _).2 ⟨m, hq⟩)
        exact noLostWakeup_setCall ⟨fun q m hq => absurd hq (hno q m), hw⟩ (by simp) (by simp)
    · refine iff_of_true ⟨fun q m hq => ?_, fun q m rest hq => ?_⟩ fun _ hf => absurd hf hfail
      · by_cases hqp : q = p
        · subst hqp
          simp at hq
        · rw [setCall_of_ne _ hqp] at hq
          exact absurd hq (wakeRead_ne _ m)
      · refine ⟨(Pipe.full_iff _).2 (by change (s.pipe.copyIn bs).1.used = 512; omega), ?_⟩
        change (s.pipe.copyIn bs).1.readopen = true
        simpa [hr] using fun hc => hfail (.inl hc)

theorem step_bounded {s' : State P} {l : Label P} (h : s.Bounded) (hs : s.step l = some s') : s'.Bounded := by
  cases l with
  | callRead p n =>
    obtain ⟨-, rfl⟩ := by simpa [step] using hs
    exact h
  | callWrite p addr =>
    obtain ⟨-, rfl⟩ := by simpa [step] using hs
    exact h
  | run p late =>
    obtain ⟨-, t, ht, rfl⟩ := by simpa [step, critical] using hs
    split at ht
    · cases ht
      exact piperead_bounded h p _
    · cases ht
      exact pipewrite_bounded h p _ _
    · cases ht
  | close writable =>
    obtain ⟨-, rfl⟩ := by simpa [step] using hs
    exact pipeclose_bounded h writable
  | kill p =>
    obtain rfl := by simpa [step] using hs
    exact h

theorem step_noLostWakeup_iff {s' : State P} {l : Label P} (hb : s.Bounded) (h : s.NoLostWakeup)
    (hs : s.step l = some s') : s'.NoLostWakeup ↔ s.Fits l := by
  cases l with
  | callRead p n =>
    obtain ⟨-, rfl⟩ := by simpa [step] using hs
    exact iff_of_true (noLostWakeup_setCall h (by simp) (by simp)) trivial
  | callWrite p addr =>
    obtain ⟨-, rfl⟩ := by simpa [step] using hs
    exact iff_of_true (noLostWakeup_setCall h (by simp) (by simp)) trivial
  | run p late =>
    obtain ⟨-, t, ht, rfl⟩ := by simpa [step, critical] using hs
    split at ht
    case h_1 n hp =>
      cases ht
      exact iff_of_true (piperead_noLostWakeup h p n) (by simp [Fits, hp])
    case h_2 n bs hp =>
      cases ht
      simp only [Fits, hp]
      exact pipewrite_noLostWakeup_iff hb h hp
    case h_3 => cases ht
  | close writable =>
    obtain ⟨-, rfl⟩ := by simpa [step] using hs
    exact iff_of_true (pipeclose_noLostWakeup h writable) trivial
  | kill p =>
    obtain rfl := by simpa [step] using hs
    refine iff_of_true (noLostWakeup_setCall (p := p) h (fun n hn => ?_) fun n rest => wakeWrite_ne _ n rest) trivial
    exact wakeRead_ne _ n (wakeWrite_eq hn)

end State

variable {P : Type*} [DecidableEq P]

theorem reachable_noLostWakeup {s : State P} (h : (machine P).ReachableWhere State.Fits s) :
    s.Bounded ∧ s.NoLostWakeup := by
  refine h.invariant (P := fun s => s.Bounded ∧ s.NoLostWakeup) ?_ ?_
  · rintro s rfl
    exact ⟨by simp [State.Bounded, Pipe.used], by simp, by simp⟩
  · intro s l t _ ⟨hb, hw⟩ hc hn
    exact ⟨State.step_bounded hb hn, (State.step_noLostWakeup_iff hb hw hn).2 hc⟩

theorem noLostWakeup_iff_fits (s : State P) (h : (machine P).ReachableWhere State.Fits s) :
    s.NoLostWakeup ∧ ∀ l s', s.step l = some s' → (s'.NoLostWakeup ↔ s.Fits l) := by
  obtain ⟨hb, hw⟩ := reachable_noLostWakeup h
  exact ⟨hw, fun l s' hs => State.step_noLostWakeup_iff hb hw hs⟩

instance [Fintype P] (s : State P) (l : Label P) : Decidable (s.Fits l) := by
  unfold State.Fits
  split
  · split <;> infer_instance
  · infer_instance

theorem noLostWakeup_full :
    ∃ s : State (Fin 2), (s.call 0 = .read 4 ∧ s.call 1 = .sleepWrite 513 [7]) ∧ s.NoLostWakeup ∧
      ∀ l s', s.step l = some s' → (s'.NoLostWakeup ↔ s.Fits l) := by
  have hrun : ((machine (Fin 2)).runWhere State.Fits {} [.callRead 0 4, .run 0 false,
      .callWrite 1 (List.replicate 513 7), .run 1 false]).any (fun s =>
        s.call 0 = .read 4 ∧ s.call 1 = .sleepWrite 513 [7]) := by decide +kernel
  obtain ⟨s, hr, hp⟩ := exists_reachableWhere rfl hrun
  exact ⟨s, by simpa using hp, noLostWakeup_iff_fits s hr⟩

theorem killed_pipewrite_loses_wakeup :
    ∃ s : State (Fin 2), (machine (Fin 2)).Reachable s ∧ s.call 0 = .sleepRead 4 ∧
      s.pipe.nread ≠ s.pipe.nwrite ∧ ¬ s.NoLostWakeup := by
  have hrun : ((machine (Fin 2)).run {} [.callRead 0 4, .run 0 false,
      .callWrite 1 (List.replicate 513 7), .kill 1, .run 1 false]).any (fun s =>
        s.call 0 = .sleepRead 4 ∧ s.pipe.nread ≠ s.pipe.nwrite) := by decide +kernel
  obtain ⟨s, hr, hp⟩ := exists_reachable rfl hrun
  obtain ⟨h0, hne⟩ := of_decide_eq_true hp
  exact ⟨s, hr, h0, hne, fun hl => hne (hl.1 0 4 h0).1⟩

end EnhancedXv6.Pipes
