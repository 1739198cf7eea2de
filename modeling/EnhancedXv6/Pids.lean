import EnhancedXv6.Effects
import Mathlib.Algebra.Group.Int.Defs

namespace EnhancedXv6.Threads

open ProcTable Table Scheduler Transition Machine Kernel

structure Pids (t : Table) : Prop where
  next : t.nextpid = i32 (t.handedOut + 1)
  bound : t.handedOut < 2 ^ 31 → ∀ p, 0 ≤ (t.proc p).pid ∧ (t.proc p).pid ≤ t.handedOut
  inj : t.handedOut < 2 ^ 31 → ∀ p q, (t.proc p).pid = (t.proc q).pid → (t.proc p).pid ≠ 0 → p = q
  used : t.handedOut < 2 ^ 31 → ∀ p, t.st p ≠ .unused → (t.proc p).pid ≠ 0

namespace Pids

variable {t u : Table}

theorem of_eq (h : Pids t) (hp : ∀ p, (u.proc p).pid = (t.proc p).pid) (hs : ∀ p, u.st p ≠ .unused → t.st p ≠ .unused)
    (hn : u.nextpid = t.nextpid) (hh : u.handedOut = t.handedOut) : Pids u where
  next := by rw [hn, hh]; exact h.next
  bound hb p := by rw [hp, hh]; exact h.bound (hh ▸ hb) p
  inj hb p q := by rw [hp, hp]; exact h.inj (hh ▸ hb) p q
  used hb p hu := by rw [hp]; exact h.used (hh ▸ hb) p (hs p hu)

theorem alloc (h : Pids t) {np : Slot} (ha : t.allocproc = some (u, np)) : Pids u := by
  obtain ⟨-, rfl⟩ := allocproc_eq ha
  have hfresh : t.handedOut + 1 < 2 ^ 31 → t.nextpid = (t.handedOut : ℤ) + 1 := by
    intro hb
    rw [h.next, i32_eq] <;> omega
  have hother : t.handedOut + 1 < 2 ^ 31 → ∀ p, (t.proc p).pid ≠ t.nextpid := by
    intro hb p he
    have := (h.bound (by omega) p).2
    have := hfresh hb
    omega
  refine ⟨?_, fun hb p => ?_, fun hb p q => ?_, fun hb p hp => ?_⟩
  · change i32 (t.nextpid + 1) = i32 ((t.handedOut + 1 : ℕ) + 1)
    rw [h.next]
    push_cast
    exact Int.bmod_add_bmod
  · change t.handedOut + 1 < 2 ^ 31 at hb
    have hf := hfresh hb
    simp only [setProc_proc, setProc_handedOut]
    split_ifs
    · dsimp only; omega
    · have := h.bound (by omega) p; omega
  · change t.handedOut + 1 < 2 ^ 31 at hb
    simp only [setProc_proc]
    split_ifs with e e' e'
    · exact fun _ _ => e.trans e'.symm
    · exact fun he _ => absurd he.symm (hother hb q)
    · exact fun he _ => absurd he (hother hb p)
    · exact h.inj (by omega) p q
  · change t.handedOut + 1 < 2 ^ 31 at hb
    have hf := hfresh hb
    simp only [st_setProc] at hp
    simp only [setProc_proc]
    split_ifs with e
    · dsimp only; omega
    · rw [Function.update_of_ne e] at hp
      exact h.used (by omega) p hp

theorem reap (h : Pids t) (q : Slot) : Pids (t.reap q) where
  next := h.next
  bound hb p := by
    have := h.bound hb p
    simp only [Table.reap, setProc_proc]
    split_ifs
    · dsimp only; omega
    · exact this
  inj hb p r := by
    simp only [Table.reap, setProc_proc]
    split_ifs
    · exact fun _ hn => absurd rfl hn
    · exact fun _ hn => absurd rfl hn
    · exact fun he hn => absurd he hn
    · exact h.inj hb p r
  used hb p hp := by
    unfold Table.reap at hp ⊢
    rw [st_setProc] at hp
    by_cases e : p = q
    · subst e; simp at hp
    · rw [Function.update_of_ne e] at hp
      rw [setProc_of_ne _ _ _ _ e]
      exact h.used hb p hp

theorem mark (h : Pids t) (p : Slot) : Pids (t.setProc p (fun r => { r with killed := true })) := by
  refine h.of_eq (fun q => ?_) (fun q hq => ?_) rfl rfl
  · rw [setProc_proc]
    split_ifs with e
    · rw [e]
    · rfl
  · rw [st_setProc] at hq
    by_cases e : q = p
    · subst e; simpa [st] using hq
    · simpa [e] using hq

theorem keeps (h : Pids t) (k : Keeps t u) : Pids u :=
  h.of_eq k.pid (fun p => mt (k.unused p).mpr) k.nextpid k.handedOut

theorem free (h : Pids t) (np : Slot) : Pids (t.freeEmbryo np) := by
  refine h.of_eq (fun q => ?_) (fun q hq => ?_) rfl rfl
  · rw [freeEmbryo, setProc_proc]
    split_ifs with e
    · rw [e]
    · rfl
  · rw [freeEmbryo, st_setProc] at hq
    by_cases e : q = np
    · subst e; simp at hq
    · simpa [e] using hq

theorem start : Pids {} where
  next := by decide
  bound _ _ := ⟨le_refl _, by simp⟩
  inj _ _ _ _ hn := absurd rfl hn
  used _ _ hu := absurd rfl hu

end Pids

theorem Kernel.Effect.pids {n : ℕ} {k : Kernel n} {l : Label n} {u : Table} (he : k.Effect l u)
    (h : Pids k.table) : Pids u := by
  cases he with
  | keeps hk => exact h.keeps hk
  | alloc hl ha => exact h.alloc ha
  | free hl hp hm => exact h.free _
  | reap hk hq => exact (h.keeps hk).reap _
  | kill hp hk => exact (h.mark _).keeps hk
  | fault hp => exact h.mark _

theorem reachable_pids {b : Build} {n : ℕ} {k : Kernel n} (h : (machine b n).Reachable k) : Pids k.table :=
  ReachableWhere.invariant h (P := fun k => Pids k.table) (fun _ e => e ▸ Pids.start)
    (fun _ _ _ hr hk _ hs => ((reachable_inv hr.reachable).effect hs).pids hk)

end EnhancedXv6.Threads
