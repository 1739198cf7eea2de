import EnhancedXv6.LifecycleSteps

namespace EnhancedXv6.Threads

open ProcTable Table Transition Machine

variable {n : ℕ} {b : Build}

theorem machine_next : (machine b n).next = Kernel.step b := rfl

namespace Kernel

variable {k : Kernel n} {c : Fin n} {p np : Slot}

structure MayFork (k : Kernel n) (c : Fin n) (p np : Slot) : Prop where
  lock : k.LockFree
  user : k.procAt c .user = some p
  idle : k.making (some p) = .idle
  free : slots.find? (fun q => (k.table.proc q).state = .unused) = some np

instance (k : Kernel n) (c : Fin n) (p np : Slot) : Decidable (k.MayFork c p np) :=
  decidable_of_iff (k.LockFree ∧ k.procAt c .user = some p ∧ k.making (some p) = .idle ∧
      slots.find? (fun q => (k.table.proc q).state = .unused) = some np)
    ⟨fun ⟨h1, h2, h3, h4⟩ => ⟨h1, h2, h3, h4⟩, fun ⟨h1, h2, h3, h4⟩ => ⟨h1, h2, h3, h4⟩⟩

def exhaust (k : Kernel n) (np : Slot) (x pid : ℤ) (m : ℕ) : Kernel n :=
  k.setTable (({ k.table with nextpid := x, handedOut := k.table.handedOut + m } : Table).setProc np
    (fun r => { r with pid := pid, currPriority := 60 }))

theorem MayFork.exhaust (h : k.MayFork c p np) (x pid : ℤ) (m : ℕ) :
    (k.exhaust np x pid m).MayFork c p np where
  lock := h.lock
  user := h.user
  idle := h.idle
  free := by
    rw [← h.free]
    congr
    funext q
    by_cases e : q = np
    · subst e
      simp [Kernel.exhaust]
    · simp [Kernel.exhaust, e]

theorem exhaust_exhaust (k : Kernel n) (np : Slot) (x y pid pid' : ℤ) (m j : ℕ) :
    (k.exhaust np x pid m).exhaust np y pid' j = k.exhaust np y pid' (m + j) := by
  simp [Kernel.exhaust, Table.setProc, setTable, Nat.add_assoc]

theorem MayFork.fail (h : k.MayFork c p np) :
    (machine b n).run k [.forkAlloc c, .forkKalloc c false] =
      some (k.exhaust np (i32 (k.table.nextpid + 1)) k.table.nextpid 1) := by
  have hs : (k.table.proc np).state = .unused := by simpa using List.find?_some h.free
  have ha : (machine b n).next k (.forkAlloc c) = some ((k.setTable
      (({ k.table with nextpid := i32 (k.table.nextpid + 1), handedOut := k.table.handedOut + 1 } : Table).setProc np
        (fun r => { r with state := .embryo, pid := k.table.nextpid, currPriority := 60 }))).setMaking
          (some p) (.alloced np)) := by
    rw [machine_next, Kernel.step, h.user, Option.bind_some, if_pos ⟨h.lock, h.idle⟩, allocproc, h.free]
    rfl
  have hk : ∀ t, (machine b n).next ((k.setTable t).setMaking (some p) (.alloced np)) (.forkKalloc c false) =
      some (k.setTable (t.freeEmbryo np)) := by
    intro t
    have hu : ((k.setTable t).setMaking (some p) (.alloced np)).procAt c .user = some p := h.user
    have hm : ((k.setTable t).setMaking (some p) (.alloced np)).making (some p) = .alloced np :=
      Function.update_self _ _ _
    rw [machine_next, Kernel.step, hu, Option.bind_some, hm]
    simp [setMaking, setTable, ← h.idle]
  rw [run_cons, ha, Option.bind_some, run_cons, hk, Option.bind_some, run_nil, Kernel.exhaust]
  simp [freeEmbryo, Table.setProc, ← hs]

theorem MayFork.reachable (h : k.MayFork c p np) (hr : (machine b n).Reachable k) {x : ℤ}
    (hx : k.table.nextpid = i32 x) (j : ℕ) :
    (machine b n).Reachable (k.exhaust np (i32 (x + (j + 1))) (i32 (x + j)) (j + 1)) := by
  induction j with
  | zero =>
    have hk := hr.run h.fail
    rw [hx, i32_succ] at hk
    simpa using hk
  | succ j ih =>
    have hk := ih.run (h.exhaust _ _ _).fail
    rw [exhaust_exhaust] at hk
    have hn : (k.exhaust np (i32 (x + (j + 1))) (i32 (x + j)) (j + 1)).table.nextpid = i32 (x + (j + 1)) := rfl
    rw [hn, i32_succ] at hk
    have e : x + (((j + 1 : ℕ) : ℤ) + 1) = x + (j + 1) + 1 := by omega
    have e' : x + ((j + 1 : ℕ) : ℤ) = x + (j + 1) := by omega
    rw [e, e']
    exact hk

end Kernel

theorem exists_after_forks (b : Build) (pre post : List (Label n)) (c : Fin n) (p np : Slot) (x : ℤ) (j : ℕ)
    (P : Kernel n → Bool)
    (h : ((machine b n).run (Kernel.start n) pre).any (fun k =>
      decide (k.MayFork c p np ∧ k.table.nextpid = i32 x) &&
      ((machine b n).run (k.exhaust np (i32 (x + (j + 1))) (i32 (x + j)) (j + 1)) post).any P)) :
    ∃ k, (machine b n).Reachable k ∧ P k := by
  obtain ⟨k, hk, hp⟩ := exists_reachable (M := machine b n) rfl h
  rw [Bool.and_eq_true, decide_eq_true_eq] at hp
  have hr := hp.1.1.reachable hk hp.1.2 j
  cases hrun : (machine b n).run (k.exhaust np (i32 (x + (j + 1))) (i32 (x + j)) (j + 1)) post with
  | none => simp [hrun] at hp
  | some k' => exact ⟨k', hr.run hrun, by simpa [hrun] using hp.2⟩

end EnhancedXv6.Threads
