import EnhancedXv6.ExecArgs
import EnhancedXv6.SetPriority

namespace EnhancedXv6.Vm

open Command Bytes
open ProcTable (Slot)
open Kernel (lsCall)

def argint (d : Mem) (sz esp n : ℕ) : Option ℕ := fetchint d sz ((esp + 4 + 4 * n) % 0x100000000)

def argptr (d : Mem) (sz esp n : ℕ) (size : ℤ) : Option ℕ := match argint d sz esp n with
  | none => none
  | some i => if size < 0 ∨ i ≥ sz ∨ (i + size) % 0x100000000 > sz then none else some i

def argstr (d : Mem) (sz esp n : ℕ) : Option (ℕ × List UInt8) := match argint d sz esp n with
  | none => none
  | some addr => (fetchstr d sz addr).map (fun s => (addr, s))

structure StringAt (d : Mem) (sz addr : ℕ) (s : List UInt8) : Prop where
  bound : addr + s.length < sz
  terminator : d (addr + s.length) = 0
  bytes : ∀ i < s.length, s[i]? = some (d (addr + i)) ∧ d (addr + i) ≠ 0

section Checks

variable {d : Mem} {sz esp addr n i v : ℕ} {s : List UInt8}

theorem fetchint_bound (hsz : sz < 0x80000000) (h : fetchint d sz addr = some v) : addr + 4 ≤ sz := by
  unfold fetchint at h
  split_ifs at h with hc
  omega

theorem argptr_bound {size : ℤ} (hsz : sz < 0x80000000) (hsize : size < 0x80000000) (h : argptr d sz esp n size = some i) :
    0 ≤ size ∧ i < sz ∧ i + size ≤ sz := by
  unfold argptr at h
  cases ha : argint d sz esp n with
  | none =>
    rw [ha] at h
    cases h
  | some j =>
    rw [ha] at h
    dsimp only at h
    split_ifs at h with hc
    cases h
    omega

theorem scanstr_spec (h : scanstr d n addr = some s) : s.length < n ∧ d (addr + s.length) = 0 ∧
    ∀ i < s.length, s[i]? = some (d (addr + i)) ∧ d (addr + i) ≠ 0 := by
  induction n generalizing addr s with
  | zero => cases h
  | succ n ih =>
    unfold scanstr at h
    split_ifs at h with h0
    · cases h
      refine ⟨Nat.succ_pos n, h0, fun i hi => ?_⟩
      exact absurd hi (Nat.not_lt_zero i)
    · obtain ⟨s, hs, rfl⟩ := Option.map_eq_some_iff.mp h
      obtain ⟨h1, h2, h3⟩ := ih hs
      refine ⟨Nat.succ_lt_succ h1, ?_, fun i hi => ?_⟩
      · rw [List.length_cons, ← h2]
        congr 1
        omega
      · cases i with
        | zero => exact ⟨rfl, h0⟩
        | succ i =>
          have hi' := h3 i (Nat.lt_of_succ_lt_succ hi)
          have he : addr + 1 + i = addr + (i + 1) := by omega
          rw [he] at hi'
          exact hi'

theorem fetchstr_spec (h : fetchstr d sz addr = some s) : StringAt d sz addr s := by
  unfold fetchstr at h
  split_ifs at h with hc
  obtain ⟨h1, h2, h3⟩ := scanstr_spec h
  exact ⟨by omega, h2, h3⟩

theorem argstr_spec (h : argstr d sz esp n = some (addr, s)) : StringAt d sz addr s := by
  unfold argstr at h
  cases ha : argint d sz esp n with
  | none =>
    rw [ha] at h
    cases h
  | some j =>
    rw [ha] at h
    obtain ⟨s, hs, he⟩ := Option.map_eq_some_iff.mp h
    cases he
    exact fetchstr_spec hs

end Checks

structure ArgvAt (d : Mem) (sz uargv : ℕ) (args : List (List UInt8)) : Prop where
  pointers : ∀ i < args.length, ∃ uarg s, fetchint d sz ((uargv + 4 * i) % 0x100000000) = some uarg ∧ uarg ≠ 0 ∧
    args[i]? = some s ∧ StringAt d sz uarg s
  null : fetchint d sz ((uargv + 4 * args.length) % 0x100000000) = some 0

theorem acceptedFrom_spec {d : Mem} {sz uargv n i : ℕ} {args : List (List UInt8)} (h : acceptedFrom d sz uargv n i = some args) :
    ArgvAt d sz (uargv + 4 * i) args := by
  induction n generalizing i args with
  | zero => cases h
  | succ n ih =>
    unfold acceptedFrom at h
    cases hu : fetchint d sz ((uargv + 4 * i) % 0x100000000) with
    | none =>
      rw [hu] at h
      cases h
    | some uarg =>
      rw [hu] at h
      dsimp only at h
      split_ifs at h with h0
      · subst h0
        cases h
        refine ⟨fun j hj => absurd hj (Nat.not_lt_zero j), hu⟩
      · obtain ⟨s, hs, h⟩ := Option.bind_eq_some_iff.mp h
        obtain ⟨args, hargs, rfl⟩ := Option.map_eq_some_iff.mp h
        obtain ⟨h1, h2⟩ := ih hargs
        refine ⟨fun j hj => ?_, ?_⟩
        · cases j with
          | zero => exact ⟨uarg, s, hu, h0, rfl, fetchstr_spec hs⟩
          | succ j =>
            have he : uargv + 4 * i + 4 * (j + 1) = uargv + 4 * (i + 1) + 4 * j := by omega
            rw [he]
            exact h1 j (Nat.lt_of_succ_lt_succ hj)
        · have he : uargv + 4 * i + 4 * (s :: args).length = uargv + 4 * (i + 1) + 4 * args.length := by
            rw [List.length_cons]
            omega
          rw [he]
          exact h2

theorem arguments_validated (d : Mem) (sz esp : ℕ) (hsz : sz < KERNBASE) :
    (∀ addr v, fetchint d sz addr = some v → addr + 4 ≤ sz) ∧
    (∀ n i (size : ℤ), size < 0x80000000 → argptr d sz esp n size = some i → 0 ≤ size ∧ i < sz ∧ i + size ≤ sz) ∧
    (∀ addr s, fetchstr d sz addr = some s → StringAt d sz addr s) ∧
    (∀ n addr s, argstr d sz esp n = some (addr, s) → StringAt d sz addr s) ∧
    ∀ L r uargv, ∃ x, run (exec L) (fetchArgs d sz uargv (MAXARG + 1) 0 (List.replicate MAXARG none)) r = .ok (x, r) ∧
      ∀ argv, x = some argv → ∃ args rest, argv = args.map some ++ none :: rest ∧ args.length < MAXARG ∧ ArgvAt d sz uargv args := by
  refine ⟨fun addr v => fetchint_bound hsz, fun n i size => argptr_bound hsz, fun addr s => fetchstr_spec, fun n addr s => argstr_spec,
    fun L r uargv => ?_⟩
  have hwp : wp (safe L) (fetchArgs d sz uargv (MAXARG + 1) 0 (List.replicate MAXARG none)) r _ := fetchArgs_spec (List.length_replicate ..).symm
  obtain ⟨x, r', hrun, rfl, hx⟩ := run_of_wp hwp
  refine ⟨x, hrun, ?_⟩
  rintro argv rfl
  rcases hx with ⟨-, hnone⟩ | ⟨args, rest, hargs, hlt, hsome⟩
  · cases hnone
  · refine ⟨args, rest, ?_, hlt, acceptedFrom_spec hargs⟩
    cases hsome
    rfl

theorem arguments_validated_ls : argptr lsCall 4096 0 0 100 = some 64 ∧ (64 : ℤ) + 100 ≤ 4096 ∧
    argstr lsCall 4096 0 0 = some (64, [108, 115]) ∧ StringAt lsCall 4096 64 [108, 115] ∧
    run (exec threePages) (fetchArgs lsCall 4096 16 (MAXARG + 1) 0 (List.replicate MAXARG none)) onePage =
      .ok (some ([some [108, 115], some [45, 108]] ++ List.replicate 30 none), onePage) ∧
    ArgvAt lsCall 4096 16 [[108, 115], [45, 108]] := by
  obtain ⟨-, hptr, -, hstr, hargs⟩ := arguments_validated lsCall 4096 0 (by decide)
  have hptr0 : argptr lsCall 4096 0 0 100 = some 64 := by decide
  have hstr0 : argstr lsCall 4096 0 0 = some (64, [108, 115]) := by decide
  refine ⟨hptr0, (hptr 0 64 100 (by decide) hptr0).2.2, hstr0, hstr 0 64 _ hstr0, rfl, ?_⟩
  obtain ⟨x, hrun, hx⟩ := hargs threePages onePage 16
  have hrun0 := hrun.symm.trans (show _ = Except.ok (_, onePage) from rfl)
  cases hrun0
  obtain ⟨args, rest, he, -, hat⟩ := hx _ rfl
  rcases args with _ | ⟨a, _ | ⟨b, _ | ⟨c, args⟩⟩⟩
  all_goals
    injection he with h0 he
    try injection he with h1 he
    try injection he with h2 he
  · cases h0
  · cases h1
  · cases h0
    cases h1
    exact hat
  · cases h2

def sysSetPriority (t : ProcTable.Table) (d : Mem) (sz esp : ℕ) : ProcTable.Table × ℤ :=
  match argptr d sz esp 0 4, argptr d sz esp 1 4 with
  | some newPriority, some procPid => t.setPriority (ProcTable.i32 newPriority) (ProcTable.i32 procPid)
  | _, _ => (t, -1)

def Pointer4 (sz i : ℕ) : Prop := i < sz ∧ (i + 4) % 0x100000000 ≤ sz

theorem argptr_four {d : Mem} {sz esp n i : ℕ} (h : argint d sz esp n = some i) :
    argptr d sz esp n 4 = some i ∧ Pointer4 sz i ∨ argptr d sz esp n 4 = none ∧ ¬ Pointer4 sz i := by
  unfold argptr Pointer4
  rw [h]
  dsimp only
  by_cases hi : i < sz ∧ (i + 4) % 0x100000000 ≤ sz
  · exact .inl ⟨if_neg (by omega), hi⟩
  · exact .inr ⟨if_pos (by omega), hi⟩

theorem sysSetPriority_eq_iff (t : ProcTable.Table) (d : Mem) (sz esp a b : ℕ) (ha : argint d sz esp 0 = some a)
    (hb : argint d sz esp 1 = some b) :
    sysSetPriority t d sz esp = t.setPriority (ProcTable.i32 a) (ProcTable.i32 b) ↔ Pointer4 sz a ∧ Pointer4 sz b := by
  unfold sysSetPriority
  obtain ⟨hpa, ha'⟩ | ⟨hpa, ha'⟩ := argptr_four ha
  · obtain ⟨hpb, hb'⟩ | ⟨hpb, hb'⟩ := argptr_four hb
    · rw [hpa, hpb]
      exact iff_of_true rfl ⟨ha', hb'⟩
    · rw [hpa, hpb]
      exact iff_of_false (ProcTable.setPriority_ne t _ _).symm (fun h => hb' h.2)
  · rw [hpa]
    exact iff_of_false (ProcTable.setPriority_ne t _ _).symm (fun h => ha' h.1)

def priorityCall (b : ℕ) : Mem := fun a => if a = 4 then 50 else if a = 8 then UInt8.ofNat b else if a = 9 then UInt8.ofNat (b / 256) else 0

def process5000 : ProcTable.Table where
  proc p := if p.val = 0 then { pid := 5000, state := .runnable, currPriority := 60 } else {}

theorem sysSetPriority_eq_small :
    sysSetPriority process5000 (priorityCall 1000) 4096 0 = process5000.setPriority 50 1000 :=
  (sysSetPriority_eq_iff process5000 (priorityCall 1000) 4096 0 50 1000 (by decide) (by decide)).mpr
    ⟨⟨by decide, by decide⟩, by decide, by decide⟩

theorem sysSetPriority_refuses_pid : argint (priorityCall 5000) 4096 0 0 = some 50 ∧ argint (priorityCall 5000) 4096 0 1 = some 5000 ∧
    (process5000.setPriority 50 5000).2 = 60 ∧ ((process5000.setPriority 50 5000).1.proc 0).currPriority = 50 ∧
    (sysSetPriority process5000 (priorityCall 5000) 4096 0).2 = -1 ∧
    ((sysSetPriority process5000 (priorityCall 5000) 4096 0).1.proc 0).currPriority = 60 := by
  decide +kernel

end EnhancedXv6.Vm
