import EnhancedXv6.FsBalance
import Mathlib.Data.Fintype.Card

namespace EnhancedXv6.Fs

open Command Counting

variable {P : Type} {N : ℕ}

section Balance

variable [DecidableEq P] [NeZero N]

def Boot (s : State P N) : Prop :=
  ∃ p ip, s.cwd = Function.update (fun _ => none) p (some ip) ∧ s.inum ip = ROOTINO ∧
    s.ref = Function.update (fun _ => 0) ip 1 ∧ s.file = (fun _ => {}) ∧ s.ofile = (fun _ _ => none) ∧
    s.outstanding = 0 ∧ s.lock = (fun _ => none)

def emptyDisk : Fin N → Inode N :=
  Function.update (fun _ => {}) ROOTINO { type := .dir, nlink := 1, entries := [⟨ROOTINO, "."⟩, ⟨ROOTINO, ".."⟩] }

def bootState (p : P) (ip : Ip) (disk : Fin N → Inode N) : State P N where
  inode := disk
  inum _ := ROOTINO
  ref := Function.update (fun _ => 0) ip 1
  valid _ := false
  lock _ := none
  file _ := {}
  cwd := Function.update (fun _ => none) p (some ip)
  ofile _ _ := none
  outstanding := 0

theorem boot_bootState (p : P) (ip : Ip) (disk : Fin N → Inode N) : Boot (bootState p ip disk) :=
  ⟨p, ip, rfl, rfl, rfl, rfl, rfl, rfl, rfl⟩

theorem Boot.balanced [Fintype P] {s : State P N} (h : Boot s) : ∃ gs, Balanced s gs ∧ ∀ p, (gs p).Idle := by
  obtain ⟨p, ip, hcwd, -, href, hfile, hofile, hops, -⟩ := h
  have hnofds : fds (fun _ => none) = 0 := Finset.sum_eq_zero (fun _ _ => rfl)
  have hidle (q : P) : (Hand.rest (s.cwd q) (fun _ => none)).Idle := ⟨rfl, rfl, rfl, rfl⟩
  refine ⟨fun q => .rest (s.cwd q) (fun _ => none), ?_, hidle⟩
  constructor
  case cwd => exact fun _ => rfl
  case ofile => exact fun q => by rw [hofile]; rfl
  case file => exact fun f => by rw [hfile, total_eq_zero_iff.mpr (fun q => by simp [Hand.rest, hnofds])]
  case inode =>
    -- the working directory of the first process is the only reference
    intro jp
    have hfiles : total (inFile jp) s.file = 0 := total_eq_zero_iff.mpr (fun f => by simp [hfile, inFile])
    have hcwds := total_update (fun c => (single c).count jp) (fun _ : P => none) p (some ip)
    have hnone : total (fun c => (single c).count jp) (fun _ : P => none) = 0 := total_eq_zero_iff.mpr (fun _ => rfl)
    rw [hnone, single_none, Multiset.count_zero, ← hcwd] at hcwds
    change s.ref jp = total (fun c => (single c).count jp) s.cwd + _
    rw [hfiles, href]
    by_cases hj : jp = ip
    · subst hj
      rw [single_some, Multiset.count_singleton_self] at hcwds
      rw [Function.update_self]
      omega
    · rw [single_some, Multiset.count_singleton, if_neg hj] at hcwds
      rw [Function.update_of_ne hj]
      omega
  case unused => exact fun f _ => by rw [hfile]
  case unique =>
    have honly (x : Ip) (hx : 0 < s.ref x) : x = ip := by
      by_contra hne
      rw [href, Function.update_of_ne hne] at hx
      exact lt_irrefl 0 hx
    intro a b ha hb _
    rw [honly a ha, honly b hb]
  case ops => rw [hops, total_eq_zero_iff.mpr (fun q => (hidle q).ops), Nat.cast_zero]
  case fresh =>
    intro q f hf
    cases hf
  case apart =>
    intro a b f hf
    cases hf
  case gone => exact fun q _ => ⟨hidle q, hnofds⟩

def fsMachine (P : Type) (N : ℕ) [DecidableEq P] [NeZero N] :
    Transition.Machine (Pool (sig P) P (State P N) ℤ) (Event P (Call P)) :=
  threads (State.exec (P := P) (N := N)) Call.code (fun s p => (s.cwd p).isSome) Boot

theorem balanced_of_reachable [Fintype P] {s : Pool (sig P) P (State P N) ℤ} (h : (fsMachine P N).Reachable s) :
    ∃ gs, Balanced s.mem gs ∧ ∀ p, Settles (hands P) Hand.Idle (s.thread p) (gs p) := by
  refine Pool.settles (K := fun _ _ _ => True) Hand.Idle Hand.Gone (fun o g Q hg hΦ => hΦ.1 hg) (fun s hs => hs.balanced)
    (fun c g hi hg => hands_code c hi hg) (fun s gs p hb hm hg => ?_) (fun s p o gs Q r t _ hb _ hΦ he => ?_)
    (h.mono (fun s l _ => ?_))
  · rw [hb.cwd, (hg : (gs p).cwd = none)] at hm
    cases hm
  · obtain ⟨gs', hb', hQ, hothers⟩ := balance hb hΦ he
    exact ⟨gs', hb', hQ, fun q hq => (hothers q hq).imp_right And.right⟩
  · cases l with
    | call p c => trivial
    | step p => exact fun _ _ => trivial

end Balance

section Counts

variable [Fintype P]

structure RefsBalance (s : State P N) : Prop where
  file : ∀ f, (s.file f).ref = Fintype.card { x : P × Fin NOFILE // s.ofile x.1 x.2 = some f }
  unused : ∀ f, (s.file f).ref = 0 → (s.file f).kind = .none
  inode : ∀ ip, s.ref ip =
    Fintype.card { f // (s.file f).kind = .inode ip } + Fintype.card { p // s.cwd p = some ip }
  unique : s.Unique
  outstanding : s.outstanding = 0

theorem Balanced.refsBalance {s : State P N} {gs : P → Hand} (h : Balanced s gs) (hi : ∀ p, (gs p).Idle) :
    RefsBalance s := by
  refine ⟨fun f => ?_, h.unused, fun ip => ?_, h.unique, ?_⟩
  · have hcount (p : P) : (gs p).files.count f = ∑ fd, if s.ofile p fd = some f then 1 else 0 := by
      rw [(hi p).files, fds, Multiset.count_sum', h.ofile]
      refine Finset.sum_congr rfl (fun fd _ => ?_)
      cases (gs p).ofile fd with
      | none => simp [single]
      | some x => simp [single, Multiset.count_singleton, eq_comm]
    rw [h.file, Fintype.card_subtype, Finset.card_filter, Fintype.sum_prod_type]
    exact Finset.sum_congr rfl (fun p _ => hcount p)
  · have hcount (p : P) : (gs p).inodes.count ip = if s.cwd p = some ip then 1 else 0 := by
      rw [(hi p).inodes, h.cwd]
      cases (gs p).cwd with
      | none => simp [single]
      | some x => simp [single, Multiset.count_singleton, eq_comm]
    rw [h.inode, Fintype.card_subtype, Finset.card_filter, Fintype.card_subtype, Finset.card_filter, add_comm]
    exact congrArg₂ _ rfl (Finset.sum_congr rfl (fun p _ => hcount p))
  · rw [h.ops, total_eq_zero_iff.mpr (fun p => (hi p).ops)]
    rfl

end Counts

theorem references_balance [Fintype P] [DecidableEq P] [NeZero N] {s : Pool (sig P) P (State P N) ℤ}
    (h : (fsMachine P N).Reachable s) (hidle : ∀ p, s.thread p = none) : RefsBalance s.mem := by
  obtain ⟨gs, hb, hs⟩ := balanced_of_reachable h
  refine hb.refsBalance (fun p => ?_)
  have hp := hs p
  rwa [hidle p] at hp

def alone {C : Type} (p : P) (c : C) (n : ℕ) : List (Event P C) := .call p c :: List.replicate n (.step p)

theorem references_balance_shared : ∃ s : Pool (sig (Fin 2)) (Fin 2) (State (Fin 2) 8) ℤ,
    (fsMachine (Fin 2) 8).Reachable s ∧ (∃ f, (s.mem.file f).ref = 3) ∧ RefsBalance s.mem := by
  obtain ⟨s, hs, hP⟩ := Transition.Machine.exists_reachable (M := fsMachine (Fin 2) 8)
    (s := ⟨bootState 0 (Fin.ofNat 50 0) emptyDisk, fun _ => none⟩)
    (w := alone 0 (.openFile (some ⟨false, ["f"]⟩) true false) 26 ++ alone 0 (.fork 1 true) 20 ++
      [.call 1 (.dup 0), .step 1, .call 0 (.pipe true true), .step 0, .step 1, .step 0, .step 0, .step 1, .step 0,
        .step 0, .step 0, .step 0, .step 1])
    (P := fun s => (s.thread 0).isNone && (s.thread 1).isNone && decide ((s.mem.file (Fin.ofNat 100 0)).ref = 3))
    ⟨boot_bootState _ _ _, fun _ => rfl⟩ (by decide +kernel)
  simp only [Bool.and_eq_true, Option.isNone_iff_eq_none, decide_eq_true_eq] at hP
  refine ⟨s, hs, ⟨_, hP.2⟩, references_balance hs (fun p => ?_)⟩
  match p with
  | 0 => exact hP.1.1
  | 1 => exact hP.1.2

end EnhancedXv6.Fs
