
import EnhancedXv6.AddressSpaces
import EnhancedXv6.LifecycleSteps
import EnhancedXv6.Tasks

namespace EnhancedXv6.Vm

open Function (update update_apply update_eq_self_iff update_idem update_of_ne update_self)
open Command Bytes Ownership
open ProcTable (Slot)

variable {L : Layout} {Φ : Spec sig Ram} {E : Set ℕ} {r r' r'' : Ram} {d f g : ℕ}

structure Writes (f : ℕ) (r r' : Ram) : Prop where
  free : r'.freelist = r.freelist
  page : ∀ g ≠ f, r'.page g = r.page g

namespace Writes

theorem refl (f : ℕ) (r : Ram) : Writes f r r := ⟨rfl, fun _ _ => rfl⟩

theorem setPage (f : ℕ) (r : Ram) (m : Mem) : Writes f r (r.setPage f m) := ⟨rfl, fun _ hg => Ram.setPage_of_ne r hg m⟩

theorem trans (h : Writes f r r') (h' : Writes f r' r'') : Writes f r r'' :=
  ⟨h'.free.trans h.free, fun g hg => (h'.page g hg).trans (h.page g hg)⟩

theorem keeps (h : Writes f r r') (hf : f ∈ L.frames) (hE : f ∉ E) : Keeps L E r r' := by
  intro g hg
  apply h.page
  rintro rfl
  exact hg ⟨hf, hE⟩

theorem space (h : Writes f r r') (hs : Space L E r d) (hf : f ∉ L.frames \ E) : Space L E r' d ∧ r'.user d = r.user d ∧ r'.refs d = r.refs d := by
  have hp : ∀ x g, r.refs d x = some g → r'.page g = r.page g := fun x g hx => h.page g (hs.not_mem hf hx)
  exact ⟨hs.congr (.of_refs hp) h.free, Ram.user_congr hp, (Ram.SameTables.of_refs hp).refs⟩

end Writes

theorem Writes.held (h : Writes f r r') (hg : Held L r g) : Held L r' g := ⟨hg.1, by rw [h.free]; exact hg.2⟩

section Stack

variable [Grants L Φ]

theorem initStack_spec {y : Symbols} (hf : Held L r f) : wp Φ (initStack y f) r (fun _ r' => Writes f r r') := by
  have h1 := Writes.setPage f r (setWord (r.page f) 1004 y.trapret)
  refine wp_setWord (Grants.usable r f hf) ?_
  generalize r.setPage f _ = r1 at h1 ⊢
  have h2 := h1.trans (.setPage f r1 (overwrite (r1.page f) 3996 (List.replicate 20 0)))
  refine wp_store (Grants.usable r1 f (h1.held hf)) ?_
  generalize r1.setPage f _ = r2 at h2 ⊢
  exact wp_last (wp_setWord (Grants.usable r2 f (h2.held hf)) (h2.trans (.setPage ..)))

theorem copyTrapframe_spec {n : ℕ} (hf : Held L r f) (hg : Held L r g) (hne : f ≠ g) (hn : n ≤ 1024) :
    wp Φ (copyTrapframe f g n) r (fun _ r' => Writes g r r' ∧
      ∀ j, word (r'.page g) j = if 1024 - n ≤ j ∧ j < 1024 then word (r.page f) j else word (r.page g) j) := by
  induction n generalizing r with
  | zero =>
    refine ⟨.refl g r, fun j => ?_⟩
    rw [if_neg (by omega)]
  | succ n ih =>
    have hwrite := Writes.setPage g r (setWord (r.page g) (1023 - n) (word (r.page f) (1023 - n)))
    refine wp_word (Grants.usable r f hf) (wp_setWord (Grants.usable r g hg) (wp_mono (grants_mono L) _ ?_ (ih (hwrite.held hf) (hwrite.held hg) (by omega))))
    rintro _ r1 ⟨hw, hword⟩
    refine ⟨hwrite.trans hw, fun j => ?_⟩
    rw [hword j, Ram.setPage_of_ne r hne, Ram.setPage_self]
    by_cases hj : j = 1023 - n
    · subst hj
      rw [if_neg (by omega), if_pos (by omega), word_setWord_self]
    · rw [word_setWord_of_ne _ hj]
      by_cases hc : 1024 - n ≤ j ∧ j < 1024
      · rw [if_pos hc, if_pos (by omega)]
      · rw [if_neg hc, if_neg (by omega)]

end Stack

theorem PTE_FLAGS_pte {w : UInt32} (hw : w &&& PTE_P ≠ 0) : PTE_FLAGS (pte f (PTE_FLAGS w)) = PTE_FLAGS w := by
  have hbit : w.toNat.testBit 0 = true := by
    rw [← UInt32.toNat_inj.ne, UInt32.toNat_and] at hw
    change w.toNat &&& 1 ≠ 0 at hw
    rw [Nat.and_one_is_mod] at hw
    rw [Nat.testBit_zero]
    exact decide_eq_true (by omega)
  rw [PTE_FLAGS, pte, V2P_or_and (by decide), PTE_FLAGS, ← UInt32.toNat_inj, UInt32.toNat_and, UInt32.toNat_or, UInt32.toNat_and]
  change (w.toNat &&& 4095 ||| 1) &&& 4095 = w.toNat &&& 4095
  apply Nat.eq_of_testBit_eq
  intro i
  rw [Nat.testBit_and, Nat.testBit_or, Nat.testBit_and]
  cases i with
  | zero => rw [hbit]; rfl
  | succ i =>
    have hone : (1 : ℕ).testBit (i + 1) = false := Nat.testBit_lt_two_pow (Nat.one_lt_two_pow (Nat.succ_ne_zero i))
    rw [hone, Bool.or_false, Bool.and_assoc, Bool.and_self]

namespace Kernel

variable {b : ProcTable.Build} {y : Symbols} {k k' : Kernel} {p q np : Slot} {α : Type}

theorem call_returns {m : Code α} {Q : α → Ram → Prop} (h : wp (safe L) m k.ram Q) :
    Returns (k.call L m) (fun x => ∃ r', x.2 = { k with ram := r' } ∧ Q x.1 r') := by
  obtain ⟨a, r', hrun, hQ⟩ := run_of_wp h
  refine ⟨(a, { k with ram := r' }), ?_, r', rfl, hQ⟩
  rw [call, hrun]
  rfl

theorem call_undenied {m : Code α} {Q : Prop → α → Ram → Prop} (h : ∀ Φ [Grants L Φ], wp Φ m k.ram (Q (Denies Φ))) :
    Returns (k.call L m) (fun x => ∃ r', x.2 = { k with ram := r' } ∧ Q (k.ram.denied ≠ []) x.1 r' ∧
      (k.ram.denied = [] → r'.denied = [])) := call_returns (wp_undenied h)

theorem setTask_self (k : Kernel) (p : Slot) (f : Task → Task) : (k.setTask p f).task p = f (k.task p) := update_self ..

theorem setTask_of_ne (k : Kernel) (h : q ≠ p) (f : Task → Task) : (k.setTask p f).task q = k.task q := update_of_ne h ..

theorem allocproc_spec (h : Idle L E k.ram) : Returns (k.allocproc L b y) (fun x =>
    Keeps L E k.ram x.2.ram ∧ x.2.fileRef = k.fileRef ∧ x.2.inodeRef = k.inodeRef ∧
    (∀ q, k.table.st q ≠ .unused → x.2.task q = k.task q) ∧ (k.ram.denied = [] → x.2.ram.denied = []) ∧
    (x.1 = none ∧ Idle L E x.2.ram ∧ x.2.table.st = k.table.st ∧
        (k.table.allocproc = none ∨ Short (k.ram.denied ≠ []) L E 0) ∨
      ∃ np f, x.1 = some np ∧ k.table.st np = .unused ∧ f ∈ L.frames ∧ f ∉ E ∧ Idle L (insert f E) x.2.ram ∧ (x.2.task np).kstack = f ∧
        x.2.table.st = update k.table.st np .embryo ∧ (x.2.table.proc np).pid = k.table.nextpid)) := by
  unfold allocproc
  cases ha : k.table.allocproc with
  | none => exact .ok ⟨.refl L E k.ram, rfl, rfl, fun _ _ => rfl, id, .inl ⟨rfl, h, rfl, .inl rfl⟩⟩
  | some x =>
    obtain ⟨t, np⟩ := x
    obtain ⟨hun, ht⟩ := Threads.Kernel.allocproc_eq ha
    have hst : t.st = update k.table.st np .embryo := by
      rw [ht, ProcTable.Table.st_setProc]
      rfl
    have hother : ∀ q, k.table.st q ≠ .unused → q ≠ np := by
      rintro q hq rfl
      exact hq hun
    have hwp : ∀ Φ [Grants L Φ], wp Φ (op .kalloc : Code (Option ℕ)) k.ram (fun x r' =>
        x = none ∧ r'.page = k.ram.page ∧ r'.freelist = k.ram.freelist ∧ Short (Denies Φ) L E 0 ∨
          ∃ f, x = some f ∧ k.ram.Takes f r') :=
      fun Φ _ => wp_last (wp_kalloc L (fun r1 hp1 hl1 hout => .inl ⟨rfl, hp1, hl1, (h.congr hl1).short hout 0⟩)
        (fun f r1 htake => .inr ⟨f, rfl, htake⟩))
    refine Returns.bind (call_undenied (k := k.setTable t) (Q := fun D x r' => x = none ∧ r'.page = k.ram.page ∧
      r'.freelist = k.ram.freelist ∧ Short D L E 0 ∨ ∃ f, x = some f ∧ k.ram.Takes f r') hwp) ?_
    rintro ⟨x, k1⟩ ⟨r1, hk1, hx, hden1⟩
    dsimp only at hk1
    subst hk1
    rcases hx with ⟨rfl, hp1, hl1, hshort⟩ | ⟨f, rfl, htake⟩
    · have hkeep1 : Keeps L E k.ram r1 := fun g _ => by rw [hp1]
      refine .ok ⟨hkeep1, rfl, rfl, fun q hq => update_of_ne (hother q hq) .., hden1, .inl ⟨rfl, h.congr hl1, ?_, .inr hshort⟩⟩
      change (t.freeEmbryo np).st = k.table.st
      rw [ProcTable.Table.freeEmbryo, ProcTable.Table.st_setProc, hst, update_idem]
      exact (update_eq_self_iff).mpr hun.symm
    · obtain ⟨hf, hE, h1⟩ := h.pop htake
      have hkeep1 : Keeps L E k.ram r1 := keeps_takes htake hf hE
      refine Returns.bind (call_undenied (Q := fun _ _ => Writes f r1)
        (fun Φ _ => initStack_spec (y := y) (h1.held hf (Set.mem_insert f E)))) ?_
      rintro ⟨_, k2⟩ ⟨r2, hk2, hw, hden2⟩
      dsimp only at hk2
      subst hk2
      refine .ok ⟨hkeep1.trans (hw.keeps hf hE), rfl, rfl, fun q hq => update_of_ne (hother q hq) ..,
        fun hd => hden2 (hden1 hd), .inr ⟨np, f, rfl, hun, hf, hE, h1.congr hw.free, ?_, ?_, ?_⟩⟩
      · change (update k.task np { k.task np with kstack := f } np).kstack = f
        rw [update_self]
      · change (t.allocprocTail b np).st = _
        rw [← hst]
        funext q
        by_cases e : q = np
        · subst e
          simp only [ProcTable.Table.allocprocTail, ProcTable.Table.initializeNewFields, ProcTable.Table.st, ProcTable.Table.setProc_self]
          split_ifs <;> rfl
        · simp only [ProcTable.Table.allocprocTail, ProcTable.Table.initializeNewFields, ProcTable.Table.st, ProcTable.Table.setProc_of_ne _ _ _ _ e]
      · change ((t.allocprocTail b np).proc np).pid = _
        rw [ht]
        simp only [ProcTable.Table.allocprocTail, ProcTable.Table.initializeNewFields, ProcTable.Table.setProc_self]
        split_ifs <;> rfl

structure Dup (k k' : Kernel) : Prop where
  ram : k'.ram = k.ram
  table : k'.table = k.table
  proc : ∀ q, (k'.task q).toProc = (k.task q).toProc
  kstack : ∀ q, (k'.task q).kstack = (k.task q).kstack

theorem dupFiles_spec {is : List (Fin NOFILE)} (hne : p ≠ np) (hf : ∀ i f, (k.task p).ofile i = some f → 0 < k.fileRef f) :
    Returns (dupFiles p np is k) (Dup k) := by
  induction is generalizing k with
  | nil => exact .ok ⟨rfl, rfl, fun _ => rfl, fun _ => rfl⟩
  | cons i is ih =>
    unfold dupFiles
    cases hi : (k.task p).ofile i with
    | none => exact ih hf
    | some f =>
      have hpos := hf i f hi
      have hdup : k.filedup f = .ok { k with fileRef := update k.fileRef f (k.fileRef f + 1) } := if_neg (by omega)
      refine Returns.bind ⟨_, hdup, rfl⟩ ?_
      rintro _ rfl
      refine (ih ?_).mono (fun k2 h => ?_)
      · intro j g hg
        change (update k.task np _ p).ofile j = some g at hg
        rw [update_of_ne hne] at hg
        have hg0 := hf j g hg
        change 0 < update k.fileRef f (k.fileRef f + 1) g
        rw [update_apply]
        split_ifs
        · omega
        · exact hg0
      · have hq : ∀ q, (update k.task np { k.task np with ofile := update (k.task np).ofile i (some f) } q).toProc = (k.task q).toProc ∧
            (update k.task np { k.task np with ofile := update (k.task np).ofile i (some f) } q).kstack = (k.task q).kstack := by
          intro q
          by_cases e : q = np
          · subst e
            rw [update_self]
            exact ⟨rfl, rfl⟩
          · rw [update_of_ne e]
            exact ⟨rfl, rfl⟩
        exact ⟨h.ram, h.table, fun q => (h.proc q).trans (hq q).1, fun q => (h.kstack q).trans (hq q).2⟩

theorem inherit_spec {g : ℕ} (hne : p ≠ np) (hk : (k.task p).kstack = g) (hk' : (k.task np).kstack = f) (hg : Held L k.ram g)
    (hf : Held L k.ram f) (hgf : g ≠ f) (hfiles : ∀ i f, (k.task p).ofile i = some f → 0 < k.fileRef f) :
    Returns (k.inherit L b p np) (fun x => x.1 = (k.table.proc np).pid ∧ Writes f k.ram x.2.ram ∧
      (x.2.task np).toProc = ⟨(k.task p).sz, (k.task np).pgdir⟩ ∧ (x.2.task np).kstack = f ∧
      ∀ j < 19, word (x.2.ram.page f) (1005 + j) = if j = 7 then 0 else word (k.ram.page g) (1005 + j)) := by
  unfold inherit
  dsimp only
  generalize hk1 : Kernel.setTable _ _ = k1
  have hram1 : k1.ram = k.ram := by
    rw [← hk1]
    rfl
  have hnp1 : k1.task np = { k.task np with sz := (k.task p).sz } := by
    rw [← hk1]
    exact update_self ..
  have hp1 : k1.task p = k.task p := by
    rw [← hk1]
    exact update_of_ne hne ..
  have hstack1 : (k1.task np).kstack = f := by rw [hnp1, hk']
  have hpid1 : (k1.table.proc np).pid = (k.table.proc np).pid := by
    rw [← hk1, setTable, ProcTable.Table.setProc_self]
  have hfiles1 : ∀ i f, (k1.task p).ofile i = some f → 0 < k1.fileRef f := by
    rw [hp1, ← hk1]
    exact hfiles
  rw [hk, hstack1]
  rw [← hram1] at hg hf
  refine Returns.bind (call_returns (copyTrapframe_spec hg hf hgf (by decide))) ?_
  rintro ⟨_, k2⟩ ⟨r2, hk2, hw2, hword2⟩
  dsimp only at hk2 ⊢
  have hheld : Held L k2.ram f := by
    rw [hk2]
    exact hw2.held hf
  have hset : wp (safe L) (op (.setWord f 1012 0) : Code Unit) k2.ram (fun _ r' => r' = k2.ram.setPage f (setWord (k2.ram.page f) 1012 0)) :=
    wp_last (wp_setWord (Grants.usable _ f hheld) rfl)
  refine Returns.bind (call_returns hset) ?_
  rintro ⟨_, k3⟩ ⟨r3, hk3, hr3⟩
  dsimp only at hk3 hr3 ⊢
  subst hk3 hk2
  refine Returns.bind (dupFiles_spec hne hfiles1) (fun k4 h4 => .ok ⟨?_, ?_, ?_, ?_, fun j hj => ?_⟩)
  · change (k4.table.proc np).pid = _
    rw [h4.table, ← hpid1]
  · change Writes f k.ram k4.ram
    rw [h4.ram, ← hram1]
    dsimp only
    rw [hr3]
    exact hw2.trans (.setPage ..)
  · have hproc := h4.proc np
    dsimp only at hproc
    rw [hnp1] at hproc
    change (update k4.task np _ np).toProc = _
    rw [update_self]
    exact hproc
  · change (update k4.task np _ np).kstack = _
    rw [update_self]
    exact (h4.kstack np).trans hstack1
  · change word (k4.ram.page f) _ = _
    rw [h4.ram]
    dsimp only
    rw [hr3, Ram.setPage_self]
    split_ifs with h7
    · subst h7
      exact word_setWord_self ..
    · rw [word_setWord_of_ne _ (by omega), hword2, if_pos (by omega), hram1]

structure Unforked (p : Slot) (k k' : Kernel) : Prop where
  free : ∀ f, f ∈ k'.ram.freelist ↔ f ∈ k.ram.freelist
  memory : k'.ram.user (k.task p).pgdir = k.ram.user (k.task p).pgdir
  files : k'.fileRef = k.fileRef
  inodes : k'.inodeRef = k.inodeRef
  states : k'.table.st = k.table.st

structure Forked (p np : Slot) (k k' : Kernel) : Prop where
  slot : k.table.st np = .unused
  memory : k'.ram.user (k.task p).pgdir = k.ram.user (k.task p).pgdir
  stack : k'.ram.page (k.task p).kstack = k.ram.page (k.task p).kstack
  size : (k'.task np).sz = (k.task p).sz
  copy : ∀ v < pages (k.task p).sz, ∃ w w' m, k.ram.user (k.task p).pgdir v = some (w, m) ∧
    k'.ram.user (k'.task np).pgdir v = some (w', m) ∧ PTE_FLAGS w' = PTE_FLAGS w
  rest : ∀ v, pages (k.task p).sz ≤ v → k'.ram.user (k'.task np).pgdir v = none
  apart : ∀ f ∈ owned k'.ram (k'.task np).pgdir, f ∉ owned k'.ram (k.task p).pgdir
  frame : ∀ j < 19, word (k'.ram.page (k'.task np).kstack) (1005 + j) = if j = 7 then 0 else word (k.ram.page (k.task p).kstack) (1005 + j)

structure Running (L : Layout) (E : Set ℕ) (k : Kernel) (p : Slot) : Prop where
  live : k.table.st p ≠ .unused
  space : Space L E k.ram (k.task p).pgdir
  resident : ∀ v < pages (k.task p).sz, (k.ram.user (k.task p).pgdir v).isSome
  stack : (k.task p).kstack ∈ L.frames ∩ E
  files : ∀ i f, (k.task p).ofile i = some f → 0 < k.fileRef f

theorem Running.sz_le (h : Running L E k p) : (k.task p).sz ≤ 0x80000000 := by
  by_contra hlt
  have hv := present_of_user (h.resident 524288 (lt_pages.mpr (by omega)))
  exact absurd hv.1 (lt_irrefl _)

theorem fork_spec (h : Running L E k p) : Returns (k.fork L b y p) (fun x =>
    x.1 = -1 ∧ Unforked p k x.2 ∧ (k.table.allocproc = none ∨
      Short (k.ram.denied ≠ []) L (E ∪ owned k.ram (k.task p).pgdir) (pages (k.task p).sz + 1)) ∨
    x.1 = k.table.nextpid ∧ ∃ np, Forked p np k x.2) := by
  have hidle := h.space.idle
  have hapart := h.space.apart
  have hres : ∀ u, u * 4096 < (k.task p).sz → (k.ram.user (k.task p).pgdir u).isSome := fun u hu => h.resident u (lt_pages.mpr hu)
  refine Returns.bind (allocproc_spec hidle) ?_
  rintro ⟨x, k1⟩ ⟨hkeep1, hfile1, hinode1, htask1, hden1, hx⟩
  have hp1 : k1.task p = k.task p := htask1 p h.live
  rcases hx with ⟨rfl, h1, hst1, hwhy⟩ | ⟨np, f, rfl, hnp, hf, hfE, h1, hstack1, hst1, hpid1⟩
  · refine .ok (.inl ⟨rfl, ⟨fun g => ?_, hapart.user hkeep1, hfile1, hinode1, hst1⟩, ?_⟩)
    · rw [h1.mem_iff, hidle.mem_iff]
    · exact hwhy.imp_right (fun hshort => hshort.mono (Nat.zero_le _))
  · dsimp only at h1 hstack1 hst1 hkeep1 hfile1 hinode1 hpid1 ⊢
    rw [hp1]
    have hne : p ≠ np := by
      rintro rfl
      exact h.live hnp
    have hapart1 : Apart L (insert f (E ∪ owned k.ram (k.task p).pgdir)) k1.ram (k.task p).pgdir :=
      fun x g hx => (hapart.congr hkeep1 x g hx).imp_right (fun hg hm => hg ⟨hm.1, fun hE => hm.2 (Set.mem_insert_of_mem f hE)⟩)
    have huser1 := hapart.user hkeep1
    have hframes1 : owned k1.ram (k.task p).pgdir ⊆ L.frames := by
      rw [hapart.owned hkeep1]
      rintro g ⟨x, hx⟩
      exact (h.space.mem hx).1
    refine Returns.bind (call_undenied (Q := fun D x r' => Keeps L (insert f (E ∪ owned k.ram (k.task p).pgdir)) k1.ram r' ∧
      (x = none ∧ Idle L (insert f (E ∪ owned k.ram (k.task p).pgdir)) r' ∧
          Short D L (insert f (E ∪ owned k.ram (k.task p).pgdir)) (pages (k.task p).sz) ∨
        ∃ d, x = some d ∧ Space L (insert f (E ∪ owned k.ram (k.task p).pgdir)) r' d ∧
          Copied 0 (k.task p).sz (k1.ram.user (k.task p).pgdir) (fun _ => none) (r'.user d))) (fun Φ _ => copyuvm_spec h1 hapart1 hframes1 h.sz_le
        (fun u hu => .inl (by rw [huser1]; exact hres u hu)))) ?_
    rintro ⟨x, k2⟩ ⟨r2, hk2, ⟨hkeep2, hx⟩, -⟩
    dsimp only at hk2
    subst hk2
    have hkeep := hkeep1.trans hkeep2.mono
    rcases hx with ⟨rfl, h2, hshort⟩ | ⟨d, rfl, h2, hcopied⟩
    · rw [if_pos rfl]
      generalize hk3 : Kernel.setTask _ np _ = k3
      have hram3 : k3.ram = r2 := by
        rw [← hk3]
        rfl
      have hstack3 : (k3.task np).kstack = f := by
        rw [← hk3, setTask_self]
        exact hstack1
      have hfree : wp (safe L) (op (.kfree (k3.task np).kstack) : Code Unit) k3.ram (fun _ r' => r' = r2.push f) := by
        rw [hstack3, hram3]
        exact wp_last (wp_kfree (h2.held hf (Set.mem_insert f _)) rfl)
      refine Returns.bind (call_returns hfree) ?_
      rintro ⟨_, k4⟩ ⟨r4, hk4, rfl⟩
      dsimp only at hk4
      subst hk4 hk3
      refine .ok (.inl ⟨rfl, ⟨fun g => ?_, ?_, hfile1, hinode1, ?_⟩, .inr ?_⟩)
      · exact ((h2.push hf hfE).mem_iff g).trans (hidle.mem_iff g).symm
      · exact hapart.user (hkeep.trans (keeps_push hf hfE))
      · change (k1.table.freeEmbryo np).st = _
        rw [ProcTable.Table.freeEmbryo, ProcTable.Table.st_setProc, hst1, update_idem]
        exact update_eq_self_iff.mpr hnp.symm
      · exact hshort.insert.imp_left (fun hd h0 => hd (hden1 h0))
    · rw [if_neg (by simp)]
      generalize hk3 : Kernel.setTask _ np _ = k3
      have hram3 : k3.ram = r2 := by
        rw [← hk3]
        rfl
      have hnp3 : k3.task np = { k1.task np with pgdir := d } := by
        rw [← hk3]
        exact setTask_self ..
      have hp3 : k3.task p = k.task p := by
        rw [← hk3, ← hp1]
        exact setTask_of_ne _ hne _
      have hfiles3 : ∀ i f, (k3.task p).ofile i = some f → 0 < k3.fileRef f := by
        rw [hp3, ← hk3]
        change ∀ i f, (k.task p).ofile i = some f → 0 < k1.fileRef f
        rw [hfile1]
        exact h.files
      have hpid3 : (k3.table.proc np).pid = k.table.nextpid := by
        rw [← hk3]
        exact hpid1
      have hgf : (k3.task p).kstack ≠ f := by
        rw [hp3]
        rintro rfl
        exact hfE (.inl h.stack.2)
      have hheld3 : Held L k3.ram (k3.task p).kstack ∧ Held L k3.ram f := by
        rw [hram3, hp3]
        exact ⟨h2.held_of_mem h.stack.1 (.inr (.inl h.stack.2)), h2.held_of_mem hf (Set.mem_insert f _)⟩
      refine (inherit_spec hne rfl (by rw [hnp3]; exact hstack1) hheld3.1 hheld3.2 hgf hfiles3).mono ?_
      rintro ⟨ret, k4⟩ ⟨rfl, hw, hproc, hstack, hword⟩
      dsimp only at hw hproc hstack hword ⊢
      rw [hram3] at hw
      have hwk := hkeep.trans (hw.keeps hf hfE)
      obtain ⟨h4, huser4, hrefs4⟩ := hw.space h2 (fun hm => hm.2 (Set.mem_insert f _))
      rw [hp3, hnp3] at hproc
      have hd : (k4.task np).pgdir = d := by rw [hproc]
      refine .inr ⟨hpid3, np, hnp, hapart.user hwk, hwk _ (fun hm => hm.2 (.inl h.stack.2)), by rw [hproc], fun v hv => ?_, fun v hv => ?_, ?_, ?_⟩
      · obtain ⟨f', w, m, hw1, hw2⟩ := (hcopied v).1 ⟨Nat.zero_le v, lt_pages.mp hv⟩
        rw [huser1] at hw1
        refine ⟨w, pte f' (PTE_FLAGS w), m, hw1, ?_, PTE_FLAGS_pte (present_of_eq hw1)⟩
        rw [hd, huser4, hw2]
      · rw [hd, huser4]
        exact (hcopied v).2 (fun hm => absurd (lt_pages.mpr hm.2) (Nat.not_lt.mpr hv))
      · rw [hd]
        rintro g ⟨x, hx⟩ ⟨z, hz⟩
        rw [(hapart.same hwk).refs] at hz
        exact (h4.mem hx).2 (Set.mem_insert_of_mem f (.inr ⟨z, hz⟩))
      · intro j hj
        rw [hstack, hword j hj, hram3, hp3, hkeep _ (fun hm => hm.2 (.inl h.stack.2))]

theorem fork_all_or_nothing (L : Layout) (E : Set ℕ) (k : Kernel) (b : ProcTable.Build) (y : Symbols) (p : Slot)
    (h : Running L E k p) : ∃ ret k', k.fork L b y p = .ok (ret, k') ∧
      (ret = -1 ∧ Unforked p k k' ∨ ret = k.table.nextpid ∧ ∃ np, Forked p np k k') := by
  obtain ⟨⟨ret, k'⟩, hfork, hx⟩ := fork_spec h
  exact ⟨ret, k', hfork, hx.imp_left (And.imp_right And.left)⟩

theorem fork_succeeds (h : Running L E k p) (hslot : k.table.allocproc ≠ none) (hd : k.ram.denied = [])
    (hroom : 1027 + pages (k.task p).sz < k.ram.freelist.length) :
    ∃ k' np, k.fork L b y p = .ok (k.table.nextpid, k') ∧ Forked p np k k' := by
  obtain ⟨⟨ret, k'⟩, hfork, ⟨-, -, hnone | hshort⟩ | ⟨rfl, np, hnp⟩⟩ := fork_spec (b := b) (y := y) h
  · exact absurd hnone hslot
  · exact absurd hshort (h.space.idle.not_short hd (by omega))
  · exact ⟨k', np, hfork, hnp⟩

def oneProcess (p : Slot) (m : Mem) : Kernel where
  table := ({} : ProcTable.Table).setProc p (fun r => { r with state := .running })
  task _ := ⟨⟨4096, 57341⟩, 57340, fun _ => none, 0, []⟩
  ram := spare 56828 m
  fileRef _ := 0
  inodeRef _ := 0

theorem oneProcess_running (p : Slot) (m : Mem) : Running manyPages {57340} (oneProcess p m) p := by
  obtain ⟨hspace, huser⟩ := spare_space (n := 56828) (E := {57340}) m (by decide) (fun f => by
    rw [Set.mem_singleton_iff]
    omega)
  refine ⟨?_, hspace, fun v hv => ?_, ⟨?_, rfl⟩, fun i f hf => ?_⟩
  · rw [oneProcess, ProcTable.Table.st, ProcTable.Table.setProc_self]
    rintro ⟨⟩
  · have hpages : pages 4096 = 1 := rfl
    change v < pages 4096 at hv
    rw [hpages] at hv
    obtain rfl : v = 0 := Nat.lt_one_iff.mp hv
    change ((spare 56828 m).user 57341 0).isSome
    rw [huser]
    rfl
  · change 0x200000 ≤ 57340 * 4096 ∧ 57340 * 4096 < 0xE000000
    decide
  · cases hf

theorem oneProcess_free (p : Slot) (m : Mem) : (oneProcess p m).ram.denied = [] ∧ (oneProcess p m).ram.freelist.length = 56828 :=
  ⟨rfl, List.length_range'⟩

theorem fork_all_or_nothing_one : ∃ k', (oneProcess 0 (fun _ => 7)).fork manyPages .mlfq ⟨0, 0⟩ 0 = .ok (1, k') ∧
    ∃ np, Forked 0 np (oneProcess 0 (fun _ => 7)) k' := by
  have hrun := oneProcess_running 0 (fun _ => 7)
  obtain ⟨hd, hfree⟩ := oneProcess_free 0 (fun _ => 7)
  obtain ⟨ret, k', hfork, ⟨rfl, -⟩ | hnp⟩ := fork_all_or_nothing manyPages {57340} (oneProcess 0 (fun _ => 7)) .mlfq ⟨0, 0⟩ 0 hrun
  · have hroom : 1027 + pages ((oneProcess 0 (fun _ => 7)).task 0).sz < (oneProcess 0 (fun _ => 7)).ram.freelist.length := by
      rw [hfree]
      decide
    obtain ⟨k1, np, hok, -⟩ := fork_succeeds (b := .mlfq) (y := ⟨0, 0⟩) hrun (by decide +kernel) hd hroom
    rw [hfork] at hok
    cases hok
  · obtain ⟨rfl, hnp⟩ := hnp
    exact ⟨k', hfork, hnp⟩

end Kernel

end EnhancedXv6.Vm
