import EnhancedXv6.ExecRuns
import EnhancedXv6.Growproc
import EnhancedXv6.Transition
import Mathlib.Data.Finset.Basic

namespace EnhancedXv6.Isolation

open Command Transition Vm
open Function (update update_of_ne update_self)

variable {ι : Type*} {L : Layout}

structure State (ι : Type*) where
  ram : Ram
  proc : ι → Option Proc
  kept : Finset ℕ := ∅

inductive Call
  | fork
  | growproc (n : ℤ)
  | exec (file : List UInt8) (argv : Argv)
  | freevm

def Call.code (L : Layout) (p : Proc) : Call → Code (Option Proc)
  | .fork => do
    let d ← copyuvm L p.pgdir p.sz
    pure (d.map (⟨p.sz, ·⟩))
  | .growproc n => do
    let x ← Vm.growproc p n
    pure (some x.2)
  | .exec file argv => do
    let im ← image L file argv
    match im with
    | none => pure (some p)
    | some im =>
      Vm.freevm p.pgdir
      pure (some ⟨im.sz, im.pgdir⟩)
  | .freevm => do
    Vm.freevm p.pgdir
    pure none

inductive Label (ι : Type*)
  | call (i j : ι) (c : Call)
  | store (i : ι) (v off : ℕ) (bs : List UInt8)
  | kalloc
  | kfree (f : ℕ)
  | kstore (f off : ℕ) (bs : List UInt8)

def Label.slot : Label ι → Option ι
  | .call _ j _ => some j
  | .store i .. => some i
  | _ => none

def Call.allows [DecidableEq ι] (proc : ι → Option Proc) (i j : ι) : Call → Bool
  | .fork => (proc j).isNone
  | .growproc n => decide (j = i ∧ -0x80000000 ≤ n ∧ n < 0x80000000)
  | .exec file _ => decide (j = i ∧ file.length < 0x100000000)
  | .freevm => decide (j = i)

namespace State

def step [DecidableEq ι] (L : Layout) (s : State ι) : Label ι → Option (State ι)
  | .call i j c => match s.proc i with
    | none => none
    | some p =>
      if c.allows s.proc i j then match run (exec L) (c.code L p) s.ram with
        | .ok (o, r) => some { s with ram := r, proc := update s.proc j o }
        | .error _ => none
      else none
  | .store i v off bs => match (s.proc i).bind (fun p => s.ram.refs p.pgdir (.user v)) with
    | none => none
    | some f => some { s with ram := s.ram.setPage f (overwrite (s.ram.page f) off bs) }
  | .kalloc => match run (exec L) (op .kalloc) s.ram with
    | .ok (some f, r) => some { s with ram := r, kept := insert f s.kept }
    | .ok (none, r) => some { s with ram := r }
    | .error _ => none
  | .kfree f => if f ∈ s.kept then some { s with ram := s.ram.push f, kept := s.kept.erase f } else none
  | .kstore f off bs => if f ∈ s.kept then some { s with ram := s.ram.setPage f (overwrite (s.ram.page f) off bs) } else none

def spaces (s : State ι) (o : Option ι) : Set ℕ := {f | ∃ j p, o ≠ some j ∧ s.proc j = some p ∧ f ∈ owned s.ram p.pgdir}

def taken (s : State ι) (o : Option ι) : Set ℕ := ↑s.kept ∪ s.spaces o

end State

def machine (L : Layout) (ι : Type*) [DecidableEq ι] : Machine (State ι) (Label ι) where
  initial s := (∃ i p, s.proc = update (fun _ => none) i (some p) ∧ Sized L ∅ s.ram p.pgdir p.sz) ∧ s.kept = ∅
  next := State.step L

def halting (L : Layout) : Spec sig Ram := execSpec (S := sig) (exec L) (fun _ => True)

instance (L : Layout) : Grants L (halting L) where
  mono := execSpec_mono (S := sig) (exec L) _
  of_safe o r Q h := by
    simp only [safe, halting, execSpec] at h ⊢
    split
    · next he => rwa [he] at h
    · trivial
  kalloc _ _ hnone hsome := execSpec_kalloc hnone hsome

theorem halts_halting (L : Layout) : Halts (halting L) := fun _ _ _ => trivial

theorem of_run {α : Type} {m : Code α} {r r' : Ram} {a : α} {Q : α → Ram → Prop} (h : wp (halting L) m r Q) (hr : run (exec L) m r = .ok (a, r')) :
    Q a r' := by
  have hrun := (wp_execSpec (S := sig) (exec L) _ m r Q).mp h
  rwa [hr] at hrun

def Room (L : Layout) (E : Set ℕ) (r : Ram) : Option Proc → Prop
  | none => Idle L E r
  | some p => Sized L E r p.pgdir p.sz

structure Inv (L : Layout) (s : State ι) : Prop where
  frames : ∀ f ∈ s.kept, f ∈ L.frames
  idle : Idle L (s.taken none) s.ram
  sized : ∀ i p, s.proc i = some p → Sized L (s.taken (some i)) s.ram p.pgdir p.sz

namespace Inv

variable {s t : State ι} {i j : ι} {p : Proc}

theorem taken_union (hp : s.proc i = some p) : s.taken (some i) ∪ owned s.ram p.pgdir = s.taken none := by
  rw [State.taken, Set.union_assoc]
  congr 1
  ext f
  simp only [State.spaces, Set.mem_union, Set.mem_ofPred_eq]
  grind

theorem taken_of_none (hj : s.proc j = none) : s.taken (some j) = s.taken none := by
  unfold State.taken
  congr 1
  ext f
  simp only [State.spaces, Set.mem_ofPred_eq]
  grind

theorem owned_congr {r : Ram} (h : ∀ f ∈ owned s.ram p.pgdir, r.page f = s.ram.page f) : owned r p.pgdir = owned s.ram p.pgdir := by
  unfold owned
  rw [(Ram.SameTables.of_refs (fun x f hx => h f ⟨x, hx⟩)).refs]

theorem not_kept (h : Inv L s) (o : Option ι) : ∀ f ∈ s.spaces o, f ∉ s.kept := by
  rintro f ⟨k, p, -, hp, x, hx⟩ hf
  exact ((h.sized k p hp).space.mem hx).2 (.inl hf)

theorem change (h : Inv L s) (o : Option ι) (hframes : ∀ f ∈ t.kept, f ∈ L.frames) (hproc : ∀ k, o ≠ some k → t.proc k = s.proc k)
    (hpage : ∀ f ∈ s.spaces o, t.ram.page f = s.ram.page f ∧ f ∉ t.kept) (hroom : Room L (↑t.kept ∪ s.spaces o) t.ram (o.bind t.proc)) :
    Inv L t ∧ ∀ k p, o ≠ some k → s.proc k = some p → t.proc k = some p ∧ t.ram.user p.pgdir = s.ram.user p.pgdir := by
  have hsame : ∀ k p, o ≠ some k → s.proc k = some p → ∀ f ∈ owned s.ram p.pgdir, t.ram.page f = s.ram.page f :=
    fun k p hk hp f hf => (hpage f ⟨k, p, hk, hp, hf⟩).1
  have hspaces : t.spaces o = s.spaces o := by
    ext f
    refine exists_congr (fun k => exists_congr (fun p => and_congr_right (fun hk => ?_)))
    rw [hproc k hk]
    exact and_congr_right (fun hp => by rw [owned_congr (hsame k p hk hp)])
  rw [← hspaces] at hroom
  have hnew : ∀ k p, o = some k → t.proc k = some p → Sized L (t.taken o) t.ram p.pgdir p.sz := by
    rintro k p rfl hp
    rw [Option.bind_some, hp] at hroom
    exact hroom
  have hidle : Idle L (t.taken none) t.ram := by
    cases ho : o.bind t.proc with
    | none =>
      rw [ho] at hroom
      cases o with
      | none => exact hroom
      | some j => exact taken_of_none ho ▸ hroom
    | some p =>
      obtain ⟨j, rfl, hp⟩ := Option.bind_eq_some_iff.mp ho
      rw [← taken_union hp]
      exact (hnew j p rfl hp).space.idle
  refine ⟨⟨hframes, hidle, fun k p hp => ?_⟩,
    fun k p hk hp => ⟨(hproc k hk).trans hp, Ram.user_congr (fun x f hx => hsame k p hk hp f ⟨x, hx⟩)⟩⟩
  by_cases hk : o = some k
  · exact hk ▸ hnew k p hk hp
  · have hp' : s.proc k = some p := (hproc k hk).symm.trans hp
    have hs := h.sized k p hp'
    rw [← taken_union hp, owned_congr (hsame k p hk hp')] at hidle
    refine hs.of_idle hidle (fun x f hx => hsame k p hk hp' f ⟨x, hx⟩) (fun f hf => ?_)
    have hfo : f ∈ s.spaces o := ⟨k, p, hk, hp', hf⟩
    rintro (hkept | ⟨m, q, hm, hq, hfq⟩)
    · exact (hpage f hfo).2 hkept
    · by_cases hmo : o = some m
      · obtain ⟨y, hy⟩ := hfq
        exact ((hnew m q hmo hq).space.mem hy).2 (.inr (hspaces ▸ hfo))
      · rw [hproc m hmo] at hq
        rw [owned_congr (hsame m q hmo hq)] at hfq
        obtain ⟨x, hx⟩ := hf
        exact (hs.space.mem hx).2 (.inr ⟨m, q, hm, hq, hfq⟩)

theorem call {c : Call} [DecidableEq ι] (h : Inv L s) (hp : s.proc i = some p) (ha : c.allows s.proc i j = true) :
    wp (halting L) (c.code L p) s.ram (fun o r => Keeps L (s.taken (some j)) s.ram r ∧ Room L (s.taken (some j)) r o) := by
  have hs := h.sized i p hp
  cases c with
  | fork =>
    rw [taken_of_none (Option.isNone_iff_eq_none.mp ha), ← taken_union hp]
    refine wp_seq (wp_mono (grants_mono L) _ ?_ (copyuvm_spec hs.space.idle hs.space.apart (fun f ⟨x, hx⟩ => (hs.space.mem hx).1) hs.bound.le
      (fun _ _ => .inr (halts_halting L))))
    rintro x r1 ⟨hkeep, ⟨rfl, hidle, -⟩ | ⟨d, rfl, hs1, hcopied⟩⟩
    · exact ⟨hkeep, hidle⟩
    · refine ⟨hkeep, hs1, hs.bound, fun v hv => ?_⟩
      rw [(hcopied v).2 (fun hm => absurd (lt_pages.mpr hm.2) (Nat.not_lt.mpr hv))]
  | growproc n =>
    obtain ⟨rfl, hn⟩ := of_decide_eq_true ha
    refine wp_seq (wp_mono (grants_mono L) _ ?_ (growproc_sized hs hn))
    rintro x r1 ⟨hd, hkeep, hs1⟩
    rw [← hd] at hs1
    exact ⟨hkeep, hs1⟩
  | exec file argv =>
    obtain ⟨rfl, hfile⟩ := of_decide_eq_true ha
    have hsub : ∀ d f, f ∉ L.frames \ s.taken (some j) → f ∉ L.frames \ (s.taken (some j) ∪ d) :=
      fun d f hf hm => hf ⟨hm.1, fun he => hm.2 (.inl he)⟩
    refine wp_seq (wp_mono (grants_mono L) _ ?_ (image_sized (halts_halting L) hfile hs.space.idle))
    rintro x r1 ⟨hkeep1, ⟨rfl, hidle⟩ | ⟨im, rfl, hs1⟩⟩
    · exact ⟨fun f hf => hkeep1 f (hsub _ f hf), hs.of_idle hidle (fun x f hx => hkeep1 f (fun hm => hm.2 (.inr ⟨x, hx⟩)))
        (fun f ⟨x, hx⟩ => (hs.space.mem hx).2)⟩
    · refine wp_seq (wp_mono (grants_mono L) _ ?_ (freevm_spec (hs.space.swap hs1.space hkeep1)))
      rintro _ r2 ⟨hidle, hkeep2⟩
      exact ⟨fun f hf => (hkeep2 f (hsub _ f hf)).trans (hkeep1 f (hsub _ f hf)),
        hs1.of_idle hidle (fun x f hx => hkeep2 f (fun hm => hm.2 (.inr ⟨x, hx⟩))) (fun f ⟨x, hx⟩ he => (hs1.space.mem hx).2 (.inl he))⟩
  | freevm =>
    obtain rfl := of_decide_eq_true ha
    refine wp_seq (wp_mono (grants_mono L) _ ?_ (freevm_spec hs.space))
    rintro _ r1 ⟨hidle, hkeep⟩
    exact ⟨hkeep, hidle⟩

theorem step [DecidableEq ι] {l : Label ι} (h : Inv L s) (hs : s.step L l = some t) :
    Inv L t ∧ ∀ k p, l.slot ≠ some k → s.proc k = some p → t.proc k = some p ∧ t.ram.user p.pgdir = s.ram.user p.pgdir := by
  have hother : ∀ {E : Set ℕ}, ∀ f ∈ E, f ∉ L.frames \ (↑s.kept ∪ E) := fun f hf hm => hm.2 (.inr hf)
  cases l with
  | call i j c =>
    simp only [State.step] at hs
    split at hs
    · cases hs
    · next p hp =>
      split_ifs at hs with ha
      split at hs
      · next o r hr =>
        cases hs
        obtain ⟨hk, hroom⟩ := of_run (h.call hp ha) hr
        refine h.change (some j) h.frames (fun k hkj => update_of_ne (fun e => hkj (congrArg some e.symm)) ..)
          (fun f hf => ⟨hk f (hother f hf), h.not_kept _ f hf⟩) ?_
        change Room L _ r (update s.proc j o j)
        rwa [update_self]
      · cases hs
  | store i v off bs =>
    simp only [State.step] at hs
    split at hs
    · cases hs
    · next f hf =>
      cases hs
      obtain ⟨p, hp, hx⟩ := Option.bind_eq_some_iff.mp hf
      have hs := h.sized i p hp
      have hst := Stored.write hs.space hx (overwrite (s.ram.page f) off bs)
      refine h.change (some i) h.frames (fun _ _ => rfl) (fun g hg => ⟨hst.keep g (hother g hg), h.not_kept _ g hg⟩) ?_
      rw [Option.bind_some, hp]
      refine ⟨hst.space, hs.bound, fun v hv => ?_⟩
      rw [← Option.not_isSome_iff_eq_none, Ram.user, hst.entry, Option.isSome_map, ← Option.isSome_map, ← Ram.user, hs.rest v hv]
      simp
  | kalloc =>
    have hkalloc : wp (halting L) (op .kalloc) s.ram
        (fun x r => x.elim (r.page = s.ram.page ∧ r.freelist = s.ram.freelist) (fun f => s.ram.Takes f r)) :=
      Grants.kalloc (L := L) s.ram _ (fun r hp hl _ => ⟨hp, hl⟩) (fun f r ht => ht)
    simp only [State.step] at hs
    split at hs
    case h_1 f r hr =>
      cases hs
      have ht := of_run hkalloc hr
      change s.ram.Takes f r at ht
      obtain ⟨hf, hn, hidle⟩ := h.idle.pop ht
      refine h.change none ?_ (fun _ _ => rfl) (fun g hg => ?_) ?_
      · exact fun g hg => (Finset.mem_insert.mp hg).elim (fun e => e ▸ hf) (h.frames g)
      · have hne : g ≠ f := fun e => hn (.inr (e ▸ hg))
        exact ⟨ht.page g hne, fun hm => (Finset.mem_insert.mp hm).elim hne (h.not_kept none g hg)⟩
      · rw [Finset.coe_insert, Set.insert_union]
        exact hidle
    case h_2 r hr =>
      cases hs
      obtain ⟨hp, hl⟩ := of_run hkalloc hr
      exact h.change none h.frames (fun _ _ => rfl) (fun f hf => ⟨congrFun hp f, h.not_kept none f hf⟩) (h.idle.congr hl)
    case h_3 => cases hs
  | kfree f =>
    simp only [State.step] at hs
    split_ifs at hs with hf
    cases hs
    have hne : ∀ g ∈ s.spaces none, g ≠ f := fun g hg e => h.not_kept none g hg (e ▸ hf)
    refine h.change none (fun g hg => h.frames g (Finset.mem_of_mem_erase hg)) (fun _ _ => rfl)
      (fun g hg => ⟨Ram.setPage_of_ne _ (hne g hg) _, fun hm => h.not_kept none g hg (Finset.mem_of_mem_erase hm)⟩)
      (Idle.push ?_ (h.frames f hf) ?_)
    · rw [← Set.insert_union, ← Finset.coe_insert, Finset.insert_erase hf]
      exact h.idle
    · rintro (hm | hm)
      · exact Finset.notMem_erase f s.kept hm
      · exact hne f hm rfl
  | kstore f off bs =>
    simp only [State.step] at hs
    split_ifs at hs with hf
    cases hs
    refine h.change none h.frames (fun _ _ => rfl) (fun g hg => ⟨Ram.setPage_of_ne _ ?_ _, h.not_kept none g hg⟩) (h.idle.congr rfl)
    rintro rfl
    exact h.not_kept none g hg hf

theorem start [DecidableEq ι] (hs : (machine L ι).initial s) : Inv L s := by
  obtain ⟨⟨i, p, hproc, hsized⟩, hkept⟩ := hs
  have hi : s.proc i = some p := by rw [hproc, update_self]
  have hnone : s.taken (some i) = ∅ := by
    ext f
    simp only [State.taken, State.spaces, hkept, hproc, Function.update_apply, Finset.coe_empty, Set.empty_union, Set.mem_ofPred_eq]
    grind
  refine ⟨by simp [hkept], ?_, fun k q hq => ?_⟩
  · rw [← taken_union hi, hnone]
    exact hsized.space.idle
  · have hk : k = i := by
      by_contra hk
      rw [hproc, update_of_ne hk] at hq
      cases hq
    subst hk
    obtain rfl := Option.some.inj (hi.symm.trans hq)
    rwa [hnone]

end Inv

variable [DecidableEq ι] {s : State ι}

theorem spaces_isolated (h : (machine L ι).Reachable s) :
    s.ram.freelist.Nodup ∧
    (∀ f ∈ L.frames, f ∉ s.ram.freelist ↔ f ∈ s.kept ∨ ∃ i p x, s.proc i = some p ∧ s.ram.refs p.pgdir x = some f) ∧
    (∀ i p x f, s.proc i = some p → s.ram.refs p.pgdir x = some f → f ∈ L.frames ∧ f ∉ s.kept ∧
      ∀ j q y, s.proc j = some q → s.ram.refs q.pgdir y = some f → j = i ∧ y = x) ∧
    ∀ l t, s.step L l = some t → ∀ k p, l.slot ≠ some k → s.proc k = some p →
      t.proc k = some p ∧ t.ram.user p.pgdir = s.ram.user p.pgdir := by
  have hi : Inv L s := h.invariant (fun s hs => .start hs) (fun s l t hi hs => (hi.step hs).1)
  refine ⟨hi.idle.nodup, fun f hf => ?_, fun i p x f hp hx => ?_, fun l t hs => (hi.step hs).2⟩
  · rw [hi.idle.mem_iff, Set.mem_sdiff, and_iff_right hf, not_not]
    refine or_congr_right ⟨?_, ?_⟩
    · rintro ⟨i, p, -, hp, x, hx⟩
      exact ⟨i, p, x, hp, hx⟩
    · rintro ⟨i, p, x, hp, hx⟩
      exact ⟨i, p, nofun, hp, x, hx⟩
  · have hs := (hi.sized i p hp).space
    obtain ⟨hf, hn⟩ := hs.mem hx
    refine ⟨hf, fun hk => hn (.inl hk), fun j q y hq hy => ?_⟩
    by_cases hij : j = i
    · subst hij
      obtain rfl := Option.some.inj (hp.symm.trans hq)
      exact ⟨rfl, hs.exact.inj hy hx⟩
    · exact absurd (.inr ⟨j, q, fun e => hij (Option.some.inj e).symm, hq, y, hy⟩) hn

def alone : State Bool := ⟨spare 56829 (fun _ => 7), update (fun _ => none) true (some ⟨4096, 57341⟩), ∅⟩

theorem alone_sized : Sized manyPages ∅ alone.ram 57341 4096 ∧ (alone.ram.user 57341 0).isSome := by
  have hE : ∀ f, f ∈ (∅ : Set ℕ) ↔ 512 + 56829 ≤ f ∧ f < 57341 := fun f => iff_of_false (Set.notMem_empty f) (by omega)
  obtain ⟨hspace, huser⟩ := spare_space (fun _ => 7) (by decide) hE
  refine ⟨⟨hspace, by decide, fun v hv => ?_⟩, ?_⟩
  · change 1 ≤ v at hv
    rw [alone, huser, update_of_ne (by omega)]
  · rw [alone, huser, update_self]
    rfl

theorem alone_copied : ∃ d r f, run (exec manyPages) (copyuvm manyPages 57341 4096) alone.ram = .ok (some d, r) ∧
    r.refs d (.user 0) = some f := by
  obtain ⟨hs, hpage⟩ := alone_sized
  have hpres : ∀ u, u * 4096 < 4096 → (alone.ram.user 57341 u).isSome := by
    intro u hu
    obtain rfl : u = 0 := by omega
    exact hpage
  have hfree : 1026 + pages 4096 < alone.ram.freelist.length := by
    change _ < (List.range' 512 56829).length
    rw [List.length_range']
    decide
  obtain ⟨d, r, hrun, -, hcopied⟩ := copyuvm_succeeds hs.space.idle hs.space.apart (fun f ⟨x, hx⟩ => (hs.space.mem hx).1)
    hs.bound.le hpres rfl hfree
  obtain ⟨f, w, m, -, hm⟩ := (hcopied 0).1 ⟨le_refl 0, by decide⟩
  exact ⟨d, r, _, hrun, (user_eq_some hm).2.2⟩

theorem reachable_fork {p : Proc} {s : State Bool} {d : ℕ} {r : Ram} (hs : (machine L Bool).Reachable s)
    (hp : s.proc true = some p) (hq : s.proc false = none)
    (hrun : run (exec L) (copyuvm L p.pgdir p.sz) s.ram = .ok (some d, r)) :
    ∃ t : State Bool, (machine L Bool).Reachable t ∧ t.ram = r ∧ t.proc true = some p ∧ t.proc false = some ⟨p.sz, d⟩ := by
  have hcode : run (exec L) (Call.code L p .fork) s.ram = .ok (some ⟨p.sz, d⟩, r) := by
    rw [Call.code, run_bind, hrun]
    rfl
  have hallows : Call.allows s.proc true false .fork = true := by rw [Call.allows, hq, Option.isNone_none]
  have hstep : s.step L (.call true false .fork) = some { s with ram := r, proc := update s.proc false (some ⟨p.sz, d⟩) } := by
    simp only [State.step, hp, hallows, hcode, if_true]
  have ht := Machine.Reachable.next (l := Label.call true false .fork) hs hstep
  refine ⟨_, ht, rfl, ?_, ?_⟩
  · change update s.proc false (some ⟨p.sz, d⟩) true = some p
    rw [update_of_ne (by decide), hp]
  · change update s.proc false (some ⟨p.sz, d⟩) false = some ⟨p.sz, d⟩
    rw [update_self]

theorem spaces_isolated_two : ∃ (s : State Bool) (p q : Proc), s.proc true = some p ∧ s.proc false = some q ∧
    (∀ x y f, s.ram.refs p.pgdir x = some f → s.ram.refs q.pgdir y ≠ some f) ∧
    ∃ t, s.step manyPages (.store false 0 0 [8]) = some t ∧ t.ram.user p.pgdir = s.ram.user p.pgdir := by
  obtain ⟨d, r, f, hrun, hf⟩ := alone_copied
  have hinit : (machine manyPages Bool).initial alone := ⟨⟨true, _, rfl, alone_sized.1⟩, rfl⟩
  obtain ⟨s, hs, rfl, hp, hq⟩ := reachable_fork (p := ⟨4096, 57341⟩) (.initial hinit) rfl rfl hrun
  obtain ⟨-, -, hone, hkept⟩ := spaces_isolated hs
  refine ⟨s, _, _, hp, hq, fun x y f hx hy => ?_, ?_⟩
  · exact absurd ((hone true _ x f hp hx).2.2 false _ y hq hy).1 (by decide)
  · have hstore : s.step manyPages (.store false 0 0 [8]) =
        some { s with ram := s.ram.setPage f (overwrite (s.ram.page f) 0 [8]) } := by
      simp only [State.step, hq, Option.bind_some, hf]
    exact ⟨_, hstore, (hkept _ _ hstore true _ (fun h => by cases h) hp).2⟩

end EnhancedXv6.Isolation
