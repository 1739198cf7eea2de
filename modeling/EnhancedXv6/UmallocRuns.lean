import EnhancedXv6.UmallocSound

namespace EnhancedXv6.Umalloc

open Transition Machine SortedCycle Tiling Heap

variable {base b p c nunits limit fuel : ℕ} {h h' : Heap} {F L : Finset ℕ} {rs : List (Option ℕ)} {s : State}

section Fuel

variable {limit' fuel' q : ℕ} {x : Heap × ℕ}

theorem search_mono (hs : h.search b fuel p = some q) (hf : fuel ≤ fuel') : h.search b fuel' p = some q := by
  induction fuel generalizing p fuel' with
  | zero => cases hs
  | succ fuel ih =>
    obtain ⟨fuel', rfl⟩ : ∃ k, fuel' = k + 1 := ⟨fuel' - 1, by omega⟩
    rw [Heap.search] at hs ⊢
    split_ifs at hs ⊢
    · exact hs
    · exact hs
    · exact ih hs (by omega)

theorem free_mono (hs : h.free fuel b = some h') (hf : fuel ≤ fuel') : h.free fuel' b = some h' := by
  obtain ⟨p, hp, rfl⟩ := Option.map_eq_some_iff.mp hs
  rw [Heap.free, search_mono hp hf]
  rfl

theorem morecore_mono {r : Option ℕ} (hs : h.morecore limit nunits r = some x) (hl : limit ≤ limit') : h.morecore limit' nunits r = some x := by
  cases r with
  | none => exact hs
  | some r =>
    obtain ⟨h', hh, rfl⟩ := Option.map_eq_some_iff.mp hs
    rw [Heap.morecore, free_mono hh hl]
    rfl

theorem mallocLoop_mono (hs : mallocLoop limit nunits fuel rs p b h = some x) (hl : limit ≤ limit') (hf : fuel ≤ fuel') :
    mallocLoop limit' nunits fuel' rs p b h = some x := by
  induction fuel generalizing rs p b h fuel' with
  | zero => cases hs
  | succ fuel ih =>
    obtain ⟨fuel', rfl⟩ : ∃ k, fuel' = k + 1 := ⟨fuel' - 1, by omega⟩
    rw [mallocLoop] at hs ⊢
    split_ifs at hs ⊢
    · exact hs
    · obtain ⟨y, hy, hs⟩ := Option.bind_eq_some_iff.mp hs
      rw [morecore_mono hy hl, Option.bind_some]
      split_ifs at hs ⊢
      · exact hs
      · exact ih hs (by omega)
    · exact ih hs (by omega)

end Fuel

theorem mallocLoop_found (h0 : Sound base h L F) (hp : p ∈ F) (hc : c ∈ F) (hle : nunits ≤ h.size c)
    (hd : steps F (h.ptr p) c ≤ steps F (h.ptr p) h.freep) (hf : steps F (h.ptr p) c < fuel) :
    ∃ q ∈ F, nunits ≤ h.size (h.ptr q) ∧ mallocLoop limit nunits fuel rs p (h.ptr p) h = some (h.take nunits q (h.ptr q)) := by
  induction fuel generalizing p with
  | zero => exact absurd hf (Nat.not_lt_zero _)
  | succ fuel ih =>
    have hq := (h0.cycle p hp).mem
    rw [mallocLoop]
    by_cases hn : nunits ≤ h.size (h.ptr p)
    · exact ⟨p, hp, hn, if_pos hn⟩
    have hne : h.ptr p ≠ c := by
      rintro rfl
      exact hn hle
    have hstep := h0.cycle.steps_next hq hc hne
    have hfreep : h.ptr p ≠ h.freep := by
      intro e
      rw [← e, steps_self] at hd
      omega
    have hstep' := h0.cycle.steps_next hq h0.freep_mem hfreep
    rw [if_neg hn, if_neg hfreep]
    exact ih hq (by omega) (by omega)

theorem mallocLoop_none (h0 : Sound base h L F) (hp : p ∈ F) (hsmall : ∀ c ∈ F, h.size c < nunits)
    (hf : steps F (h.ptr p) h.freep < fuel) :
    mallocLoop limit nunits fuel rs p (h.ptr p) h = (h.morecore limit nunits rs.head?.join).bind (fun x =>
      if x.2 = 0 then some (x.1, 0)
      else mallocLoop limit nunits (fuel - steps F (h.ptr p) h.freep - 1) rs.tail x.2 (x.1.ptr x.2) x.1) := by
  induction fuel generalizing p with
  | zero => exact absurd hf (Nat.not_lt_zero _)
  | succ fuel ih =>
    have hq := (h0.cycle p hp).mem
    rw [mallocLoop, if_neg (not_le.mpr (hsmall _ hq))]
    by_cases hfreep : h.ptr p = h.freep
    · rw [if_pos hfreep, hfreep, steps_self]
      rfl
    · have hstep := h0.cycle.steps_next hq h0.freep_mem hfreep
      rw [if_neg hfreep, ih hq (by omega)]
      have hfuel : fuel - steps F (h.ptr (h.ptr p)) h.freep - 1 = fuel + 1 - steps F (h.ptr p) h.freep - 1 := by omega
      rw [hfuel]

theorem mallocLoop_take (h0 : Sound base h L F) (hn : 0 < nunits) (hlarge : ∃ c ∈ F, nunits ≤ h.size c) (hf : F.card ≤ fuel) :
    ∃ h' a, mallocLoop limit nunits fuel rs h.freep (h.ptr h.freep) h = some (h', a) ∧ Taken base h L nunits h' a := by
  obtain ⟨c, hc, hle⟩ := hlarge
  have hlt := steps_lt_card (h0.cycle _ h0.freep_mem).mem c
  obtain ⟨q, hq, hle', hloop⟩ := @mallocLoop_found base _ c nunits limit fuel h F L rs h0 h0.freep_mem hc hle
    (h0.cycle.steps_le h0.freep_mem c) (lt_of_lt_of_le hlt hf)
  exact ⟨_, _, hloop, take_spec h0 hq hn hle'⟩

theorem mallocLoop_spec (h0 : Sound base h L F) (hbase : 0 < base) (hn : 0 < nunits) (hf : 2 * F.card + 2 ≤ fuel)
    (hr : ∀ r, rs.head? = some (some r) → Region base h r (8 * coreUnits nunits)) :
    ∃ h' a, mallocLoop fuel nunits fuel rs h.freep (h.ptr h.freep) h = some (h', a) ∧
      (a = 0 ∧ h' = h ∨ Taken base h L nunits h' a) := by
  by_cases hlarge : ∃ c ∈ F, nunits ≤ h.size c
  · obtain ⟨h', a, hloop, ht⟩ := mallocLoop_take h0 hn hlarge (show F.card ≤ fuel by omega)
    exact ⟨h', a, hloop, .inr ht⟩
  have hsmall : ∀ c ∈ F, h.size c < nunits := fun c hc => not_le.mp (fun hle => hlarge ⟨c, hc, hle⟩)
  have hlt := steps_lt_card (h0.cycle _ h0.freep_mem).mem h.freep
  rw [mallocLoop_none h0 h0.freep_mem hsmall (by omega)]
  cases hs : rs.head?.join with
  | none => exact ⟨h, 0, rfl, .inl ⟨rfl, rfl⟩⟩
  | some r =>
    obtain ⟨h1, F1, hmore, h1s, hcard, hlarge, -, hlive⟩ := morecore_spec h0 (hr r (Option.join_eq_some_iff.mp hs)) (show F.card ≤ fuel by omega)
    obtain ⟨h', a, hloop, ht⟩ := @mallocLoop_take base nunits fuel _ h1 F1 L rs.tail h1s hn hlarge
      (show F1.card ≤ fuel - steps F (h.ptr h.freep) h.freep - 1 by omega)
    refine ⟨h', a, ?_, .inr ⟨ht.sound, ht.new, ht.ne_zero, ht.size, fun c hc => (ht.live c hc).trans (hlive c hc)⟩⟩
    rw [hmore, Option.bind_some, if_neg (h1s.ne_zero hbase h1s.freep_mem)]
    exact hloop

structure Consistent (base : ℕ) (h : Heap) (s : State) : Prop where
  sound : ∃ F, Sound base h s.live F
  asked : ∀ b ∈ s.live, units (s.asked b) ≤ h.size b

theorem start_of_ne (hne : h.freep ≠ 0) : h.start base = h := if_neg hne

theorem start_obtained (h : Heap) (base : ℕ) : (h.start base).obtained = h.obtained := by
  unfold Heap.start
  split_ifs <;> rfl

theorem start_empty (base : ℕ) : Sound base (Heap.start {} base) ∅ {base} := by
  have hset : ({base} : Finset ℕ).erase base ∪ ∅ = ∅ := by simp
  have hmem : (Heap.start {} base).memory = ∅ := by
    ext x
    simp [Heap.memory, Heap.start]
  refine ⟨⟨Finset.mem_singleton_self base, Function.update_self .., ?_, ?_, Finset.disjoint_empty_right _, ?_⟩, Finset.mem_singleton_self base, ?_⟩
  · refine (cycle_singleton base).congr (fun a ha => ?_)
    rw [Finset.mem_singleton.mp ha]
    exact Function.update_self ..
  · rw [hset, hmem]
    exact tiles_empty _
  · intro x hx
    rw [hmem] at hx
    exact absurd hx (Set.notMem_empty x)
  · intro a ha
    obtain ⟨hne, ha⟩ := Finset.mem_erase.mp ha
    exact absurd (Finset.mem_singleton.mp ha) hne

structure Ready (base : ℕ) (s : State) : Prop where
  base_pos : 0 < base
  consistent : Consistent base (s.heap.start base) s
  started : s.heap.freep = 0 → s.live = ∅

theorem Consistent.ready (hs : Consistent base s.heap s) (hbase : 0 < base) : Ready base s := by
  obtain ⟨F, hF⟩ := hs.sound
  have hne := hF.ne_zero hbase hF.freep_mem
  exact ⟨hbase, by rwa [start_of_ne hne], fun e => absurd e hne⟩

theorem ready_empty (hbase : 0 < base) : Ready base {} :=
  ⟨hbase, ⟨⟨_, start_empty base⟩, fun b hb => absurd hb (Finset.notMem_empty b)⟩, fun _ => rfl⟩

theorem Ready.malloc (hs : Ready base s) (nbytes : ℕ) (hfresh : Fresh base s (.malloc nbytes rs 0))
    (hclear : Clear base (.malloc nbytes rs 0)) :
    ∃ N, ∀ fuel ≥ N, ∃ t, s.step base (.malloc nbytes rs fuel) = some t ∧ Consistent base t.heap t ∧
      (t.live = s.live ∨ ∃ b ∉ s.live, t.live = insert b s.live) := by
  obtain ⟨F, hF⟩ := hs.consistent.sound
  have hmem : (s.heap.start base).memory = s.heap.memory := by
    unfold Heap.memory
    rw [start_obtained]
  have hr : ∀ r, rs.head? = some (some r) → Region base (s.heap.start base) r (8 * coreUnits (units nbytes)) := by
    intro r hr
    refine ⟨?_, hclear r hr⟩
    rw [hmem]
    exact hfresh r hr
  refine ⟨2 * F.card + 2, fun fuel hfuel => ?_⟩
  obtain ⟨h', a, hloop, hres⟩ := mallocLoop_spec hF hs.base_pos (units_pos nbytes) hfuel hr
  have hstep : s.step base (.malloc nbytes rs fuel) = some (if a = 0 then { s with heap := h' }
      else { heap := h', live := insert (a - 8) s.live, asked := Function.update s.asked (a - 8) nbytes }) := by
    rw [State.step, Heap.malloc, hloop]
    rfl
  refine ⟨_, hstep, ?_⟩
  obtain ⟨rfl, rfl⟩ | ht := hres
  · rw [if_pos rfl]
    exact ⟨⟨⟨F, hF⟩, hs.consistent.asked⟩, .inl rfl⟩
  · rw [if_neg ht.ne_zero]
    refine ⟨⟨ht.sound, fun b hb => ?_⟩, .inr ⟨a - 8, ht.new, rfl⟩⟩
    dsimp only at hb ⊢
    rcases Finset.mem_insert.mp hb with rfl | hb
    · rw [Function.update_self, ht.size]
    · have hne : b ≠ a - 8 := fun e => ht.new (e ▸ hb)
      rw [Function.update_of_ne hne, ht.live b hb]
      exact hs.consistent.asked b hb

theorem Ready.free {ap : ℕ} (hs : Ready base s) (hb : ap - 8 ∈ s.live) :
    ∃ N, ∀ fuel ≥ N, ∃ t, s.step base (.free ap fuel) = some t ∧ Consistent base t.heap t ∧ t.live ⊆ s.live := by
  have hne : s.heap.freep ≠ 0 := by
    intro e
    rw [hs.started e] at hb
    exact Finset.notMem_empty _ hb
  have hc := hs.consistent
  rw [start_of_ne hne] at hc
  obtain ⟨F, hF⟩ := hc.sound
  refine ⟨F.card, fun fuel hfuel => ?_⟩
  obtain ⟨h', F', hfree, hF'⟩ := free_spec hF hb hfuel
  have hap : s.heap.free fuel ap = s.heap.free fuel (ap - 8 + 8) := by
    rw [Heap.free, Heap.free, Nat.add_sub_cancel]
  refine ⟨{ s with heap := h', live := s.live.erase (ap - 8) }, ?_, ⟨⟨F', hF'.sound⟩, fun c hc' => ?_⟩, Finset.erase_subset _ _⟩
  · rw [State.step, if_pos hb, hap, hfree]
    rfl
  · rw [hF'.live c hc']
    exact hc.asked c (Finset.mem_of_mem_erase hc')

theorem Ready.step {t : State} {l : Label} (hs : Ready base s) (hfresh : Fresh base s l) (hclear : Clear base l)
    (hn : s.step base l = some t) :
    Consistent base t.heap t ∧ (t.live ⊆ s.live ∨ ∃ b ∉ s.live, t.live = insert b s.live) := by
  cases l with
  | malloc nbytes rs fuel =>
    obtain ⟨N, hN⟩ := hs.malloc nbytes hfresh hclear
    obtain ⟨u, hu, hc, hlive⟩ := hN (N + fuel) (by omega)
    obtain ⟨x, hx, rfl⟩ := Option.map_eq_some_iff.mp hn
    have hx' : s.heap.malloc base (N + fuel) nbytes rs = some x := mallocLoop_mono hx (by omega) (by omega)
    rw [State.step, hx'] at hu
    cases hu
    exact ⟨hc, hlive.imp_left (fun e => e.subset)⟩
  | free ap fuel =>
    rw [State.step] at hn
    split_ifs at hn with hb
    obtain ⟨N, hN⟩ := hs.free hb
    obtain ⟨u, hu, hc, hlive⟩ := hN (N + fuel) (by omega)
    obtain ⟨h', hh, rfl⟩ := Option.map_eq_some_iff.mp hn
    rw [State.step, if_pos hb, free_mono hh (show fuel ≤ N + fuel by omega)] at hu
    cases hu
    exact ⟨hc, .inl hlive⟩

theorem ready_of_reachable (hs : (machine base).ReachableWhere (fun s l => Fresh base s l ∧ Clear base l) s) : Ready base s := by
  apply hs.invariant
  · rintro s ⟨hbase, rfl⟩
    exact ready_empty hbase
  · intro s l t _ hr hc hn
    exact (hr.step hc.1 hc.2 hn).1.ready hr.base_pos

theorem le_of_units {n m : ℕ} (h : units n ≤ m) : n + 8 ≤ 8 * m := by
  unfold units at h
  omega

theorem allocator_sound {s : State} (hs : (machine base).ReachableWhere (fun s l => Fresh base s l ∧ Clear base l) s) :
    (∀ l t, Fresh base s l → Clear base l → (machine base).next s l = some t →
      (∃ F, base ∈ F ∧ Cycle F t.heap.ptr ∧ (∀ a ∈ F, ∃ k, t.heap.ptr^[k] t.heap.freep = a) ∧ (∀ k, t.heap.ptr^[k] t.heap.freep ∈ F) ∧
        Disjoint F t.live ∧ Tiles (F.erase base ∪ t.live) (fun a => 8 * t.heap.size a) t.heap.memory ∧
        ∀ a ∈ F.erase base, a + 8 * t.heap.size a ∉ F.erase base) ∧
      (∀ b ∈ t.live, t.asked b + 8 ≤ 8 * t.heap.size b) ∧
      (t.live ⊆ s.live ∨ ∃ b ∉ s.live, t.live = insert b s.live)) ∧
    (∀ nbytes rs, Fresh base s (.malloc nbytes rs 0) → Clear base (.malloc nbytes rs 0) →
      ∃ N, ∀ fuel ≥ N, ((machine base).next s (.malloc nbytes rs fuel)).isSome) ∧
    ∀ ap, ap - 8 ∈ s.live → ∃ N, ∀ fuel ≥ N, ((machine base).next s (.free ap fuel)).isSome := by
  have hr := ready_of_reachable hs
  refine ⟨fun l t hfresh hclear hn => ?_, fun nbytes rs hfresh hclear => ?_, fun ap hb => ?_⟩
  · obtain ⟨⟨⟨F, hF⟩, hasked⟩, hlive⟩ := hr.step hfresh hclear hn
    refine ⟨⟨F, hF.base_mem, hF.cycle, fun a ha => ⟨_, hF.cycle.iterate hF.freep_mem ha⟩, fun k => ?_, hF.disjoint, hF.tiles,
      fun a ha => hF.coalesced a ha (Finset.notMem_empty a)⟩, fun b hb => le_of_units (hasked b hb), hlive⟩
    induction k with
    | zero => exact hF.freep_mem
    | succ k ih =>
      rw [Function.iterate_succ_apply']
      exact (hF.cycle _ ih).mem
  · obtain ⟨N, hN⟩ := hr.malloc nbytes hfresh hclear
    refine ⟨N, fun fuel hf => ?_⟩
    obtain ⟨t, ht, -⟩ := hN fuel hf
    exact Option.isSome_of_eq_some ht
  · obtain ⟨N, hN⟩ := hr.free hb
    refine ⟨N, fun fuel hf => ?_⟩
    obtain ⟨t, ht, -⟩ := hN fuel hf
    exact Option.isSome_of_eq_some ht

theorem fresh_of_obtained {r nbytes : ℕ}
    (h : ∀ o ∈ s.heap.obtained, o.1 + 8 * o.2 ≤ r ∨ r + 8 * coreUnits (units nbytes) ≤ o.1)
    (hb : base + 8 ≤ r ∨ r + 8 * coreUnits (units nbytes) ≤ base) : Fresh base s (.malloc nbytes (some r :: rs) fuel) := by
  rintro r ⟨⟩ x hl hx
  refine ⟨?_, by omega⟩
  rintro ⟨o, ho, hol, hor⟩
  have := h o ho
  omega

theorem allocator_sound_free : ∃ s t, (machine 8).ReachableWhere (fun s l => Fresh 8 s l ∧ Clear 8 l) s ∧
    (machine 8).next s (.free 32776 9) = some t ∧ s.live = {32768} ∧ t.live = ∅ ∧
    ∃ F, 8 ∈ F ∧ Cycle F t.heap.ptr ∧ Tiles (F.erase 8 ∪ t.live) (fun a => 8 * t.heap.size a) t.heap.memory := by
  have hclear : Clear 8 (.malloc 1 [some 16] 9) := by
    rintro r ⟨⟩
    decide
  have hs : (machine 8).ReachableWhere (fun s l => Fresh 8 s l ∧ Clear 8 l) _ :=
    .step (.initial ⟨by decide, rfl⟩) (l := .malloc 1 [some 16] 9) ⟨fresh_of_obtained (by decide) (by decide), hclear⟩ rfl
  refine ⟨_, _, hs, rfl, rfl, rfl, ?_⟩
  obtain ⟨⟨F, hbase, hcycle, -, -, -, htiles, -⟩, -⟩ := (allocator_sound hs).1 (.free 32776 9) _ trivial trivial rfl
  exact ⟨F, hbase, hcycle, htiles⟩

theorem list_loses_blocks :
    (∃ s, (machine 80000).ReachableWhere (Fresh 80000) s ∧ s.heap.freep = 8 ∧ ∀ k, s.heap.ptr^[k] 8 ≠ 80000) ∧
    ∃ s, (machine 80000).ReachableWhere (Fresh 80000) s ∧ s.live = ∅ ∧ 0 ∈ s.heap.memory ∧
      ∀ k, s.heap.ptr^[k] s.heap.freep = 80000 := by
  refine ⟨⟨_, .step (.step (.initial ⟨by decide, rfl⟩) (l := .malloc 1 [some 8] 9) (fresh_of_obtained (by decide) (by decide)) rfl)
    (l := .malloc 32760 [some 47232] 9) (fresh_of_obtained (by decide) (by decide)) rfl, rfl, fun k => ?_⟩, ?_⟩
  · rw [Function.iterate_fixed rfl]
    decide
  -- `free` sets `freep` to the block at 0, which the next `malloc` takes for an empty list
  · have hfirst := Machine.ReachableWhere.step (C := Fresh 80000) (.initial (M := machine 80000) ⟨by decide, rfl⟩)
      (l := .malloc 1 [some 0] 9) (fresh_of_obtained (by decide) (by decide)) rfl
    refine ⟨_, .step (.step hfirst (l := .free 32760 9) trivial rfl) (l := .malloc 1 [none] 9) (by rintro r ⟨⟩) rfl,
      by decide, ⟨(0, 4096), by decide, by decide, by decide⟩, fun k => Function.iterate_fixed rfl k⟩

end EnhancedXv6.Umalloc
