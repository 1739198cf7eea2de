import EnhancedXv6.AddressSpaces

namespace EnhancedXv6.Vm

open Command Bytes Ownership

def visitLoop (pgdir oldsz : ℕ) : ℕ → ℕ → Code Unit
  | 0, _ => op (.stop .loop)
  | fuel + 1, a =>
    if a < oldsz then do
      let pte ← walkpgdir pgdir a false
      match pte with
      | none => visitLoop pgdir oldsz fuel ((a + PGSIZE) % 0x100000000)
      | some (pgtab, j) =>
        let pte : UInt32 ← op (.word pgtab j)
        if pte &&& PTE_P ≠ 0 then
          if frame pte = 0 then op (.stop (.panic "kfree"))
          else
            op (.kfree (frame pte))
            op (.setWord pgtab j 0)
            visitLoop pgdir oldsz fuel ((a + PGSIZE) % 0x100000000)
        else visitLoop pgdir oldsz fuel ((a + PGSIZE) % 0x100000000)
    else pure ()

def visitAll (pgdir oldsz newsz : ℕ) : Code ℕ :=
  if newsz ≥ oldsz then pure oldsz
  else do
    visitLoop pgdir oldsz 0x100001 (PGROUNDUP newsz)
    pure newsz

section Visit

variable {L : Layout} {α : Type} {r : Ram} {d v oldsz newsz fuel : ℕ}

theorem run_word {f j : ℕ} (k : UInt32 → Code α) (hf : f * 4096 < PHYSTOP) :
    run (exec L) ((op (.word f j) : Code UInt32) >>= k) r = run (exec L) (k (word (r.page f) j)) r := by
  have he : exec L (.word f j) r = .ok (word (r.page f) j, r) := if_pos hf
  have hrun : run (exec L) (op (.word f j)) r = .ok (word (r.page f) j, r) := by
    unfold op Prog.call
    rw [run, he]
    rfl
  refine (run_bind (S := sig) (op (.word f j)) k r).trans ?_
  rw [hrun]
  rfl

theorem run_walk (k : Option (ℕ × ℕ) → Code α) (hd : d * 4096 < PHYSTOP) (hv : v < 1048576) :
    run (exec L) (walkpgdir d (v * 4096) false >>= k) r =
      if word (r.page d) (v / 1024) &&& PTE_P ≠ 0 then run (exec L) (k (some (frame (word (r.page d) (v / 1024)), v % 1024))) r
      else run (exec L) (k none) r := by
  have hwalk : run (exec L) (walkpgdir d (v * 4096) false) r =
      if word (r.page d) (v / 1024) &&& PTE_P ≠ 0 then .ok (some (frame (word (r.page d) (v / 1024)), v % 1024), r) else .ok (none, r) := by
    refine (run_word _ hd).trans ?_
    rw [pdx_eq (v := v) (by omega) hv, ptx_eq (v := v) (by omega)]
    by_cases hp : word (r.page d) (v / 1024) &&& PTE_P ≠ 0
    · rw [if_pos hp, if_pos hp]
      rfl
    · rw [if_neg hp, if_neg hp]
      rfl
  rw [run_bind, hwalk]
  split_ifs <;> rfl

theorem visit_skip {n : ℕ} (hd : d * 4096 < PHYSTOP) (hnone : word (r.page d) (v / 1024) &&& PTE_P = 0) (hn : v + n ≤ (v / 1024 + 1) * 1024)
    (hold : oldsz ≤ 0x80000000) : run (exec L) (visitLoop d oldsz (fuel + 1 + n) (v * 4096)) r = run (exec L) (visitLoop d oldsz (fuel + 1) ((v + n) * 4096)) r := by
  induction n generalizing v with
  | zero => rw [Nat.add_zero, Nat.add_zero v]
  | succ n ih =>
    by_cases hlt : v * 4096 < oldsz
    · have hnext : (v * 4096 + PGSIZE) % 0x100000000 = (v + 1) * 4096 := by
        change (v * 4096 + 4096) % 4294967296 = _
        omega
      rw [← Nat.add_assoc, visitLoop, if_pos hlt, run_walk _ hd (by omega), if_neg (not_not.mpr hnone), hnext]
      cases n with
      | zero => rw [Nat.add_zero, Nat.zero_add]
      | succ n =>
        have hsame : (v + 1) / 1024 = v / 1024 := by omega
        have hnone' : word (r.page d) ((v + 1) / 1024) &&& PTE_P = 0 := by simpa only [hsame] using hnone
        rw [ih hnone' (by omega), show v + 1 + (n + 1) = v + (n + 1 + 1) by omega]
    · have hge : ¬ (v + (n + 1)) * 4096 < oldsz :=
        Nat.not_lt.mpr ((Nat.le_of_not_lt hlt).trans (Nat.mul_le_mul_right 4096 (Nat.le_add_right v (n + 1))))
      rw [← Nat.add_assoc, visitLoop, visitLoop, if_neg hlt, if_neg hge]

theorem deallocuvmLoop_visits {fuel' : ℕ} (hd : d * 4096 < PHYSTOP) (hold : oldsz ≤ 0x80000000) (hv : v ≤ 524288) (hf : 524288 < fuel + v)
    (hf' : 524288 < fuel' + v) :
    run (exec L) (deallocuvmLoop d oldsz fuel (v * 4096)) r = run (exec L) (visitLoop d oldsz fuel' (v * 4096)) r := by
  induction fuel generalizing v fuel' r with
  | zero => omega
  | succ fuel ih =>
    obtain ⟨fuel', rfl⟩ : ∃ n, fuel' = n + 1 := Nat.exists_eq_succ_of_ne_zero (by omega)
    by_cases hlt : v * 4096 < oldsz
    · have hnext : (v * 4096 + PGSIZE) % 0x100000000 = (v + 1) * 4096 := by
        change (v * 4096 + 4096) % 4294967296 = _
        omega
      rw [deallocuvmLoop, if_pos hlt, run_walk _ hd (by omega)]
      by_cases hp : word (r.page d) (v / 1024) &&& PTE_P ≠ 0
      · rw [visitLoop, if_pos hlt, run_walk _ hd (by omega), if_pos hp, if_pos hp]
        -- both loops free the page if it is present
        refine run_bind_congr (fun pte t => ?_) _ r
        rw [hnext]
        refine run_cond_congr (fun _ => run_cond_congr (fun _ => rfl) (fun _ => ?_)) (fun _ => ih (by omega) (by omega) (by omega))
        refine run_bind_congr (fun _ t => ?_) _ t
        exact run_bind_congr (fun _ t => ih (by omega) (by omega) (by omega)) _ t
      · have hskip : (((PDX (v * 4096) + 1) * 4194304 % 0x100000000 + 0x100000000 - PGSIZE) % 0x100000000 + PGSIZE) % 0x100000000 =
            (v / 1024 + 1) * 1024 * 4096 := by
          rw [pdx_eq (v := v) (by omega) (by omega)]
          change (((v / 1024 + 1) * 4194304 % 4294967296 + 4294967296 - 4096) % 4294967296 + 4096) % 4294967296 = _
          omega
        obtain ⟨m, hm⟩ : ∃ m, fuel' + 1 = m + 1 + ((v / 1024 + 1) * 1024 - v) := ⟨fuel' - ((v / 1024 + 1) * 1024 - v), by omega⟩
        rw [if_neg hp, hm, visit_skip hd (not_not.mp hp) (by omega) hold, show v + ((v / 1024 + 1) * 1024 - v) = (v / 1024 + 1) * 1024 by omega]
        dsimp only
        rw [hskip]
        exact ih (by omega) (by omega) (by omega)
    · rw [deallocuvmLoop, visitLoop, if_neg hlt, if_neg hlt]

theorem deallocuvm_visits (hd : d * 4096 < PHYSTOP) (hnew : newsz ≤ 0x80000000) (hold : oldsz ≤ 0x80000000) :
    run (exec L) (deallocuvm d oldsz newsz) r = run (exec L) (visitAll d oldsz newsz) r := by
  unfold deallocuvm visitAll
  split_ifs
  · rfl
  · have hloop : run (exec L) (deallocuvmLoop d oldsz 0x100001 (pages newsz * 4096)) r = run (exec L) (visitLoop d oldsz 0x100001 (pages newsz * 4096)) r :=
      deallocuvmLoop_visits hd hold (pages_le hnew) (by omega) (by omega)
    rw [pgroundup_eq hnew, run_bind, run_bind, hloop]

end Visit

section Exact

variable {L : Layout} {E : Set ℕ} {r r' : Ram} {d f v lo size oldsz newsz : ℕ}

theorem refs_user (r : Ram) (d v : ℕ) : r.refs d (.user v) = (r.user d v).map (fun x => frame x.1) := by
  rw [Ram.user, Option.map_map]
  by_cases hp : v < 524288 ∧ r.entry d v &&& PTE_P ≠ 0
  · rw [show r.refs d (.user v) = some (frame (r.entry d v)) from if_pos hp, show target v (r.entry d v) = some (frame (r.entry d v)) from if_pos hp]
    rfl
  · rw [show r.refs d (.user v) = none from if_neg hp, show target v (r.entry d v) = none from if_neg hp]
    rfl

theorem pte_mod (f : ℕ) (perm : UInt32) : pte f perm = pte (f % 1048576) perm := by rw [pte, pte, V2P_mod]

theorem Grown.fresh (hg : Grown lo size (r.user d) (r'.user d)) (h : Space L E r d) (h' : Space L E r' d) (ht : Turn L E d r r')
    (hnone : ∀ v, lo ≤ v → v * 4096 < size → r.user d v = none) (hv : lo ≤ v ∧ v * 4096 < size) :
    ∃ f ∈ r.freelist, r'.user d v = some (pte f (PTE_W ||| PTE_U), fun _ => 0) := by
  obtain ⟨f, hf⟩ := (hg v).1 hv
  rw [pte_mod] at hf
  have hx : r'.refs d (.user v) = some (f % 1048576) := by
    rw [refs_user, hf, Option.map_some]
    exact congrArg some (frame_V2P_or (Nat.mod_lt f (by decide)) (by decide))
  refine ⟨f % 1048576, ?_, hf⟩
  generalize f % 1048576 = f at hx
  by_contra hfree
  obtain ⟨x, hxf⟩ := (h.exact.used_iff (h'.mem hx)).mp hfree
  -- what referred to the page before still does
  have hkeep : r'.refs d x = some f ∧ x ≠ .user v := by
    cases x with
    | dir => exact ⟨hxf, by rintro ⟨⟩⟩
    | table i => exact ⟨ht.table i f hxf, by rintro ⟨⟩⟩
    | user u =>
      have hu : ¬ (lo ≤ u ∧ u * 4096 < size) := by
        rintro ⟨h1, h2⟩
        rw [refs_user, hnone u h1 h2] at hxf
        cases hxf
      refine ⟨?_, ?_⟩
      · rw [refs_user, (hg u).2 hu, ← refs_user]
        exact hxf
      · rintro ⟨⟩
        exact hu hv
  exact hkeep.2 (h'.exact.inj hkeep.1 hx)

structure Mapped (r r' : Ram) (d oldsz newsz : ℕ) : Prop where
  new : ∀ v, PGROUNDUP oldsz ≤ v * PGSIZE → v * PGSIZE < newsz → ∃ f ∈ r.freelist, r'.user d v = some (pte f (PTE_W ||| PTE_U), fun _ => 0)
  old : ∀ v, v * PGSIZE < PGROUNDUP oldsz ∨ newsz ≤ v * PGSIZE → r'.user d v = r.user d v

structure Unmapped (L : Layout) (E : Set ℕ) (r r' : Ram) (d oldsz newsz : ℕ) : Prop where
  gone : ∀ v, PGROUNDUP newsz ≤ v * PGSIZE → v * PGSIZE < oldsz → r'.user d v = none
  stay : ∀ v, v * PGSIZE < PGROUNDUP newsz ∨ oldsz ≤ v * PGSIZE → r'.user d v = r.user d v
  free : r'.freelist = (framesOf (r.user d) (PGROUNDUP newsz / PGSIZE) oldsz).reverse ++ r.freelist
  nodup : r'.freelist.Nodup
  table : r'.table d = r.table d
  others : ∀ f, f ∉ L.frames \ E → r'.page f = r.page f

theorem pgroundup_div (h : newsz ≤ 0x80000000) : PGROUNDUP newsz / PGSIZE = pages newsz := by
  rw [pgroundup_eq h]
  exact Nat.mul_div_cancel _ (by decide)

theorem pages_le_iff (h : newsz ≤ 0x80000000) : pages newsz ≤ v ↔ PGROUNDUP newsz ≤ v * PGSIZE := by
  rw [pgroundup_eq h]
  exact (Nat.mul_le_mul_right_iff (by decide)).symm

theorem Trimmed.unmapped (h : Trimmed L E d (pages newsz) oldsz r r') (hnew : newsz ≤ 0x80000000) : Unmapped L E r r' d oldsz newsz := by
  refine ⟨fun v h1 h2 => ?_, fun v hv => ?_, ?_, h.space.nodup, h.table, h.turn.keep⟩
  · rw [h.user, cut, if_pos ⟨(pages_le_iff hnew).mpr h1, h2⟩]
  · rw [h.user, cut, if_neg]
    rintro ⟨h1, h2⟩
    exact hv.elim (Nat.not_lt.mpr ((pages_le_iff hnew).mp h1)) (Nat.not_le.mpr h2)
  · rw [pgroundup_div hnew]
    exact h.free

theorem allocuvm_deallocuvm_exact (h : Space L E r d) :
    (∀ oldsz newsz, oldsz ≤ newsz → newsz < KERNBASE → (∀ v, PGROUNDUP oldsz ≤ v * PGSIZE → v * PGSIZE < newsz → r.user d v = none) →
      ∃ x r', run (exec L) (allocuvm d oldsz newsz) r = .ok (x, r') ∧ Space L E r' d ∧
        (x = newsz ∧ Mapped r r' d oldsz newsz ∨ x = 0 ∧ r'.user d = r.user d)) ∧
    (∀ newsz oldsz, newsz ≤ oldsz → oldsz ≤ KERNBASE →
      ∃ r', run (exec L) (deallocuvm d oldsz newsz) r = .ok (newsz, r') ∧ run (exec L) (visitAll d oldsz newsz) r = .ok (newsz, r') ∧
        Space L E r' d ∧ Unmapped L E r r' d oldsz newsz) := by
  refine ⟨fun oldsz newsz hle hnew hnone => ?_, fun newsz oldsz hle hold => ?_⟩
  · have hold : oldsz ≤ 0x80000000 := hle.trans hnew.le
    have hnone' : ∀ v, pages oldsz ≤ v → v * 4096 < newsz → r.user d v = none := fun v h1 h2 => hnone v ((pages_le_iff hold).mp h1) h2
    obtain ⟨x, r1, hrun, h1, hturn, hx⟩ := run_of_wp (allocuvm_spec (Φ := safe L) h hnew hle hnone')
    refine ⟨x, r1, hrun, h1, hx.imp (And.imp_right (fun hg => ⟨fun v h2 h3 => ?_, fun v hv => ?_⟩)) (And.imp_right And.left)⟩
    · exact hg.fresh h h1 hturn hnone' ⟨(pages_le_iff hold).mpr h2, h3⟩
    · refine (hg v).2 ?_
      rintro ⟨h2, h3⟩
      exact hv.elim (Nat.not_lt.mpr ((pages_le_iff hold).mp h2)) (Nat.not_le.mpr h3)
  · have hnew : newsz ≤ 0x80000000 := hle.trans hold
    have hd : d * 4096 < PHYSTOP := (h.mem (x := .dir) rfl).1.2
    obtain ⟨x, r1, hrun, rfl, h1⟩ := run_of_wp (deallocuvm_trims (Φ := safe L) h hle hold)
    refine ⟨r1, hrun, ?_, h1.space, h1.unmapped hnew⟩
    rw [← deallocuvm_visits hd hnew hold]
    exact hrun

theorem allocuvm_deallocuvm_exact_onePage : ∃ r', run (exec threePages) (deallocuvm 57341 4096 0) onePage = .ok (0, r') ∧
    Unmapped threePages ∅ onePage r' 57341 4096 0 ∧ r'.freelist = [57343] := by
  obtain ⟨r', hrun, -, -, h⟩ := (allocuvm_deallocuvm_exact onePage_space.1).2 0 4096 (by decide) (by decide)
  refine ⟨r', hrun, h, ?_⟩
  rw [h.free, onePage_space.2]
  rfl

end Exact

end EnhancedXv6.Vm
