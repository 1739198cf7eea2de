import EnhancedXv6.AddressSpaces

namespace EnhancedXv6.Vm

open Command Bytes Ownership

variable {L : Layout} {E : Set ℕ} {r r' : Ram} {p : Proc} {n : ℤ}

def Resident (r : Ram) (p : Proc) : Prop := ∀ v, (r.user p.pgdir v).isSome ↔ v < pages p.sz

structure Resized (r : Ram) (p : Proc) (n : ℤ) (r' : Ram) (p' : Proc) : Prop where
  size : (p'.sz : ℤ) = p.sz + n
  bound : p'.sz < KERNBASE
  resident : Resident r' p'
  kept : ∀ v < pages p.sz, v < pages p'.sz → r'.user p.pgdir v = r.user p.pgdir v
  zero : ∀ v < pages p'.sz, pages p.sz ≤ v → ∃ w, r'.user p.pgdir v = some (w, fun _ => 0)

theorem addInt_of_nonneg {sz : ℕ} (h0 : 0 ≤ sz + n) (h1 : sz + n < 0x100000000) : (addInt sz n : ℤ) = sz + n := by
  unfold addInt
  rw [Int.emod_eq_of_lt h0 h1, Int.toNat_of_nonneg h0]

theorem resident_grown {u' : ℕ → Option (UInt32 × Mem)} {sz : ℕ} (h : Resident r p) (hg : Grown (pages p.sz) sz (r.user p.pgdir) u')
    (hle : p.sz ≤ sz) (v : ℕ) : (u' v).isSome ↔ v < pages sz := by
  have hmono : pages p.sz ≤ pages sz := by
    unfold pages
    omega
  by_cases hv : pages p.sz ≤ v ∧ v * 4096 < sz
  · obtain ⟨f, hf⟩ := (hg v).1 hv
    rw [hf, lt_pages]
    exact iff_of_true rfl hv.2
  · rw [(hg v).2 hv, h v]
    rw [← lt_pages] at hv
    omega

theorem resident_cut {sz : ℕ} (h : Resident r p) (hle : sz ≤ p.sz) (v : ℕ) :
    (cut (r.user p.pgdir) (pages sz) p.sz v).isSome ↔ v < pages sz := by
  have hmono : pages sz ≤ pages p.sz := by
    unfold pages
    omega
  unfold cut
  split_ifs with hv
  · exact iff_of_false (by simp) (by omega)
  · rw [h v]
    rw [← lt_pages] at hv
    omega

theorem user_none_of_resident (h : Resident r p) {v : ℕ} (hv : pages p.sz ≤ v) : r.user p.pgdir v = none := by
  by_contra hne
  have := (h v).mp (Option.isSome_iff_ne_none.mpr hne)
  omega

theorem addInt_of_neg {sz : ℕ} (h0 : sz + n < 0) (h1 : -0x80000000 ≤ n) : 0x80000000 ≤ addInt sz n := by
  have hmod : ((sz + n) % 0x100000000 : ℤ) = sz + n + 0x100000000 := by omega
  unfold addInt
  omega

theorem growproc_spec (h : Space L E r p.pgdir) (hres : Resident r p) (hsz : p.sz < KERNBASE)
    (hn : -0x80000000 ≤ n ∧ n < 0x80000000) (hpos : n < 0 → 0 < p.sz + n ∨ p.sz = 0) :
    wp (safe L) (growproc p n) r (fun x r' => x.2.pgdir = p.pgdir ∧ Space L E r' p.pgdir ∧ Keeps L E r r' ∧
      (x.1 = 0 ∧ Resized r p n r' x.2 ∨ x.1 = -1 ∧ x.2 = p ∧ r'.user p.pgdir = r.user p.pgdir)) := by
  change p.sz < 0x80000000 at hsz
  refine wp_cond (fun h0 => ?_) (fun h0 => wp_cond (fun hneg => ?_) (fun hneg => ?_))
  · have hadd : (addInt p.sz n : ℤ) = p.sz + n := addInt_of_nonneg (by omega) (by omega)
    generalize addInt p.sz n = sz at hadd ⊢
    by_cases hlt : sz < 0x80000000
    · refine wp_seq (wp_mono (safe_mono L) _ ?_ (allocuvm_spec h hlt (by omega) (fun u hu _ => user_none_of_resident hres hu)))
      rintro x r1 ⟨h1, hturn, ⟨rfl, hgrown⟩ | ⟨rfl, huser, -⟩⟩
      · refine wp_cond (fun hz => by omega) (fun _ => ⟨rfl, h1, hturn.keep, .inl ⟨rfl, hadd, hlt, ?_, fun v hv _ => ?_, fun v hv hv' => ?_⟩⟩)
        · exact resident_grown hres hgrown (show p.sz ≤ x by omega)
        · exact (hgrown v).2 (by omega)
        · obtain ⟨f, hf⟩ := (hgrown v).1 ⟨hv', lt_pages.mp hv⟩
          exact ⟨_, hf⟩
      · exact wp_cond (fun _ => ⟨rfl, h1, hturn.keep, .inr ⟨rfl, rfl, huser⟩⟩) (fun hz => absurd rfl hz)
    · refine wp_seq (wp_cond (fun _ => ?_) (fun hge => absurd (Nat.le_of_not_lt hlt) hge))
      exact wp_cond (fun _ => ⟨rfl, h, .refl L E r, .inr ⟨rfl, rfl, rfl⟩⟩) (fun hz => absurd rfl hz)
  · obtain hpos | hzero := hpos hneg
    case inr =>
      -- the new size wraps to a number above the old one, and `deallocuvm` does nothing
      refine wp_seq (wp_cond (fun _ => ?_) (fun hlt => ?_))
      · exact wp_cond (fun _ => ⟨rfl, h, .refl L E r, .inr ⟨rfl, rfl, rfl⟩⟩) (fun hz => absurd hzero hz)
      · omega
    have hadd : (addInt p.sz n : ℤ) = p.sz + n := addInt_of_nonneg (by omega) (by omega)
    generalize addInt p.sz n = sz at hadd ⊢
    have hlt : sz < p.sz := by omega
    refine wp_seq (wp_mono (safe_mono L) _ ?_ (deallocuvm_spec h hlt hsz.le))
    rintro x r1 ⟨rfl, h1, hturn, huser⟩
    refine wp_cond (fun hz => by omega) (fun _ => ⟨rfl, h1, hturn.keep, .inl ⟨rfl, hadd, ?_, ?_, fun v _ hv => ?_, fun v hv hv' => ?_⟩⟩)
    · exact lt_trans hlt hsz
    · intro v
      change (r1.user p.pgdir v).isSome ↔ _
      rw [huser]
      exact resident_cut hres hlt.le v
    · rw [huser, cut, if_neg]
      exact fun hm => absurd hv (Nat.not_lt.mpr hm.1)
    · exfalso
      have hmono : pages x ≤ pages p.sz := by
        unfold pages
        omega
      change v < pages x at hv
      omega
  · refine ⟨rfl, h, .refl L E r, .inl ⟨rfl, show (p.sz : ℤ) = p.sz + n by omega, hsz, hres, fun _ _ _ => rfl, fun v hv hv' => ?_⟩⟩
    exact absurd hv (Nat.not_lt.mpr hv')

theorem growproc_sized {Φ : Spec sig Ram} [Grants L Φ] (h : Sized L E r p.pgdir p.sz) (hn : -0x80000000 ≤ n ∧ n < 0x80000000) :
    wp Φ (growproc p n) r (fun x r' => x.2.pgdir = p.pgdir ∧ Keeps L E r r' ∧ Sized L E r' p.pgdir x.2.sz) := by
  have hsz : p.sz < 0x80000000 := h.bound
  refine wp_cond (fun h0 => ?_) (fun h0 => wp_cond (fun hneg => ?_) (fun _ => ⟨rfl, .refl L E r, h⟩))
  · have hadd : (addInt p.sz n : ℤ) = p.sz + n := addInt_of_nonneg (by omega) (by omega)
    generalize addInt p.sz n = sz at hadd ⊢
    by_cases hlt : sz < 0x80000000
    · refine wp_seq (wp_mono (grants_mono L) _ ?_ (allocuvm_spec h.space hlt (by omega) (fun u hu _ => h.rest u hu)))
      rintro x r1 ⟨h1, hturn, ⟨rfl, hgrown⟩ | ⟨rfl, huser, -⟩⟩
      · refine wp_cond (fun hz => by omega) (fun _ => ⟨rfl, hturn.keep, h1, hlt, fun v hv => ?_⟩)
        change pages x ≤ v at hv
        have hmono : pages p.sz ≤ pages x := by
          unfold pages
          omega
        rw [(hgrown v).2 (fun hm => absurd (lt_pages.mpr hm.2) (Nat.not_lt.mpr hv))]
        exact h.rest v (hmono.trans hv)
      · refine wp_cond (fun _ => ⟨rfl, hturn.keep, h1, h.bound, fun v hv => ?_⟩) (fun hz => absurd rfl hz)
        rw [huser]
        exact h.rest v hv
    · refine wp_seq (wp_cond (fun _ => ?_) (fun hge => absurd (Nat.le_of_not_lt hlt) hge))
      exact wp_cond (fun _ => ⟨rfl, .refl L E r, h⟩) (fun hz => absurd rfl hz)
  · generalize addInt p.sz n = sz
    by_cases hge : sz ≥ p.sz
    · refine wp_seq (wp_cond (fun _ => ?_) (fun hlt => absurd hge hlt))
      exact wp_cond (fun _ => ⟨rfl, .refl L E r, h⟩) (fun _ => ⟨rfl, .refl L E r, h⟩)
    · have hlt : sz < p.sz := Nat.lt_of_not_le hge
      refine wp_seq (wp_mono (grants_mono L) _ ?_ (deallocuvm_spec h.space hlt hsz.le))
      rintro x r1 ⟨rfl, h1, hturn, huser⟩
      have hrest : ∀ v, pages x ≤ v → r1.user p.pgdir v = none := by
        intro v hv
        rw [huser, cut]
        split_ifs with hc
        · rfl
        · exact h.rest v (Nat.le_of_not_lt (fun hm => hc ⟨hv, lt_pages.mp hm⟩))
      have hmono : pages x ≤ pages p.sz := by
        unfold pages
        omega
      refine wp_cond (fun _ => ⟨rfl, hturn.keep, h1, h.bound, fun v hv => hrest v (hmono.trans hv)⟩) (fun _ => ⟨rfl, hturn.keep, h1, ?_, hrest⟩)
      exact lt_trans hlt h.bound

theorem growproc_frees (h : Space L E r p.pgdir) (hsz : p.sz < KERNBASE) (hneg : n < 0) (hzero : p.sz + n = 0) :
    wp (safe L) (growproc p n) r (fun x r' => x = (-1, p) ∧ r'.user p.pgdir 0 = none) := by
  have hadd : addInt p.sz n = 0 := by
    unfold addInt
    omega
  refine wp_cond (fun h0 => by omega) (fun _ => wp_cond (fun _ => ?_) (fun h0 => absurd hneg h0))
  rw [hadd]
  have hlt : 0 < p.sz := by omega
  refine wp_seq (wp_mono (safe_mono L) _ ?_ (deallocuvm_spec h hlt (le_of_lt hsz)))
  rintro x r1 ⟨rfl, -, -, huser⟩
  refine wp_cond (fun _ => ⟨rfl, ?_⟩) (fun hz => absurd rfl hz)
  rw [huser]
  exact if_pos ⟨le_refl 0, by omega⟩

theorem growproc_ignores (hsz : p.sz < KERNBASE) (hpos : 0 < p.sz) (hn : -0x80000000 ≤ n) (hneg : p.sz + n < 0) :
    wp (safe L) (growproc p n) r (fun x _ => x = (0, p)) := by
  change p.sz < 0x80000000 at hsz
  have hadd := addInt_of_neg hneg hn
  refine wp_cond (fun h0 => by omega) (fun _ => wp_cond (fun _ => ?_) (fun h0 => by omega))
  refine wp_seq (wp_cond (fun _ => ?_) (fun hlt => by omega))
  exact wp_cond (fun hz => by omega) (fun _ => rfl)

theorem growproc_exact (L : Layout) (E : Set ℕ) (r : Ram) (p : Proc) (n : ℤ) (h : Space L E r p.pgdir)
    (hres : Resident r p) (hsz : p.sz < KERNBASE) (hn : -0x80000000 ≤ n ∧ n < 0x80000000) :
    (∃ ret p' r', run (exec L) (growproc p n) r = .ok ((ret, p'), r') ∧ p'.pgdir = p.pgdir ∧
      Space L E r' p.pgdir ∧ Keeps L E r r' ∧
      (ret = 0 ∧ Resized r p n r' p' ∨ ret = -1 ∧ p' = p ∧ r'.user p.pgdir = r.user p.pgdir)) ↔
      (n < 0 → 0 < p.sz + n ∨ p.sz = 0) := by
  constructor
  · rintro ⟨ret, p', r', hrun, -, -, -, hx⟩ hneg
    by_contra hout
    rw [not_or] at hout
    obtain hzero | hlt := eq_or_lt_of_le (not_lt.mp hout.1)
    · -- all of the memory is freed, and the answer is -1
      obtain ⟨x, r1, hrun', rfl, huser⟩ := run_of_wp (growproc_frees h hsz hneg hzero)
      rw [hrun] at hrun'
      cases hrun'
      obtain ⟨hret, -⟩ | ⟨-, -, hkept⟩ := hx
      · exact absurd hret (by decide)
      · have hsome := (hres 0).mpr (lt_pages.mpr (Nat.pos_of_ne_zero hout.2))
        rw [← hkept, huser] at hsome
        cases hsome
    · -- nothing is freed, and the answer is 0
      obtain ⟨x, r1, hrun', rfl⟩ := run_of_wp (growproc_ignores (L := L) (r := r) hsz (by omega) hn.1 hlt)
      rw [hrun] at hrun'
      cases hrun'
      obtain ⟨-, hsized⟩ | ⟨hret, -⟩ := hx
      · have hsize := hsized.size
        omega
      · exact absurd hret (by decide)
  · intro hpos
    obtain ⟨x, r', hrun, hd, h', hkeep, hx⟩ := run_of_wp (growproc_spec h hres hsz hn hpos)
    exact ⟨x.1, x.2, r', hrun, hd, h', hkeep, hx⟩

theorem onePage_resident : Resident onePage ⟨4096, 57341⟩ := by
  intro v
  rw [onePage_space.2]
  by_cases e : v = 0
  · subst e
    exact iff_of_true rfl (by decide)
  · rw [Function.update_of_ne e]
    refine iff_of_false (by simp) ?_
    change ¬ v < 1
    omega

theorem growproc_exact_onePage : ∃ ret p' r', run (exec threePages) (growproc ⟨4096, 57341⟩ (-1)) onePage =
    .ok ((ret, p'), r') ∧ (ret = 0 ∧ Resized onePage ⟨4096, 57341⟩ (-1) r' p' ∨
      ret = -1 ∧ p' = ⟨4096, 57341⟩ ∧ r'.user 57341 = onePage.user 57341) := by
  obtain ⟨ret, p', r', hrun, -, -, -, hx⟩ := (growproc_exact threePages ∅ onePage ⟨4096, 57341⟩ (-1) onePage_space.1
    onePage_resident (by decide) (by decide)).mpr (fun _ => .inl (by decide))
  exact ⟨ret, p', r', hrun, hx⟩

theorem growproc_all : Space threePages ∅ onePage 57341 ∧ Resident onePage ⟨4096, 57341⟩ ∧
    (∃ r', run (exec threePages) (growproc ⟨4096, 57341⟩ (-4096)) onePage = .ok ((-1, ⟨4096, 57341⟩), r') ∧
      (onePage.user 57341 0).isSome ∧ r'.user 57341 0 = none) ∧
    run (exec threePages) (growproc ⟨4096, 57341⟩ (-4097)) onePage = .ok ((0, ⟨4096, 57341⟩), onePage) := by
  obtain ⟨x, r', hrun, rfl, huser⟩ := run_of_wp (growproc_frees (p := ⟨4096, 57341⟩) onePage_space.1 (by decide)
    (show (-4096 : ℤ) < 0 by decide) (by decide))
  refine ⟨onePage_space.1, onePage_resident, ⟨r', hrun, ?_, huser⟩, rfl⟩
  rw [onePage_space.2]
  rfl

end EnhancedXv6.Vm
