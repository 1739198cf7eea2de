import Mathlib.Data.Finset.Card
import Mathlib.Data.Finset.Max
import Mathlib.Logic.Function.Iterate

namespace SortedCycle

variable {α : Type*} [LinearOrder α] {F : Finset α} {a b p q x : α} {next : α → α}

structure IsNext (F : Finset α) (a b : α) : Prop where
  mem : b ∈ F
  near : a < b ∧ (∀ c ∈ F, c ≤ a ∨ b ≤ c) ∨ ∀ c ∈ F, c ≤ a ∧ b ≤ c

def IsPred (F : Finset α) (p x : α) : Prop :=
  p ∈ F ∧ (p < x ∧ (∀ c ∈ F, c ≤ p ∨ x < c) ∨ ∀ c ∈ F, x < c ∧ c ≤ p)

def Cycle (F : Finset α) (next : α → α) : Prop := ∀ a ∈ F, IsNext F a (next a)

theorem Cycle.congr {next' : α → α} (h : Cycle F next) (he : ∀ a ∈ F, next' a = next a) : Cycle F next' := by
  intro a ha
  rw [he a ha]
  exact h a ha

theorem cycle_singleton (a : α) : Cycle {a} (fun _ => a) := by
  intro b hb
  rw [Finset.mem_singleton] at hb
  refine ⟨Finset.mem_singleton_self a, .inr (fun c hc => ?_)⟩
  rw [Finset.mem_singleton] at hc
  rw [hb, hc]
  exact ⟨le_refl a, le_refl a⟩

theorem exists_isPred (hF : F.Nonempty) (x : α) (hx : x ∉ F) : ∃ p, IsPred F p x := by
  by_cases h : (F.filter (· < x)).Nonempty
  · obtain ⟨hp, hlt⟩ := Finset.mem_filter.mp (Finset.max'_mem _ h)
    refine ⟨_, hp, .inl ⟨hlt, fun c hc => ?_⟩⟩
    rcases lt_trichotomy c x with hcx | rfl | hcx
    · exact .inl (Finset.le_max' _ c (Finset.mem_filter.mpr ⟨hc, hcx⟩))
    · exact absurd hc hx
    · exact .inr hcx
  · refine ⟨F.max' hF, Finset.max'_mem F hF, .inr (fun c hc => ⟨?_, Finset.le_max' F c hc⟩)⟩
    rcases lt_trichotomy c x with hcx | rfl | hcx
    · exact absurd ⟨c, Finset.mem_filter.mpr ⟨hc, hcx⟩⟩ h
    · exact absurd hc hx
    · exact hcx

theorem isPred_iff (hp : p ∈ F) (hq : IsNext F p q) (hx : x ∉ F) :
    (p < x ∧ x < q) ∨ (q ≤ p ∧ (p < x ∨ x < q)) ↔ IsPred F p x := by
  have hxp : x ≠ p := fun e => hx (e ▸ hp)
  have hxq : x ≠ q := fun e => hx (e ▸ hq.mem)
  constructor
  · intro h
    refine ⟨hp, ?_⟩
    obtain ⟨hpq, hnear⟩ | hwrap := hq.near
    · left
      have hpx : p < x ∧ x < q := by
        rcases h with h | ⟨h, -⟩
        · exact h
        · exact absurd h (not_le.mpr hpq)
      refine ⟨hpx.1, fun c hc => ?_⟩
      rcases hnear c hc with h | h
      · exact .inl h
      · exact .inr (lt_of_lt_of_le hpx.2 h)
    · have hpx : p < x ∨ x < q := by
        rcases h with h | h
        · exact .inl h.1
        · exact h.2
      rcases hpx with hpx | hpx
      · exact .inl ⟨hpx, fun c hc => .inl (hwrap c hc).1⟩
      · exact .inr (fun c hc => ⟨lt_of_lt_of_le hpx (hwrap c hc).2, (hwrap c hc).1⟩)
  · rintro ⟨-, ⟨hpx, hbelow⟩ | habove⟩
    · obtain ⟨hpq, -⟩ | hwrap := hq.near
      · rcases hbelow q hq.mem with h | h
        · exact absurd h (not_le.mpr hpq)
        · exact .inl ⟨hpx, h⟩
      · exact .inr ⟨(hwrap p hp).2, .inl hpx⟩
    · obtain ⟨hpq, -⟩ | hwrap := hq.near
      · exact absurd (habove q hq.mem).2 (not_le.mpr hpq)
      · exact .inr ⟨(hwrap p hp).2, .inr (habove q hq.mem).1⟩

theorem IsPred.isNext (h : IsPred F p x) (hq : IsNext F p q) : IsNext F x q := by
  refine ⟨hq.mem, ?_⟩
  obtain ⟨hp, ⟨hpx, hbelow⟩ | habove⟩ := h
  · obtain ⟨hpq, hnear⟩ | hwrap := hq.near
    · refine .inl ⟨(hbelow q hq.mem).resolve_left (not_le.mpr hpq), fun c hc => ?_⟩
      exact (hnear c hc).imp_left (fun hcp => hcp.trans hpx.le)
    · exact .inr (fun c hc => ⟨(hwrap c hc).1.trans hpx.le, (hwrap c hc).2⟩)
  · obtain ⟨hpq, -⟩ | hwrap := hq.near
    · exact absurd (habove q hq.mem).2 (not_le.mpr hpq)
    · exact .inl ⟨(habove q hq.mem).1, fun c hc => .inr (hwrap c hc).2⟩

theorem Cycle.insert_pred (h : Cycle F next) (hx : x ∉ F) (hp : IsPred F p x) :
    Cycle (insert x F) (Function.update (Function.update next p x) x (next p)) := by
  have hpF := hp.1
  have hxp : x ≠ p := fun e => hx (e ▸ hpF)
  intro a ha
  by_cases hax : a = x
  · subst hax
    rw [Function.update_self]
    have hq := hp.isNext (h p hpF)
    refine ⟨Finset.mem_insert_of_mem hq.mem, ?_⟩
    obtain ⟨hlt, hnear⟩ | hwrap := hq.near
    · refine .inl ⟨hlt, fun c hc => ?_⟩
      rcases Finset.mem_insert.mp hc with rfl | hc
      · exact .inl (le_refl c)
      · exact hnear c hc
    · refine .inr (fun c hc => ?_)
      rcases Finset.mem_insert.mp hc with rfl | hc
      · exact ⟨le_refl c, (hwrap _ hq.mem).1⟩
      · exact hwrap c hc
  have haF := (Finset.mem_insert.mp ha).resolve_left hax
  rw [Function.update_of_ne hax]
  by_cases hap : a = p
  · subst hap
    rw [Function.update_self]
    refine ⟨Finset.mem_insert_self x F, ?_⟩
    obtain ⟨-, ⟨hlt, hbelow⟩ | habove⟩ := hp
    · refine .inl ⟨hlt, fun c hc => ?_⟩
      rcases Finset.mem_insert.mp hc with rfl | hc
      · exact .inr (le_refl c)
      · exact (hbelow c hc).imp_right le_of_lt
    · refine .inr (fun c hc => ?_)
      rcases Finset.mem_insert.mp hc with rfl | hc
      · exact ⟨(habove a haF).1.le, le_refl c⟩
      · exact ⟨(habove c hc).2, (habove c hc).1.le⟩
  · rw [Function.update_of_ne hap]
    have hb := h a haF
    refine ⟨Finset.mem_insert_of_mem hb.mem, ?_⟩
    -- `x` has its place behind `p`, so not behind `a`
    obtain ⟨hlt, hnear⟩ | hwrap := hb.near
    · refine .inl ⟨hlt, fun c hc => ?_⟩
      rcases Finset.mem_insert.mp hc with rfl | hc
      · obtain ⟨-, ⟨hpc, hbelow⟩ | habove⟩ := hp
        · rcases hnear p hpF with hpa | hbp
          · exact .inl ((hbelow a haF).resolve_left (fun hle => hap (le_antisymm hle hpa))).le
          · exact .inr (hbp.trans hpc.le)
        · exact .inl (habove a haF).1.le
      · exact hnear c hc
    · refine .inr (fun c hc => ?_)
      rcases Finset.mem_insert.mp hc with rfl | hc
      · obtain ⟨-, ⟨hpc, hbelow⟩ | habove⟩ := hp
        · have hca := (hbelow a haF).resolve_left (fun hle => hap (le_antisymm hle (hwrap p hpF).1))
          exact ⟨hca.le, (hwrap p hpF).2.trans hpc.le⟩
        · exact absurd (le_antisymm (habove a haF).2 (hwrap p hpF).1) hap
      · exact hwrap c hc

theorem IsNext.unique_left (ha : IsNext F a q) (hb : IsNext F b q) (haF : a ∈ F) (hbF : b ∈ F) : a = b := by
  rcases ha.near with ⟨haq, hna⟩ | hwa
  · rcases hb.near with ⟨hbq, hnb⟩ | hwb
    · exact le_antisymm ((hnb a haF).resolve_right (not_le.mpr haq)) ((hna b hbF).resolve_right (not_le.mpr hbq))
    · exact absurd (hwb a haF).2 (not_le.mpr haq)
  · rcases hb.near with ⟨hbq, -⟩ | hwb
    · exact absurd (hwa b hbF).2 (not_le.mpr hbq)
    · exact le_antisymm (hwb a haF).1 (hwa b hbF).1

theorem Cycle.erase_next (h : Cycle F next) (hp : p ∈ F) (hne : next p ≠ p) :
    Cycle (F.erase (next p)) (Function.update next p (next (next p))) := by
  have hq := h p hp
  have hr := h (next p) hq.mem
  intro a ha
  obtain ⟨haq, haF⟩ := Finset.mem_erase.mp ha
  by_cases hap : a = p
  · subst hap
    rw [Function.update_self]
    have hrq : next (next a) ≠ next a := by
      intro e
      have hself := hr.near
      rw [e] at hself
      rcases hself with ⟨hlt, -⟩ | hw
      · exact lt_irrefl _ hlt
      · exact hne (le_antisymm (hw a haF).2 (hw a haF).1)
    refine ⟨Finset.mem_erase.mpr ⟨hrq, hr.mem⟩, ?_⟩
    rcases hq.near with ⟨hlt, hnear⟩ | hw
    · rcases hr.near with ⟨hlt', hnear'⟩ | hw'
      · refine .inl ⟨hlt.trans hlt', fun c hc => ?_⟩
        obtain ⟨hcq, hcF⟩ := Finset.mem_erase.mp hc
        rcases hnear c hcF with hca | hqc
        · exact .inl hca
        · exact .inr ((hnear' c hcF).resolve_left (fun hle => hcq (le_antisymm hle hqc)))
      · refine .inr (fun c hc => ?_)
        obtain ⟨hcq, hcF⟩ := Finset.mem_erase.mp hc
        exact ⟨(hnear c hcF).resolve_right (fun hle => hcq (le_antisymm (hw' c hcF).1 hle)), (hw' c hcF).2⟩
    · rcases hr.near with ⟨hlt', hnear'⟩ | hw'
      · refine .inr (fun c hc => ?_)
        obtain ⟨hcq, hcF⟩ := Finset.mem_erase.mp hc
        exact ⟨(hw c hcF).1, (hnear' c hcF).resolve_left (fun hle => hcq (le_antisymm hle (hw c hcF).2))⟩
      · exact absurd (le_antisymm (hw a haF).2 (hw' a haF).1) hne
  · rw [Function.update_of_ne hap]
    have hb := h a haF
    have hbq : next a ≠ next p := fun e => hap ((e ▸ hb).unique_left hq haF hp)
    refine ⟨Finset.mem_erase.mpr ⟨hbq, hb.mem⟩, ?_⟩
    rcases hb.near with ⟨hlt, hnear⟩ | hw
    · exact .inl ⟨hlt, fun c hc => hnear c (Finset.mem_of_mem_erase hc)⟩
    · exact .inr (fun c hc => hw c (Finset.mem_of_mem_erase hc))

section Steps

def steps (F : Finset α) (a t : α) : ℕ :=
  if a ≤ t then (F.filter (fun c => a < c ∧ c ≤ t)).card
  else (F.filter (a < ·)).card + (F.filter (· ≤ t)).card

theorem steps_self (F : Finset α) (a : α) : steps F a a = 0 := by
  rw [steps, if_pos (le_refl a), Finset.card_eq_zero, Finset.filter_eq_empty_iff]
  exact fun c _ h => absurd h.1 (not_lt.mpr h.2)

theorem Cycle.steps_next (h : Cycle F next) {t : α} (ha : a ∈ F) (ht : t ∈ F) (hat : a ≠ t) : steps F (next a) t + 1 = steps F a t := by
  have hq := h a ha
  rcases hq.near with ⟨hlt, hnear⟩ | hw
  · rcases lt_or_gt_of_ne hat with hat | hta
    · have hqt := (hnear t ht).resolve_left (not_le.mpr hat)
      have hset : F.filter (fun c => a < c ∧ c ≤ t) = insert (next a) (F.filter (fun c => next a < c ∧ c ≤ t)) := by
        ext c
        rw [Finset.mem_insert, Finset.mem_filter, Finset.mem_filter]
        constructor
        · rintro ⟨hc, hac, hct⟩
          rcases ((hnear c hc).resolve_left (not_le.mpr hac)).eq_or_lt with e | hlt
          · exact .inl e.symm
          · exact .inr ⟨hc, hlt, hct⟩
        · rintro (rfl | ⟨hc, hqc, hct⟩)
          · exact ⟨hq.mem, hlt, hqt⟩
          · exact ⟨hc, hlt.trans hqc, hct⟩
      rw [steps, steps, if_pos hqt, if_pos hat.le, hset, Finset.card_insert_of_notMem (by simp)]
    · have hset : F.filter (a < ·) = insert (next a) (F.filter (next a < ·)) := by
        ext c
        rw [Finset.mem_insert, Finset.mem_filter, Finset.mem_filter]
        constructor
        · rintro ⟨hc, hac⟩
          rcases ((hnear c hc).resolve_left (not_le.mpr hac)).eq_or_lt with e | hlt
          · exact .inl e.symm
          · exact .inr ⟨hc, hlt⟩
        · rintro (rfl | ⟨hc, hqc⟩)
          · exact ⟨hq.mem, hlt⟩
          · exact ⟨hc, hlt.trans hqc⟩
      rw [steps, steps, if_neg (not_le.mpr (hta.trans hlt)), if_neg (not_le.mpr hta), hset, Finset.card_insert_of_notMem (by simp),
        Nat.add_right_comm]
  · have hta : t < a := lt_of_le_of_ne (hw t ht).1 hat.symm
    have hnone : F.filter (a < ·) = ∅ := Finset.filter_eq_empty_iff.mpr (fun c hc => not_lt.mpr (hw c hc).1)
    have hset : F.filter (· ≤ t) = insert (next a) (F.filter (fun c => next a < c ∧ c ≤ t)) := by
      ext c
      rw [Finset.mem_insert, Finset.mem_filter, Finset.mem_filter]
      constructor
      · rintro ⟨hc, hct⟩
        rcases (hw c hc).2.eq_or_lt with e | hlt
        · exact .inl e.symm
        · exact .inr ⟨hc, hlt, hct⟩
      · rintro (rfl | ⟨hc, -, hct⟩)
        · exact ⟨hq.mem, (hw t ht).2⟩
        · exact ⟨hc, hct⟩
    rw [steps, steps, if_pos (hw t ht).2, if_neg (not_le.mpr hta), hnone, hset, Finset.card_empty, Nat.zero_add,
      Finset.card_insert_of_notMem (by simp)]

theorem steps_lt_card (ha : a ∈ F) (t : α) : steps F a t < F.card := by
  have hsub : ∀ G : Finset α, G ⊆ F.erase a → G.card < F.card := fun G hG =>
    lt_of_le_of_lt (Finset.card_le_card hG) (Finset.card_erase_lt_of_mem ha)
  rw [steps]
  split_ifs with hat
  · refine hsub _ (fun c hc => ?_)
    obtain ⟨hc, hac, -⟩ := Finset.mem_filter.mp hc
    exact Finset.mem_erase.mpr ⟨hac.ne', hc⟩
  · have hta := not_le.mp hat
    rw [← Finset.card_union_of_disjoint]
    · refine hsub _ (fun c hc => ?_)
      rcases Finset.mem_union.mp hc with hc | hc
      · obtain ⟨hc, hac⟩ := Finset.mem_filter.mp hc
        exact Finset.mem_erase.mpr ⟨hac.ne', hc⟩
      · obtain ⟨hc, hct⟩ := Finset.mem_filter.mp hc
        exact Finset.mem_erase.mpr ⟨(lt_of_le_of_lt hct hta).ne, hc⟩
    · rw [Finset.disjoint_left]
      intro c hc hc'
      exact absurd ((Finset.mem_filter.mp hc).2.trans_le (Finset.mem_filter.mp hc').2) (not_lt.mpr hta.le)

theorem Cycle.steps_le (h : Cycle F next) (ha : a ∈ F) (t : α) : steps F (next a) t ≤ steps F (next a) a := by
  have hq := h a ha
  have hcard : F.card ≤ steps F (next a) a + 1 := by
    rw [steps]
    split_ifs with hqa
    · refine (Finset.card_le_card (fun c hc => ?_)).trans (Finset.card_insert_le (next a) _)
      rcases hq.near with ⟨hlt, -⟩ | hw
      · exact absurd hqa (not_le.mpr hlt)
      · rcases (hw c hc).2.eq_or_lt with e | hlt
        · exact Finset.mem_insert.mpr (.inl e.symm)
        · exact Finset.mem_insert.mpr (.inr (Finset.mem_filter.mpr ⟨hc, hlt, (hw c hc).1⟩))
    · refine (Finset.card_le_card (fun c hc => ?_)).trans
        ((Finset.card_insert_le (next a) (F.filter (next a < ·) ∪ F.filter (· ≤ a))).trans
          (Nat.add_le_add_right (Finset.card_union_le _ _) 1))
      rcases hq.near with ⟨-, hnear⟩ | hw
      · rcases hnear c hc with hca | hqc
        · exact Finset.mem_insert_of_mem (Finset.mem_union_right _ (Finset.mem_filter.mpr ⟨hc, hca⟩))
        · rcases hqc.eq_or_lt with e | hlt
          · exact Finset.mem_insert.mpr (.inl e.symm)
          · exact Finset.mem_insert_of_mem (Finset.mem_union_left _ (Finset.mem_filter.mpr ⟨hc, hlt⟩))
      · exact absurd (hw a ha).2 hqa
  have hlt := steps_lt_card hq.mem t
  omega

theorem Cycle.iterate (h : Cycle F next) {t : α} (ha : a ∈ F) (ht : t ∈ F) : next^[steps F a t] a = t := by
  generalize hd : steps F a t = d
  induction d generalizing a with
  | zero =>
    by_contra hne
    have := h.steps_next ha ht hne
    omega
  | succ d ih =>
    have hne : a ≠ t := by
      rintro rfl
      rw [steps_self] at hd
      cases hd
    have hstep := h.steps_next ha ht hne
    exact ih (h a ha).mem (by omega)

end Steps

end SortedCycle
