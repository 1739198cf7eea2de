import EnhancedXv6.Copyout
import EnhancedXv6.ExecLoad

namespace EnhancedXv6.Vm

open Command Bytes Ownership

variable {L : Layout} {Φ : Spec sig Ram} [Grants L Φ] {E : Set ℕ} {r r' : Ram} {d g v va n sp : ℕ} {img : Mem} {buf : List UInt8}
variable {top : ℕ} {args : List (List UInt8)} {ptrs : List ℕ}

structure Guarded (L : Layout) (E : Set ℕ) (r : Ram) (d g : ℕ) (img : Mem) : Prop where
  space : Space L E r d
  devices : ∀ i, 1016 ≤ i → i < 1024 → (r.table d i).isSome
  bound : g + 2 < 524288
  access : ∀ v, Accessible r d v ↔ v < g + 2 ∧ v ≠ g
  present : ∀ v, (r.user d v).isSome ↔ v < g + 2
  byte : ∀ a < (g + 1) * 4096, r.byte d a = some (img a)

theorem pte_and_U (f : ℕ) : pte f (PTE_W ||| PTE_U) &&& PTE_U ≠ 0 := by
  rw [pte, V2P_or_and (by decide)]
  decide

theorem accessible_iff_of_user {w : UInt32} {m : Mem} (h : r.user d v = some (w, m)) : Accessible r d v ↔ w &&& PTE_U ≠ 0 := by
  obtain ⟨hw, -, -⟩ := user_eq_some h
  rw [Accessible, hw]
  exact and_iff_right (present_of_eq h)

theorem Space.not_accessible (h : Space L E r d) (hu : r.user d v = none) : ¬ Accessible r d v := by
  intro ha
  have hv := h.lt_of_accessible ha
  exact ha.1 (entry_not_present hv (user_eq_none hu))

theorem byte_of_user {a : ℕ} {w : UInt32} {m : Mem} (h : r.user d (a / 4096) = some (w, m)) : r.byte d a = some (m (a % 4096)) := by
  rw [Ram.byte, h]
  rfl

theorem clearpteu_spec (h : Loaded L E r d ((g + 2) * 4096) img) :
    wp Φ (clearpteu d (g * 4096)) r (fun _ r' => Keeps L E r r' ∧ Guarded L E r' d g img) := by
  have hpages : pages ((g + 2) * 4096) = g + 2 := by
    unfold pages
    omega
  have hb := h.bound
  have hload := h.page
  have hrest := h.rest
  rw [hpages] at hload hrest
  obtain ⟨f, m, hu, hm⟩ := hload g (by omega)
  obtain ⟨hentry, hpage, hx⟩ := user_eq_some hu
  obtain ⟨t', ht'⟩ := table_of_user (Option.isSome_iff_exists.mpr ⟨_, hu⟩)
  refine wp_walk (h.space.usable (x := .dir) rfl) (v := g) (by omega) (by omega) (fun hnone => ?_) (fun t ht => ?_)
  · rw [hnone] at ht'
    cases ht'
  · have htable : Usable Φ r t := h.space.usable (x := .table (g / 1024)) ht
    refine wp_word htable (wp_last (wp_setWord htable ?_))
    rw [← Ram.entry_of_some ht, hentry]
    change Keeps L E r (r.setPte t g (pte f (PTE_W ||| PTE_U) &&& ~~~ PTE_U)) ∧ Guarded L E (r.setPte t g (pte f (PTE_W ||| PTE_U) &&& ~~~ PTE_U)) d g img
    generalize hw : pte f (PTE_W ||| PTE_U) &&& ~~~ PTE_U = w
    have hg : g < 524288 := by omega
    have htarget : target g w = some (frame (pte f (PTE_W ||| PTE_U))) := by
      rw [target, ← hw, frame_clear, clear_and_P]
      exact if_pos ⟨hg, present_of_eq hu⟩
    have hft : frame (pte f (PTE_W ||| PTE_U)) ≠ t := by
      rintro rfl
      have hxy : Ref.user g = Ref.table (g / 1024) := h.space.exact.inj hx ht
      cases hxy
    have hs := h.space.setPte_same ht (htarget.trans hx.symm) (fun hk => absurd hg (Nat.not_lt.mpr hk))
    have hturn : Turn L E d r (r.setPte t g w) := .setPte h.space ht hg
    have huser : (r.setPte t g w).user d = Function.update (r.user d) g (some (w, m)) := by
      rw [h.space.user_setPte ht, htarget, Option.map_some, Ram.setPte, Ram.setPage_of_ne r hft, hpage]
    generalize r.setPte t g w = r1 at hs hturn huser
    have hself : r1.user d g = some (w, m) := by rw [huser, Function.update_self]
    have hother : ∀ v ≠ g, r1.user d v = r.user d v := fun v hv => by rw [huser, Function.update_of_ne hv]
    refine ⟨hturn.keep, hs, devices_of_turn h.devices hturn.table, by omega, fun v => ?_, fun v => ?_, fun a ha => ?_⟩
    · by_cases e : v = g
      · subst e
        rw [accessible_iff_of_user hself, ← hw, clear_and_U]
        exact iff_of_false (fun hn => hn rfl) (fun hn => hn.2 rfl)
      · by_cases hlt : v < g + 2
        · obtain ⟨f', m', hu', -⟩ := hload v hlt
          rw [accessible_iff_of_user ((hother v e).trans hu')]
          exact iff_of_true (pte_and_U f') ⟨hlt, e⟩
        · exact iff_of_false (hs.not_accessible ((hother v e).trans (hrest v (Nat.le_of_not_lt hlt)))) (fun hn => hlt hn.1)
    · by_cases e : v = g
      · subst e
        rw [hself]
        exact iff_of_true rfl (by omega)
      · rw [hother v e]
        by_cases hlt : v < g + 2
        · obtain ⟨f', m', hu', -⟩ := hload v hlt
          rw [hu']
          exact iff_of_true rfl hlt
        · rw [hrest v (Nat.le_of_not_lt hlt)]
          exact iff_of_false (by simp) hlt
    · have hdiv : a / 4096 * 4096 + a % 4096 = a := Nat.div_add_mod' a 4096
      have hmod := Nat.mod_lt a (show 0 < 4096 by decide)
      by_cases e : a / 4096 = g
      · subst e
        rw [byte_of_user hself, hm _ hmod, hdiv]
      · obtain ⟨f', m', hu', hm'⟩ := hload (a / 4096) (by omega)
        rw [byte_of_user ((hother _ e).trans hu'), hm' _ hmod, hdiv]

section Write

variable (h : Space L E r d) (hw : Wrote r d va buf n r')

include h hw

theorem Wrote.byte_of_lt {i : ℕ} (hi : i < n) : r'.byte d (va + i) = buf[i]? := by
  have ha := hw.access i hi
  have hx : target ((va + i) / 4096) (r.entry d ((va + i) / 4096)) = some (frame (r.entry d ((va + i) / 4096))) :=
    if_pos ⟨h.lt_of_accessible ha, ha.1⟩
  rw [hw.byte i hi, Ram.byte, Ram.user, hw.same.entry, hx]
  rfl

theorem Wrote.byte_of_ne {a : ℕ} (ha : ∀ i < n, a ≠ va + i) : r'.byte d a = r.byte d a := by
  rw [Ram.byte, Ram.byte, Ram.user, Ram.user, hw.same.entry]
  cases hx : target (a / 4096) (r.entry d (a / 4096)) with
  | none => rfl
  | some f =>
    refine congrArg some (hw.rest f (a % 4096) ?_)
    intro i hi hf hmod
    have hu := hw.access i hi
    have hy : r.refs d (.user ((va + i) / 4096)) = some f := by
      rw [hf]
      exact if_pos ⟨h.lt_of_accessible hu, hu.1⟩
    have hxy : Ref.user (a / 4096) = .user ((va + i) / 4096) := h.exact.inj hx hy
    have hdiv := Ref.user.inj hxy
    exact ha i hi (by omega)

theorem Wrote.keeps : Keeps L E r r' := by
  intro f hf
  funext k
  apply hw.rest
  intro i hi e
  have hu := hw.access i hi
  have hx : r.refs d (.user ((va + i) / 4096)) = some f := by
    rw [e]
    exact if_pos ⟨h.lt_of_accessible hu, hu.1⟩
  exact absurd (h.exact.mem hx) hf

end Write

namespace Guarded

theorem wrote (h : Guarded L E r d g img) (hw : Wrote r d va buf n r') (hva : (g + 1) * 4096 ≤ va) : Guarded L E r' d g img where
  space := h.space.congr hw.same hw.free
  devices := by
    rw [hw.same.table]
    exact h.devices
  bound := h.bound
  access v := (accessible_congr hw.same).trans (h.access v)
  present v := by
    rw [← h.present v, Ram.user, Ram.user, hw.same.entry, Option.isSome_map, Option.isSome_map]
  byte a ha := by
    rw [hw.byte_of_ne h.space (fun i _ => by omega)]
    exact h.byte a ha

theorem above (h : Guarded L E r d g img) (ha : ∀ i < n, Accessible r d ((va + i) / 4096)) (hn : 0 < n) (htop : g * 4096 < va + n) :
    (g + 1) * 4096 ≤ va := by
  by_contra hlt
  have hi : g * 4096 - va < n := by omega
  have hpage : (va + (g * 4096 - va)) / 4096 = g := by omega
  have hg := ha _ hi
  rw [hpage, h.access g] at hg
  exact hg.2 rfl

theorem copyout (h : Guarded L E r d g img) (hpos : 0 < buf.length) (hva : va < 0x100000000)
    (hcase : va + buf.length ≤ (g + 2) * 4096 ∧ g * 4096 < va + buf.length ∨ 0xFE000000 ≤ va) :
    wp (safe L) (copyout d va buf) r (fun x r' => Keeps L E r r' ∧ Space L E r' d ∧
      (x = -1 ∧ ¬ ((g + 1) * 4096 ≤ va ∧ va + buf.length ≤ (g + 2) * 4096) ∨ x = 0 ∧ (g + 1) * 4096 ≤ va ∧
        va + buf.length ≤ (g + 2) * 4096 ∧ Wrote r d va buf buf.length r' ∧ Guarded L E r' d g img)) := by
  have hb := h.bound
  rcases hcase with ⟨htop, hguard⟩ | hhigh
  · have htable : Backed r d va buf.length := by
      intro i hi _
      obtain ⟨t, ht⟩ := table_of_user ((h.present ((va + i) / 4096)).mpr (by omega))
      rw [ht]
      rfl
    refine wp_mono (safe_mono L) _ ?_ (copyoutLoop_spec h.space.private hva (.inl htable) (le_refl _))
    rintro x r1 ⟨-, ⟨rfl, -, hw⟩ | ⟨rfl, n, hn, -, hw, hna⟩⟩
    · have hle := h.above hw.access hpos hguard
      exact ⟨hw.keeps h.space, h.space.congr hw.same hw.free, .inr ⟨rfl, hle, htop, hw, h.wrote hw hle⟩⟩
    · refine ⟨hw.keeps h.space, h.space.congr hw.same hw.free, .inl ⟨rfl, fun hin => hna ((h.access _).mpr ?_)⟩⟩
      omega
  · -- the pages of the devices have page tables, but are not for users
    have htable := h.devices (va / 4096 / 1024) (by omega) (by omega)
    have hna : ¬ Accessible r d (va / 4096) := by
      rw [h.access]
      omega
    refine wp_mono (safe_mono L) _ ?_ (copyout_refused h.space.private hva htable hpos hna)
    rintro x r1 ⟨rfl, rfl⟩
    exact ⟨.refl L E r1, h.space, .inl ⟨rfl, by omega⟩⟩

end Guarded

def Holds (r : Ram) (d a : ℕ) (bs : List UInt8) : Prop := ∀ i < bs.length, r.byte d (a + i) = bs[i]?

theorem Holds.congr {a : ℕ} {bs : List UInt8} (h : Holds r d a bs) (hb : ∀ x, a ≤ x → r'.byte d x = r.byte d x) : Holds r' d a bs := by
  intro i hi
  rw [hb (a + i) (Nat.le_add_right a i)]
  exact h i hi

def Pushed (r : Ram) (d : ℕ) : ℕ → List (List UInt8) → List ℕ → ℕ → Prop
  | top, [], [], sp => sp = top
  | top, s :: args, q :: ptrs, sp => q % 4 = 0 ∧ q + (s.length + 1) ≤ top ∧ Holds r d q (s ++ [0]) ∧ Pushed r d q args ptrs sp
  | _, _, _, _ => False

theorem Pushed.le (h : Pushed r d top args ptrs sp) : sp ≤ top := by
  induction args generalizing top ptrs with
  | nil =>
    cases ptrs with
    | nil => exact Nat.le_of_eq h
    | cons q ptrs => exact h.elim
  | cons s args ih =>
    cases ptrs with
    | nil => exact h.elim
    | cons q ptrs =>
      have hle := ih h.2.2.2
      have hq := h.2.1
      omega

theorem Pushed.congr (h : Pushed r d top args ptrs sp)
    (hb : ∀ x, sp ≤ x → r'.byte d x = r.byte d x) : Pushed r' d top args ptrs sp := by
  induction args generalizing top ptrs with
  | nil =>
    cases ptrs with
    | nil => exact h
    | cons q ptrs => exact h.elim
  | cons s args ih =>
    cases ptrs with
    | nil => exact h.elim
    | cons q ptrs =>
      obtain ⟨h1, h2, h3, h4⟩ := h
      exact ⟨h1, h2, h3.congr (fun x hx => hb x (h4.le.trans hx)), ih h4⟩

theorem wp_put {α β : Type} {a : List α} {i : ℕ} {x : α} {k : List α → Code β} {Q : β → Ram → Prop} (hi : i < a.length)
    (h : wp (safe L) (k (a.set i x)) r Q) : wp (safe L) (put a i x >>= k) r Q := by
  rw [put, if_pos hi]
  exact h

theorem wp_put_or {α β : Type} {a : List α} {i : ℕ} {x : α} {k : List α → Code β} {Q : β → Ram → Prop} (hh : Halts Φ)
    (h : ∀ a', wp Φ (k a') r Q) : wp Φ (put a i x >>= k) r Q := by
  unfold put
  by_cases hi : i < a.length
  · rw [if_pos hi]
    exact h _
  · rw [if_neg hi]
    exact hh _ _ _

theorem pushArgs_stored {argv : Argv} {argc : ℕ} {ustack : List UInt32} (hh : Halts Φ) (h : Space L E r d) :
    wp Φ (pushArgs d argv argc sp ustack) r (fun _ r' => Stored L E d r r') := by
  induction argv generalizing r argc sp ustack with
  | nil => exact hh _ _ _
  | cons s argv ih =>
    cases s with
    | none => exact .refl h
    | some s =>
      refine wp_cond (fun _ => .refl h) (fun _ => ?_)
      refine wp_seq (wp_mono (grants_mono L) _ ?_ (copyoutLoop_stored hh h (by omega)))
      intro x r1 h1
      refine wp_cond (fun _ => h1) (fun _ => wp_put_or hh (fun ustack' => ?_))
      refine wp_mono (grants_mono L) _ ?_ (ih h1.space)
      intro _ r2 h2
      exact h1.trans h2

theorem pushStack_stored {argv : Argv} {sz : ℕ} (hh : Halts Φ) (h : Space L E r d) :
    wp Φ (pushStack d sz argv) r (fun _ r' => Stored L E d r r') := by
  refine wp_seq (wp_mono (grants_mono L) _ ?_ (pushArgs_stored hh h))
  intro x r1 h1
  cases x with
  | none => exact h1
  | some x =>
    refine wp_put_or hh (fun _ => wp_put_or hh (fun _ => wp_put_or hh (fun _ => wp_put_or hh (fun _ => ?_))))
    refine wp_seq (wp_mono (grants_mono L) _ ?_ (copyoutLoop_stored hh h1.space (Nat.mod_lt _ (by decide))))
    intro y r2 h2
    exact wp_cond (fun _ => h1.trans h2) (fun _ => h1.trans h2)

def padded (args : List (List UInt8)) : ℕ := (args.map (fun s => (s.length + 4) / 4 * 4)).sum

def stackSize (args : List (List UInt8)) : ℕ := padded args + 4 * (4 + args.length)

theorem padded_cons (s : List UInt8) (args : List (List UInt8)) : padded (s :: args) = (s.length + 4) / 4 * 4 + padded args := by
  rw [padded, List.map_cons, List.sum_cons]
  rfl

theorem pushArgs_spec {rest : Argv} {argc : ℕ} {ustack : List UInt32} (hargs : ∀ s ∈ args, s.length < 0x1000000)
    (h : Guarded L E r d g img) (hlow : (g + 1) * 4096 ≤ sp) (htop : sp ≤ (g + 2) * 4096) (hmod : sp % 4 = 0)
    (hu : ustack.length = 36) (hargc : argc ≤ 32) :
    wp (safe L) (pushArgs d (args.map some ++ none :: rest) argc sp ustack) r (fun x r' => Keeps L E r r' ∧ Space L E r' d ∧
      (x = none ∧ (argc + args.length ≤ 32 → sp < (g + 1) * 4096 + padded args) ∨
        ∃ sp' ustack' ptrs, x = some (argc + args.length, sp', ustack') ∧ argc + args.length ≤ 32 ∧ Guarded L E r' d g img ∧
        (g + 1) * 4096 ≤ sp' ∧ sp' + padded args = sp ∧ Pushed r' d sp args ptrs sp' ∧ (∀ x, sp ≤ x → r'.byte d x = r.byte d x) ∧ ustack'.length = 36 ∧
        (∀ i < 3 + argc, ustack'[i]? = ustack[i]?) ∧ ∀ i < ptrs.length, ustack'[3 + argc + i]? = (ptrs[i]?).map UInt32.ofNat)) := by
  induction args generalizing r argc sp ustack with
  | nil =>
    refine ⟨.refl L E r, h.space, .inr ⟨sp, ustack, [], rfl, hargc, h, hlow, rfl, rfl, fun _ _ => rfl, hu, fun _ _ => rfl, fun i hi => ?_⟩⟩
    exact absurd hi (Nat.not_lt_zero i)
  | cons s args ih =>
    have hs := hargs s List.mem_cons_self
    have hb := h.bound
    rw [padded_cons, List.length_cons]
    refine wp_cond (fun hmax => ⟨.refl L E r, h.space, .inl ⟨rfl, fun hle => ?_⟩⟩) (fun hmax => ?_)
    · change argc ≥ 32 at hmax
      omega
    change ¬ argc ≥ 32 at hmax
    have hlen : (s ++ [0]).length = s.length + 1 := List.length_append
    obtain ⟨q, hq⟩ : ∃ q, (sp + 0x100000000 - (s.length + 1)) % 0x100000000 / 4 * 4 = q := ⟨_, rfl⟩
    rw [hq]
    -- a string that is longer than the stack pointer wraps around into the pages of the devices
    have hcase : q + (s.length + 1) ≤ (g + 2) * 4096 ∧ g * 4096 < q + (s.length + 1) ∨ 0xFE000000 ≤ q := by omega
    refine wp_seq (wp_mono (safe_mono L) _ ?_ (h.copyout (by omega) (by omega) (by rwa [hlen])))
    rintro x r1 ⟨hkeep1, hs1, ⟨rfl, hout⟩ | ⟨rfl, hq1, hq2, hw, h1⟩⟩
    · refine wp_cond (fun _ => ⟨hkeep1, hs1, .inl ⟨rfl, fun _ => ?_⟩⟩) (fun hx => absurd (by decide) hx)
      rw [hlen] at hout
      omega
    · rw [hlen] at hq2
      have hle : q + (s.length + 1) ≤ sp := by omega
      have hpad : q + (s.length + 4) / 4 * 4 = sp := by omega
      have hmod : q % 4 = 0 := by omega
      refine wp_cond (fun hx => absurd hx (by decide)) (fun _ => wp_put (by omega) ?_)
      refine wp_mono (safe_mono L) _ ?_ (ih (fun s' hs' => hargs s' (List.mem_cons_of_mem s hs')) h1 hq1
        (by omega) hmod (by rw [List.length_set, hu]) (by omega))
      rintro y r2 ⟨hkeep2, hs2, hy⟩
      refine ⟨hkeep1.trans hkeep2, hs2, hy.imp (fun hnone => ⟨hnone.1, fun hmax => ?_⟩) ?_⟩
      · have := hnone.2 (by omega)
        omega
      rintro ⟨sp', ustack', ptrs, rfl, hcount, h2, hlow2, hsum, hpushed, hbyte, hu', hold, hnew⟩
      refine ⟨sp', ustack', q :: ptrs, by rw [Nat.add_assoc, Nat.add_comm 1], by omega, h2, hlow2, by omega,
        ⟨hmod, hle, ?_, hpushed⟩, fun x hx => ?_, hu',
        fun i hi => ?_, fun i hi => ?_⟩
      · refine Holds.congr (fun i hi => ?_) hbyte
        exact hw.byte_of_lt h.space hi
      · rw [hbyte x (by omega), hw.byte_of_ne h.space (fun i hi => by omega)]
      · rw [hold i (by omega), List.getElem?_set_ne (by omega)]
      · cases i with
        | zero =>
          rw [Nat.add_zero, hold _ (by omega), List.getElem?_set_self (by omega)]
          rfl
        | succ i =>
          rw [List.length_cons] at hi
          rw [List.getElem?_cons_succ, ← hnew i (by omega)]
          congr 1
          omega

theorem Pushed.mod (h : Pushed r d top args ptrs sp) (ht : top % 4 = 0) : sp % 4 = 0 := by
  induction args generalizing top ptrs with
  | nil =>
    cases ptrs with
    | nil =>
      obtain rfl : sp = top := h
      exact ht
    | cons q ptrs => exact h.elim
  | cons s args ih =>
    cases ptrs with
    | nil => exact h.elim
    | cons q ptrs => exact ih h.2.2.2 h.1

structure ArgStack (r : Ram) (d sz esp : ℕ) (args : List (List UInt8)) (ptrs : List ℕ) : Prop where
  vector : Holds r d esp ((0xFFFFFFFF :: UInt32.ofNat args.length :: UInt32.ofNat (esp + 12) :: (ptrs.map UInt32.ofNat ++ [0])).flatMap wordBytes)
  strings : List.Forall₂ (fun s q => Holds r d q (s ++ [0])) args ptrs
  aligned : esp % 4 = 0 ∧ ∀ q ∈ ptrs, q % 4 = 0
  apart : (ptrs.zip args).Pairwise (fun x y => y.1 + (y.2.length + 1) ≤ x.1)
  inside : sz ≤ esp + 4096 ∧ esp + 4 * (4 + args.length) ≤ sz ∧ ∀ x ∈ ptrs.zip args, esp + 4 * (4 + args.length) ≤ x.1 ∧ x.1 + (x.2.length + 1) ≤ sz

theorem Pushed.strings (h : Pushed r d top args ptrs sp) :
    List.Forall₂ (fun s q => Holds r d q (s ++ [0])) args ptrs ∧ (∀ q ∈ ptrs, q % 4 = 0) ∧
      (∀ x ∈ ptrs.zip args, sp ≤ x.1 ∧ x.1 + (x.2.length + 1) ≤ top) ∧ (ptrs.zip args).Pairwise (fun x y => y.1 + (y.2.length + 1) ≤ x.1) := by
  induction args generalizing top ptrs with
  | nil =>
    cases ptrs with
    | nil => exact ⟨.nil, by simp, by simp, .nil⟩
    | cons q ptrs => exact h.elim
  | cons s args ih =>
    cases ptrs with
    | nil => exact h.elim
    | cons q ptrs =>
      obtain ⟨h1, h2, h3, h4⟩ := h
      obtain ⟨i1, i2, i3, i4⟩ := ih h4
      have hle := h4.le
      refine ⟨.cons h3 i1, fun x hx => ?_, fun x hx => ?_, ?_⟩
      · rcases List.mem_cons.mp hx with rfl | hx
        · exact h1
        · exact i2 x hx
      · rw [List.zip_cons_cons] at hx
        rcases List.mem_cons.mp hx with rfl | hx
        · exact ⟨hle, h2⟩
        · have := i3 x hx
          omega
      · rw [List.zip_cons_cons]
        exact .cons (fun x hx => (i3 x hx).2) i4

theorem Pushed.length (h : Pushed r d top args ptrs sp) : args.length = ptrs.length :=
  h.strings.1.length_eq

theorem ustack_eq {u : List UInt32} {x y z : UInt32} (hu : u.length = 36) (hp : ptrs.length ≤ 32)
    (hnew : ∀ i < ptrs.length, u[3 + i]? = (ptrs[i]?).map UInt32.ofNat) :
    ((((u.set (3 + ptrs.length) 0).set 0 x).set 1 y).set 2 z).take (3 + ptrs.length + 1) = x :: y :: z :: (ptrs.map UInt32.ofNat ++ [0]) := by
  apply List.ext_getElem?
  intro i
  rw [List.getElem?_take]
  match i with
  | 0 =>
    rw [if_pos (by omega)]
    simp [hu]
  | 1 =>
    rw [if_pos (by omega)]
    simp [hu]
  | 2 =>
    rw [if_pos (by omega)]
    simp [hu]
  | i + 3 =>
    rw [List.getElem?_set_ne (by omega), List.getElem?_set_ne (by omega), List.getElem?_set_ne (by omega), List.getElem?_cons_succ,
      List.getElem?_cons_succ, List.getElem?_cons_succ]
    by_cases hlt : i < ptrs.length
    · rw [if_pos (by omega), List.getElem?_set_ne (by omega), Nat.add_comm i 3, hnew i hlt, List.getElem?_append_left (by rwa [List.length_map]),
        List.getElem?_map]
    · rw [List.getElem?_append_right (by rw [List.length_map]; omega), List.length_map]
      by_cases heq : i = ptrs.length
      · subst heq
        rw [if_pos (by omega), Nat.add_comm, List.getElem?_set_self (by omega), Nat.sub_self]
        rfl
      · rw [if_neg (by omega), List.getElem?_eq_none (by simp; omega)]

theorem length_flatMap_wordBytes (ws : List UInt32) : (ws.flatMap wordBytes).length = 4 * ws.length := by
  induction ws with
  | nil => rfl
  | cons w ws ih =>
    rw [List.flatMap_cons, List.length_append, ih, List.length_cons]
    change 4 + _ = _
    omega

theorem pushStack_spec {rest : Argv} (hargs : ∀ s ∈ args, s.length < 0x1000000) (h : Guarded L E r d g img) :
    wp (safe L) (pushStack d ((g + 2) * 4096) (args.map some ++ none :: rest)) r (fun x r' => Keeps L E r r' ∧ Space L E r' d ∧
      (x = none ∧ (args.length ≤ 32 → 4096 < stackSize args) ∨
        ∃ esp ptrs, x = some esp ∧ Guarded L E r' d g img ∧ ArgStack r' d ((g + 2) * 4096) esp args ptrs)) := by
  have hb := h.bound
  refine wp_seq (wp_mono (safe_mono L) _ ?_ (pushArgs_spec hargs h (by omega) (le_refl _) (by omega) List.length_replicate
    (Nat.zero_le 32)))
  rintro x r1 ⟨hkeep1, hs1, ⟨rfl, hfull⟩ | ⟨sp, ustack, ptrs, rfl, hcount, h1, hlow, hsum, hpushed, -, hu, -, hnew⟩⟩
  · refine ⟨hkeep1, hs1, .inl ⟨rfl, fun hle => ?_⟩⟩
    have := hfull (by omega)
    unfold stackSize
    omega
  · have hlen := hpushed.length
    have hle := hpushed.le
    rw [Nat.zero_add, hlen] at hcount ⊢
    dsimp only
    refine wp_put (by omega) (wp_put (by rw [List.length_set]; omega) (wp_put (by simp only [List.length_set]; omega)
      (wp_put (by simp only [List.length_set]; omega) ?_)))
    rw [ustack_eq hu hcount hnew]
    obtain ⟨esp, hesp⟩ : ∃ esp, esp + 4 * (4 + ptrs.length) = sp := ⟨sp - 4 * (4 + ptrs.length), by omega⟩
    have hsp : (sp + 0x100000000 - (3 + ptrs.length + 1) * 4) % 0x100000000 = esp := by omega
    have hvec : (sp + 0x100000000 - (ptrs.length + 1) * 4) % 0x100000000 = esp + 12 := by omega
    rw [hsp, hvec]
    generalize hws : 0xFFFFFFFF :: UInt32.ofNat ptrs.length :: UInt32.ofNat (esp + 12) :: (ptrs.map UInt32.ofNat ++ [0]) = ws
    have hbuf : (ws.flatMap wordBytes).length = 4 * (4 + ptrs.length) := by
      rw [length_flatMap_wordBytes, ← hws, List.length_cons, List.length_cons, List.length_cons, List.length_append, List.length_map]
      change 4 * (ptrs.length + 1 + 1 + 1 + 1) = _
      omega
    refine wp_seq (wp_mono (safe_mono L) _ ?_ (h1.copyout (by omega) (by omega) (.inl (by omega))))
    rintro x r2 ⟨hkeep2, hs2, ⟨rfl, hout⟩ | ⟨rfl, hlow2, -, hw, h2⟩⟩
    · refine wp_cond (fun _ => ⟨hkeep1.trans hkeep2, hs2, .inl ⟨rfl, fun _ => ?_⟩⟩) (fun hx => absurd (by decide) hx)
      unfold stackSize
      omega
    · refine wp_cond (fun hx => absurd hx (by decide)) (fun _ => ⟨hkeep1.trans hkeep2, hs2, .inr ⟨esp, ptrs, rfl, h2, ?_⟩⟩)
      have hmod := hpushed.mod (by omega)
      have hbottom : (g + 2) * 4096 ≤ esp + 4096 :=
        calc (g + 2) * 4096 = (g + 1) * 4096 + 4096 := Nat.succ_mul (g + 1) 4096
          _ ≤ esp + 4096 := Nat.add_le_add_right hlow2 4096
      have htop : esp + 4 * (4 + args.length) ≤ (g + 2) * 4096 := by omega
      obtain ⟨hstrings, haligned, hinside, hapart⟩ :=
        (hpushed.congr (fun x hx => hw.byte_of_ne h1.space (fun i hi => by omega))).strings
      refine ⟨?_, hstrings, ⟨by omega, haligned⟩, hapart, hbottom, htop, fun x hx => ?_⟩
      · rw [hlen, hws]
        exact fun i hi => hw.byte_of_lt h1.space hi
      · rw [hlen, hesp]
        exact hinside x hx

end EnhancedXv6.Vm
