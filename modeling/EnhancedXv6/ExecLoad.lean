import EnhancedXv6.AddressSpaces
import EnhancedXv6.Exec

namespace EnhancedXv6.Vm

open Command Bytes Ownership

variable {L : Layout} {Φ : Spec sig Ram} [Grants L Φ] {E : Set ℕ} {r r' : Ram} {d f v sz : ℕ} {w : UInt32} {m img img' : Mem} {file : List UInt8}

structure Loaded (L : Layout) (E : Set ℕ) (r : Ram) (d sz : ℕ) (img : Mem) : Prop where
  space : Space L E r d
  devices : ∀ i, 1016 ≤ i → i < 1024 → (r.table d i).isSome
  bound : sz < 0x80000000
  page : ∀ v < pages sz, ∃ f m, r.user d v = some (pte f (PTE_W ||| PTE_U), m) ∧ ∀ k < 4096, m k = img (v * 4096 + k)
  rest : ∀ v, pages sz ≤ v → r.user d v = none
  zero : ∀ a, pages sz * 4096 ≤ a → img a = 0

theorem Fresh.loaded (h : Fresh L E r d) : Loaded L E r d 0 (fun _ => 0) where
  space := h.space
  devices := h.devices
  bound := by decide
  page v hv := absurd hv (Nat.not_lt_zero v)
  rest v _ := h.user v
  zero _ _ := rfl

theorem devices_of_turn (h : ∀ i, 1016 ≤ i → i < 1024 → (r.table d i).isSome) (ht : ∀ i t, r.table d i = some t → r'.table d i = some t)
    (i : ℕ) (hi : 1016 ≤ i) (hlt : i < 1024) : (r'.table d i).isSome := by
  obtain ⟨t, e⟩ := Option.isSome_iff_exists.mp (h i hi hlt)
  rw [ht i t e]
  rfl

namespace Loaded

theorem alloc (h : Loaded L E r d sz img) (newsz : ℕ) : wp Φ (allocuvm d sz newsz) r (fun x r' =>
    Keeps L E r r' ∧ Space L E r' d ∧ (x ≠ 0 → x = max sz newsz ∧ Loaded L E r' d x img) ∧
      (x = 0 → newsz < KERNBASE → 0 < max sz newsz → Short (Denies Φ) L E (pages (max sz newsz)))) := by
  by_cases hbig : newsz ≥ KERNBASE
  · rw [allocuvm, if_pos hbig]
    exact ⟨.refl L E r, h.space, fun hx => absurd rfl hx, fun _ hlt => absurd hbig (Nat.not_le.mpr hlt)⟩
  · by_cases hlt : newsz < sz
    · rw [allocuvm, if_neg hbig, if_pos hlt]
      exact ⟨.refl L E r, h.space, fun _ => ⟨(Nat.max_eq_left hlt.le).symm, h⟩, fun hz => by omega⟩
    · change ¬ newsz ≥ 0x80000000 at hbig
      have hle : sz ≤ newsz := Nat.le_of_not_lt hlt
      have hmono : pages sz ≤ pages newsz := by
        unfold pages
        omega
      rw [Nat.max_eq_right hle]
      refine wp_mono (grants_mono L) _ ?_ (allocuvm_spec h.space (Nat.lt_of_not_le hbig) hle (fun u hu _ => h.rest u hu))
      rintro x r1 ⟨h1, hturn, ⟨rfl, hgrown⟩ | ⟨rfl, -, hshort⟩⟩
      · refine ⟨hturn.keep, h1, fun _ => ⟨rfl, h1, devices_of_turn h.devices hturn.table, Nat.lt_of_not_le hbig,
          fun v hv => ?_, fun v hv => ?_, fun a ha => h.zero a ((Nat.mul_le_mul_right 4096 hmono).trans ha)⟩, fun hz _ hpos => ?_⟩
        · by_cases hold : v < pages sz
          · rw [(hgrown v).2 (by omega)]
            exact h.page v hold
          · obtain ⟨f, hf⟩ := (hgrown v).1 ⟨Nat.le_of_not_lt hold, lt_pages.mp hv⟩
            exact ⟨f, _, hf, fun k _ => (h.zero _ (by omega)).symm⟩
        · rw [(hgrown v).2 (fun hm => absurd (lt_pages.mpr hm.2) (Nat.not_lt.mpr hv))]
          exact h.rest v (by omega)
        · omega
      · refine ⟨hturn.keep, h1, fun hx => absurd rfl hx, fun _ _ _ => ?_⟩
        exact hshort _ (le_refl _) (fun u hu => h.rest u (hmono.trans hu))

theorem store (h : Loaded L E r d sz img) (hu : r.user d v = some (w, m)) {m' : Mem} (hpage : ∀ k < 4096, m' k = img' (v * 4096 + k))
    (hrest : ∀ a, a / 4096 ≠ v → img' a = img a) :
    Loaded L E (r.setPage (frame w) m') d sz img' ∧ Keeps L E r (r.setPage (frame w) m') := by
  obtain ⟨hw, -, hx⟩ := user_eq_some hu
  obtain ⟨h1, hsame, huser⟩ := h.space.write hx m'
  have hv : v < pages sz := by
    by_contra hv
    rw [h.rest v (Nat.le_of_not_lt hv)] at hu
    cases hu
  refine ⟨⟨h1, ?_, h.bound, fun u hu' => ?_, fun u hu' => ?_, fun a ha => ?_⟩, keeps_setPage (h.space.mem hx).1 (h.space.mem hx).2 m'⟩
  · rw [hsame.table]
    exact h.devices
  · by_cases e : u = v
    · subst e
      obtain ⟨f, m0, hf, -⟩ := h.page u hu'
      rw [hu] at hf
      cases hf
      exact ⟨f, m', by rw [huser, Function.update_self, hw], hpage⟩
    · obtain ⟨f, m0, hf, hm0⟩ := h.page u hu'
      refine ⟨f, m0, by rw [huser, Function.update_of_ne e, hf], fun k hk => ?_⟩
      rw [hm0 k hk, hrest _ (by omega)]
  · rw [huser, Function.update_of_ne (by omega)]
    exact h.rest u hu'
  · rw [hrest a (by omega)]
    exact h.zero a ha

end Loaded

def overlay (file : List UInt8) (img : Mem) (addr off n : ℕ) : Mem := splice img addr n (fun k => file.getD (off + k) 0)

theorem readi_some {off n : ℕ} {bs : List UInt8} (h : readi file off n = some bs) :
    off ≤ file.length ∧ bs.length ≤ n ∧ ∀ k, bs[k]? = if k < n then file[off + k]? else none := by
  unfold readi at h
  split_ifs at h with hc
  cases h
  refine ⟨by omega, List.length_take_le _ _, fun k => ?_⟩
  rw [List.getElem?_take]
  split_ifs
  · exact List.getElem?_drop
  · rfl

section Segment

variable {addr off n i fuel : ℕ}

theorem loaduvmLoop_spec (hl : file.length < 0x100000000) (hoff : off < 0x100000000) (haddr : addr % 4096 = 0) (hn : addr + n ≤ sz)
    (hi : i % 4096 = 0) (hlast : i < n + 4096) (hin : i = 0 ∨ off + min i n ≤ file.length) (hf : 524288 < fuel + i / 4096)
    (h : Loaded L E r d sz (overlay file img addr off (min i n))) :
    wp Φ (loaduvmLoop d addr file off n fuel i) r (fun x r' => Keeps L E r r' ∧ Space L E r' d ∧
      (x = -1 ∧ ¬ (n = 0 ∨ off + n ≤ file.length) ∨
        x = 0 ∧ (n = 0 ∨ off + n ≤ file.length) ∧ Loaded L E r' d sz (overlay file img addr off n))) := by
  have hb := h.bound
  induction fuel generalizing r i with
  | zero => omega
  | succ fuel ih =>
    refine wp_cond (fun hlt => ?_) (fun hge => ?_)
    · have hmin : min i n = i := Nat.min_eq_left hlt.le
      rw [hmin] at h hin
      have ha : (addr + i) % 0x100000000 = addr + i := by omega
      have hread : (off + i) % 0x100000000 = off + i := by omega
      obtain ⟨v, hv⟩ : ∃ v, addr + i = v * 4096 := ⟨(addr + i) / 4096, by omega⟩
      obtain ⟨f, m, hu, hm⟩ := h.page v (lt_pages.mpr (by omega))
      obtain ⟨hentry, hpage, hx⟩ := user_eq_some hu
      obtain ⟨t', ht'⟩ := table_of_user (Option.isSome_iff_exists.mpr ⟨_, hu⟩)
      rw [ha, hread]
      refine wp_walk (h.space.usable (x := .dir) rfl) (v := v) (by omega) (by omega) (fun hnone => ?_) (fun t ht => ?_)
      · rw [hnone] at ht'
        cases ht'
      · refine wp_word (h.space.usable (x := .table (v / 1024)) ht) ?_
        rw [← Ram.entry_of_some ht, hentry]
        have hk : (if n - i < PGSIZE then n - i else PGSIZE) = min (n - i) 4096 := by
          change (if n - i < 4096 then n - i else 4096) = _
          split_ifs <;> omega
        dsimp only
        rw [hk]
        cases hr : readi file (off + i) (min (n - i) 4096) with
        | none =>
          refine ⟨.refl L E r, h.space, .inl ⟨rfl, fun hin => ?_⟩⟩
          rw [readi, if_neg (by omega)] at hr
          cases hr
        | some bs =>
          obtain ⟨-, hle, hbs⟩ := readi_some hr
          have hmem : ∀ j < bs.length, bs[j]? = some (file.getD (off + (i + j)) 0) := by
            intro j hj
            have hj' := hbs j
            rw [if_pos (by omega), Nat.add_assoc] at hj'
            rw [hj', List.getD_eq_getElem?_getD]
            rw [List.getElem?_eq_getElem hj] at hj'
            rw [← hj']
            rfl
          refine wp_store (h.space.usable hx) ?_
          rw [hpage]
          by_cases hfull : bs.length = min (n - i) 4096
          · have hnext : (i + PGSIZE) % 0x100000000 = i + 4096 := by
              change (i + 4096) % 4294967296 = _
              omega
            have hmin' : min (i + 4096) n = i + bs.length := by omega
            have hin' : off + min (i + 4096) n ≤ file.length := by
              have hlast := hbs (bs.length - 1)
              rw [if_pos (by omega), List.getElem?_eq_getElem (by omega)] at hlast
              have := (List.getElem?_eq_some_iff.mp hlast.symm).1
              omega
            have hstore : Loaded L E (r.setPage (frame (pte f (PTE_W ||| PTE_U))) (overwrite m 0 bs)) d sz (overlay file img addr off (min (i + 4096) n)) ∧
                Keeps L E r (r.setPage (frame (pte f (PTE_W ||| PTE_U))) (overwrite m 0 bs)) := by
              refine h.store hu (fun j hj => ?_) (fun a ha => ?_)
              · rw [overwrite, if_pos (Nat.zero_le j), Nat.sub_zero, overlay, splice, hmin']
                by_cases hlt : j < bs.length
                · have hidx : v * 4096 + j - addr = i + j := by omega
                  rw [hmem j hlt, if_pos (by omega), Option.getD_some, hidx]
                · rw [List.getElem?_eq_none (Nat.le_of_not_lt hlt), if_neg (by omega), Option.getD_none, hm j hj, overlay, splice, if_neg (by omega)]
              · rw [overlay, overlay, splice, splice, hmin']
                by_cases hin : addr ≤ a ∧ a < addr + i
                · rw [if_pos hin, if_pos (by omega)]
                · rw [if_neg hin, if_neg (by omega)]
            refine wp_cond (fun hne => absurd hfull hne) (fun _ => ?_)
            rw [hnext]
            refine wp_mono (grants_mono L) _ ?_ (ih (by omega) (by omega) (.inr hin') (by omega) hstore.1)
            rintro x r2 ⟨hkeep2, hx2⟩
            exact ⟨hstore.2.trans hkeep2, hx2⟩
          · refine wp_cond (fun _ => ?_) (fun heq => absurd (not_not.mp heq) hfull)
            refine ⟨keeps_setPage (h.space.mem hx).1 (h.space.mem hx).2 _, (h.space.write hx _).1, .inl ⟨rfl, fun hin => ?_⟩⟩
            have hend := hbs bs.length
            rw [if_pos (by omega), List.getElem?_eq_none (le_refl _), eq_comm, List.getElem?_eq_none_iff] at hend
            omega
    · have hmin : min i n = n := Nat.min_eq_right (Nat.le_of_not_lt hge)
      rw [hmin] at h hin
      refine ⟨.refl L E r, h.space, .inr ⟨rfl, ?_, h⟩⟩
      omega

theorem overlay_zero (file : List UInt8) (img : Mem) (addr off : ℕ) : overlay file img addr off 0 = img := by
  funext a
  exact if_neg (by omega)

theorem loaduvm_spec (hl : file.length < 0x100000000) (hoff : off < 0x100000000) (haddr : addr % 4096 = 0) (hn : addr + n ≤ sz)
    (h : Loaded L E r d sz img) :
    wp Φ (loaduvm d addr file off n) r (fun x r' => Keeps L E r r' ∧ Space L E r' d ∧
      (x = -1 ∧ ¬ (n = 0 ∨ off + n ≤ file.length) ∨
        x = 0 ∧ (n = 0 ∨ off + n ≤ file.length) ∧ Loaded L E r' d sz (overlay file img addr off n))) := by
  refine wp_cond (fun hne => absurd haddr hne) (fun _ => ?_)
  refine loaduvmLoop_spec hl hoff haddr hn (Nat.zero_mod _) (by omega) (.inl rfl) (by omega) ?_
  rw [Nat.zero_min, overlay_zero]
  exact h

end Segment

section Segments

def segments (file : List UInt8) (off n : ℕ) : List Proghdr :=
  ((List.range n).filterMap (fun i => header file (off + 32 * i))).filter (fun ph => ph.type = ELF_PROG_LOAD)

def extent (segs : List Proghdr) (sz : ℕ) : ℕ := segs.foldl (fun m ph => max m (ph.vaddr + ph.memsz)) sz

def contents (file : List UInt8) (segs : List Proghdr) (img : Mem) : Mem :=
  segs.foldl (fun img ph => overlay file img ph.vaddr ph.off ph.filesz) img

def Proghdr.Covers (ph : Proghdr) (a : ℕ) : Prop := ph.vaddr ≤ a ∧ a < ph.vaddr + ph.filesz

instance (ph : Proghdr) (a : ℕ) : Decidable (ph.Covers a) := inferInstanceAs (Decidable (_ ∧ _))

theorem contents_apply (file : List UInt8) (segs : List Proghdr) (img : Mem) (a : ℕ) :
    contents file segs img a = ((segs.reverse.find? (fun ph => ph.Covers a)).map (fun ph => file.getD (ph.off + (a - ph.vaddr)) 0)).getD (img a) := by
  induction segs generalizing img with
  | nil => rfl
  | cons ph segs ih =>
    change contents file segs (overlay file img ph.vaddr ph.off ph.filesz) a = _
    rw [ih, List.reverse_cons, List.find?_append]
    cases segs.reverse.find? (fun ph => ph.Covers a) with
    | some q => rfl
    | none =>
      rw [Option.none_or, List.find?_singleton]
      by_cases hc : ph.Covers a
      · rw [if_pos (decide_eq_true hc)]
        exact if_pos hc
      · rw [if_neg (by simpa using hc)]
        exact if_neg hc

structure Proghdr.Valid (file : List UInt8) (ph : Proghdr) : Prop where
  aligned : ph.vaddr % 4096 = 0
  size : ph.filesz ≤ ph.memsz
  bound : ph.vaddr + ph.memsz < 0x80000000
  inFile : ph.filesz = 0 ∨ ph.off + ph.filesz ≤ file.length

variable {off n : ℕ}

theorem header_le {ph : Proghdr} (h : header file off = some ph) : off + 32 ≤ file.length := by
  obtain ⟨b, hb, -⟩ := Option.map_eq_some_iff.mp h
  unfold readStruct at hb
  cases hr : readi file off 32 with
  | none =>
    rw [hr] at hb
    cases hb
  | some bs =>
    rw [hr] at hb
    dsimp only at hb
    split_ifs at hb with hlen
    obtain ⟨-, -, hbs⟩ := readi_some hr
    have hlast := hbs 31
    rw [if_pos (by omega), List.getElem?_eq_getElem (by omega)] at hlast
    have := (List.getElem?_eq_some_iff.mp hlast.symm).1
    omega

theorem header_lt {ph : Proghdr} (h : header file off = some ph) : ph.off < 0x100000000 ∧ ph.vaddr < 0x100000000 ∧ ph.memsz < 0x100000000 := by
  obtain ⟨b, -, rfl⟩ := Option.map_eq_some_iff.mp h
  exact ⟨(word b 1).toNat_lt, (word b 2).toNat_lt, (word b 5).toNat_lt⟩

theorem segments_succ {ph : Proghdr} (h : header file off = some ph) :
    segments file off (n + 1) = if ph.type = ELF_PROG_LOAD then ph :: segments file (off + 32) n else segments file (off + 32) n := by
  have hshift : ((List.range n).map Nat.succ).filterMap (fun i => header file (off + 32 * i)) =
      (List.range n).filterMap (fun i => header file (off + 32 + 32 * i)) := by
    rw [List.filterMap_map]
    refine congrArg (fun g => List.filterMap g (List.range n)) (funext (fun i => ?_))
    change header file (off + 32 * (i + 1)) = _
    rw [show off + 32 * (i + 1) = off + 32 + 32 * i by omega]
  unfold segments
  rw [List.range_succ_eq_map, List.filterMap_cons, Nat.mul_zero, Nat.add_zero, h, hshift, List.filter_cons]
  simp only [decide_eq_true_eq]

def Loadable (file : List UInt8) (off n : ℕ) : Prop := ∀ i < n, ∃ ph, header file (off + 32 * i) = some ph ∧
  (ph.type = ELF_PROG_LOAD → ph.Valid file ∧ 0 < ph.vaddr + ph.memsz)

theorem Loadable.first (h : Loadable file off (n + 1)) {ph : Proghdr} (hh : header file off = some ph) :
    (ph.type = ELF_PROG_LOAD → ph.Valid file ∧ 0 < ph.vaddr + ph.memsz) ∧ Loadable file (off + 32) n := by
  constructor
  · obtain ⟨ph', hh', hph⟩ := h 0 (Nat.succ_pos n)
    rw [Nat.mul_zero, Nat.add_zero, hh] at hh'
    cases hh'
    exact hph
  · intro i hi
    have hi' := h (i + 1) (Nat.succ_lt_succ hi)
    rwa [show off + 32 * (i + 1) = off + 32 + 32 * i by omega] at hi'

theorem le_extent (segs : List Proghdr) (sz : ℕ) : sz ≤ extent segs sz := by
  induction segs generalizing sz with
  | nil => exact le_refl sz
  | cons ph segs ih => exact (le_max_left _ _).trans (ih _)

theorem load_spec (hl : file.length < 0x100000000) (h : Loaded L E r d sz img) :
    wp Φ (load d file n off sz) r (fun x r' => Keeps L E r r' ∧ Space L E r' d ∧
      (x = none ∧ (Loadable file off n → Short (Denies Φ) L E (pages (extent (segments file off n) sz))) ∨
        ∃ sz', x = some sz' ∧ sz' = extent (segments file off n) sz ∧ Loaded L E r' d sz' (contents file (segments file off n) img) ∧
        ∀ ph ∈ segments file off n, ph.Valid file)) := by
  induction n generalizing r off sz img with
  | zero => exact ⟨.refl L E r, h.space, .inr ⟨sz, rfl, rfl, h, fun ph hph => absurd hph List.not_mem_nil⟩⟩
  | succ n ih =>
    unfold load
    cases hh : header file off with
    | none =>
      refine ⟨.refl L E r, h.space, .inl ⟨rfl, fun hload => ?_⟩⟩
      obtain ⟨ph, hh', -⟩ := hload 0 (Nat.succ_pos n)
      rw [Nat.mul_zero, Nat.add_zero, hh] at hh'
      cases hh'
    | some ph =>
      have hoff : (off + 32) % 0x100000000 = off + 32 := by
        have := header_le hh
        omega
      rw [segments_succ hh]
      dsimp only
      rw [hoff]
      refine wp_cond (fun htype => ?_) (fun htype => ?_)
      · rw [if_neg htype]
        refine wp_mono (grants_mono L) _ ?_ (ih h)
        rintro x r1 ⟨hkeep1, hs1, hx⟩
        exact ⟨hkeep1, hs1, hx.imp_left (And.imp_right (fun hshort hload => hshort (hload.first hh).2))⟩
      · rw [if_pos (not_not.mp htype)]
        obtain ⟨hpo, hpv, hpm⟩ := header_lt hh
        have hvalid : Loadable file off (n + 1) → ph.Valid file ∧ 0 < ph.vaddr + ph.memsz :=
          fun hload => (hload.first hh).1 (not_not.mp htype)
        have hextent : pages (max sz (ph.vaddr + ph.memsz)) ≤ pages (extent (ph :: segments file (off + 32) n) sz) := by
          have hle := le_extent (segments file (off + 32) n) (max sz (ph.vaddr + ph.memsz))
          change _ ≤ pages (extent (segments file (off + 32) n) (max sz (ph.vaddr + ph.memsz)))
          unfold pages
          omega
        refine wp_cond (fun hsize => ⟨.refl L E r, h.space, .inl ⟨rfl, fun hload => ?_⟩⟩)
          (fun hfile => wp_cond (fun hwrap => ⟨.refl L E r, h.space, .inl ⟨rfl, fun hload => ?_⟩⟩) (fun hwrap => ?_))
        · exact absurd (hvalid hload).1.size (Nat.not_le.mpr hsize)
        · have hb := (hvalid hload).1.bound
          omega
        have hend : (ph.vaddr + ph.memsz) % 0x100000000 = ph.vaddr + ph.memsz := by omega
        rw [hend]
        refine wp_seq (wp_mono (grants_mono L) _ ?_ (h.alloc (ph.vaddr + ph.memsz)))
        rintro x r1 ⟨hkeep1, hs1, hx, hshort⟩
        refine wp_cond (fun hx0 => ⟨hkeep1, hs1, .inl ⟨rfl, fun hload => ?_⟩⟩)
          (fun hx0 => wp_cond (fun hal => ⟨hkeep1, hs1, .inl ⟨rfl, fun hload => absurd (hvalid hload).1.aligned hal⟩⟩) (fun hal => ?_))
        · obtain ⟨hv, hpos⟩ := hvalid hload
          exact (hshort hx0 hv.bound (hpos.trans_le (le_max_right _ _))).mono hextent
        obtain ⟨rfl, h1⟩ := hx hx0
        have haligned : ph.vaddr % 4096 = 0 := not_not.mp hal
        have hb := h1.bound
        refine wp_seq (wp_mono (grants_mono L) _ ?_ (loaduvm_spec hl hpo haligned (by omega) h1))
        rintro y r2 ⟨hkeep2, hs2, ⟨rfl, hout⟩ | ⟨rfl, hin, h2⟩⟩
        · refine wp_cond (fun _ => ⟨hkeep1.trans hkeep2, hs2, .inl ⟨rfl, fun hload => ?_⟩⟩) (fun hy => absurd (by decide) hy)
          exact absurd (hvalid hload).1.inFile hout
        · refine wp_cond (fun hy => absurd hy (by decide)) (fun _ => ?_)
          refine wp_mono (grants_mono L) _ ?_ (ih h2)
          rintro z r3 ⟨hkeep3, hs3, hz⟩
          refine ⟨(hkeep1.trans hkeep2).trans hkeep3, hs3, hz.imp ?_ ?_⟩
          · rintro ⟨rfl, hshort3⟩
            exact ⟨rfl, fun hload => hshort3 (hload.first hh).2⟩
          · rintro ⟨sz', rfl, hsz, h3, hvalid3⟩
            refine ⟨sz', rfl, hsz, h3, fun q hq => ?_⟩
            rcases List.mem_cons.mp hq with rfl | hq
            · exact ⟨haligned, by omega, by omega, hin⟩
            · exact hvalid3 q hq

end Segments

end EnhancedXv6.Vm
