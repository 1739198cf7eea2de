import EnhancedXv6.AddressSpaces

namespace EnhancedXv6.Vm

open Command Bytes Ownership

variable {L : Layout} {E : Set ℕ} {r r' r'' : Ram} {d f v va fuel n m : ℕ} {buf : List UInt8}

def Accessible (r : Ram) (d v : ℕ) : Prop := r.entry d v &&& PTE_P ≠ 0 ∧ r.entry d v &&& PTE_U ≠ 0

structure Private (r : Ram) (d : ℕ) : Prop where
  dir : d < 57344
  table : ∀ i t, r.table d i = some t → t < 57344
  page : ∀ v, Accessible r d v → frame (r.entry d v) < 57344 ∧ frame (r.entry d v) ≠ d ∧ ∀ i, r.table d i ≠ some (frame (r.entry d v))
  inj : ∀ u v, Accessible r d u → Accessible r d v → frame (r.entry d u) = frame (r.entry d v) → u = v
  low : ∀ v, Accessible r d v → v < 524288

def Backed (r : Ram) (d va len : ℕ) : Prop :=
  ∀ i < len, (∀ j < i, Accessible r d ((va + j) / 4096)) → (r.table d ((va + i) / 4096 / 1024)).isSome

theorem accessible_congr (h : Ram.SameTables r r' d) : Accessible r' d v ↔ Accessible r d v := by
  rw [Accessible, Accessible, h.entry]

theorem Private.congr (h : Private r d) (hs : Ram.SameTables r r' d) : Private r' d where
  dir := h.dir
  table := by
    rw [hs.table]
    exact h.table
  page v hv := by
    rw [hs.entry, hs.table]
    exact h.page v ((accessible_congr hs).mp hv)
  inj u v hu hv := by
    rw [hs.entry]
    exact h.inj u v ((accessible_congr hs).mp hu) ((accessible_congr hs).mp hv)
  low v hv := h.low v ((accessible_congr hs).mp hv)

structure Wrote (r : Ram) (d va : ℕ) (buf : List UInt8) (n : ℕ) (r' : Ram) : Prop where
  same : Ram.SameTables r r' d
  free : r'.freelist = r.freelist
  access : ∀ i < n, Accessible r d ((va + i) / 4096)
  byte : ∀ i < n, buf[i]? = some (r'.page (frame (r.entry d ((va + i) / 4096))) ((va + i) % 4096))
  rest : ∀ f k, (∀ i < n, f = frame (r.entry d ((va + i) / 4096)) → k ≠ (va + i) % 4096) → r'.page f k = r.page f k

theorem Wrote.refl (r : Ram) (d va : ℕ) (buf : List UInt8) : Wrote r d va buf 0 r where
  same := ⟨rfl, fun _ _ _ => rfl⟩
  free := rfl
  access i hi := absurd hi (Nat.not_lt_zero i)
  byte i hi := absurd hi (Nat.not_lt_zero i)
  rest _ _ _ := rfl

theorem Wrote.trans (hP : Private r d) (h : Wrote r d va buf n r') (h' : Wrote r' d (va + n) (buf.drop n) m r'')
    (hpage : ∀ i < n, ∀ j < m, (va + i) / 4096 ≠ (va + n + j) / 4096) : Wrote r d va buf (n + m) r'' := by
  have hsplit : ∀ i < n + m, i < n ∨ ∃ j < m, i = n + j := by
    intro i hi
    by_cases hin : i < n
    · exact .inl hin
    · exact .inr ⟨i - n, by omega, by omega⟩
  have hentry := h.same.entry
  have haccess : ∀ i < n + m, Accessible r d ((va + i) / 4096) := by
    intro i hi
    rcases hsplit i hi with hi | ⟨j, hj, rfl⟩
    · exact h.access i hi
    · rw [← Nat.add_assoc]
      exact (accessible_congr h.same).mp (h'.access j hj)
  refine ⟨⟨h'.same.dir.trans h.same.dir, fun i t ht => ?_⟩, h'.free.trans h.free, haccess, fun i hi => ?_, fun f k hk => ?_⟩
  · exact (h'.same.tables i t (by rwa [h.same.table])).trans (h.same.tables i t ht)
  · rcases hsplit i hi with hin | ⟨j, hj, rfl⟩
    · rw [h.byte i hin, h'.rest]
      rintro j hj hf
      rw [hentry] at hf
      exact absurd (hP.inj _ _ (haccess i hi) ((accessible_congr h.same).mp (h'.access j hj)) hf) (hpage i hin j hj)
    · have hb := h'.byte j hj
      rw [List.getElem?_drop, hentry, Nat.add_assoc] at hb
      exact hb
  · rw [h'.rest f k, h.rest f k]
    · exact fun i hi => hk i (by omega)
    · intro j hj hf
      rw [hentry, Nat.add_assoc] at hf
      rw [Nat.add_assoc]
      exact hk (n + j) (by omega) hf

section Loop

variable {Φ : Spec sig Ram} {α : Type} {Q : α → Ram → Prop}

theorem wp_uva2ka {k : Option ℕ → Code α} (hd : Usable Φ r d) (hv : va / 4096 = v) (hlt : v < 1048576)
    (hnull : r.table d (v / 1024) = none → Φ (.stop .null) r (fun _ r' => wp Φ (k none) r' Q))
    (ht : ∀ t, r.table d (v / 1024) = some t → Usable Φ r t)
    (hnone : (r.table d (v / 1024)).isSome → ¬ Accessible r d v → wp Φ (k none) r Q)
    (hsome : (r.table d (v / 1024)).isSome → Accessible r d v → wp Φ (k (some (frame (r.entry d v)))) r Q) :
    wp Φ (uva2ka d va >>= k) r Q := by
  refine wp_seq (wp_walk hd hv hlt hnull (fun t htv => wp_word (ht t htv) ?_))
  have hsm : (r.table d (v / 1024)).isSome := Option.isSome_iff_exists.mpr ⟨t, htv⟩
  rw [← Ram.entry_of_some htv]
  refine wp_cond (fun hp => hnone hsm (fun h => h.1 hp)) (fun hp => ?_)
  exact wp_cond (fun hu => hnone hsm (fun h => h.2 hu)) (fun hu => hsome hsm ⟨hp, hu⟩)

theorem wrote_store (hP : Private r d) (ha : Accessible r d (va / 4096)) (hn : va % 4096 + n ≤ 4096) (hle : n ≤ buf.length) :
    Wrote r d va buf n (r.setPage (frame (r.entry d (va / 4096))) (overwrite (r.page (frame (r.entry d (va / 4096)))) (va % 4096) (buf.take n))) := by
  obtain ⟨-, hfd, hft⟩ := hP.page _ ha
  have hsame : ∀ i < n, (va + i) / 4096 = va / 4096 ∧ (va + i) % 4096 = va % 4096 + i := by omega
  generalize hf : frame (r.entry d (va / 4096)) = f at hfd hft
  refine ⟨⟨Ram.setPage_of_ne r hfd.symm _, fun i t ht => Ram.setPage_of_ne r ?_ _⟩, rfl, fun i hi => ?_, fun i hi => ?_, fun g k hk => ?_⟩
  · rintro rfl
    exact hft i ht
  · rw [(hsame i hi).1]
    exact ha
  · rw [(hsame i hi).1, (hsame i hi).2, hf, Ram.setPage_self, overwrite, if_pos (by omega), Nat.add_sub_cancel_left, List.getElem?_take,
      if_pos hi, List.getElem?_eq_getElem (by omega)]
    rfl
  · by_cases hg : g = f
    · subst hg
      rw [Ram.setPage_self, overwrite]
      split_ifs with hle'
      · rw [List.getElem?_take]
        split_ifs with hlt
        · have hi := hk (k - va % 4096) hlt
          rw [(hsame _ hlt).1, (hsame _ hlt).2] at hi
          exact absurd (by omega) (hi hf.symm)
        · rfl
      · rfl
    · rw [Ram.setPage_of_ne r hg]

def CopiedOut (r : Ram) (d va : ℕ) (buf : List UInt8) (ret : ℤ) (r' : Ram) : Prop :=
  (ret = 0 ∧ va + buf.length ≤ 0x100000000 ∧ Wrote r d va buf buf.length r') ∨
    (ret = -1 ∧ ∃ n < buf.length, va + n < 0x100000000 ∧ Wrote r d va buf n r' ∧ ¬ Accessible r d ((va + n) / 4096))

theorem backed_of_not_accessible {len : ℕ} (ht : (r.table d (va / 4096 / 1024)).isSome)
    (ha : ¬ Accessible r d (va / 4096)) : Backed r d va len := by
  intro i _ hj
  cases i with
  | zero => exact ht
  | succ i => exact absurd (hj 0 (Nat.succ_pos i)) ha

theorem backed_next {len : ℕ} (hs : Ram.SameTables r r' d) (ht : (r.table d (va / 4096 / 1024)).isSome)
    (ha : Accessible r d (va / 4096)) (hpage : va % 4096 + n ≤ 4096) :
    Backed r d va (n + len) ↔ Backed r' d (va + n) len := by
  have hfirst : ∀ i < n, (va + i) / 4096 = va / 4096 := by omega
  constructor
  · intro h i hi hj
    rw [hs.table, Nat.add_assoc]
    refine h (n + i) (by omega) (fun j hj' => ?_)
    by_cases hjn : j < n
    · rwa [hfirst j hjn]
    · have hacc := (accessible_congr hs).mp (hj (j - n) (by omega))
      rwa [show va + n + (j - n) = va + j by omega] at hacc
  · intro h i hi hj
    by_cases hin : i < n
    · rwa [hfirst i hin]
    · have hsm := h (i - n) (by omega) (fun j hj' => ?_)
      · rwa [hs.table, show va + n + (i - n) = va + i by omega] at hsm
      · rw [accessible_congr hs, Nat.add_assoc]
        exact hj (n + j) (by omega)

theorem wp_copyoutLoop_nil {Φ : Spec sig Ram} {Q : ℤ → Ram → Prop} (h : Q 0 r) :
    wp Φ (copyoutLoop d fuel va []) r Q := by
  cases fuel with
  | zero => exact h
  | succ fuel => exact wp_cond (fun hpos => absurd hpos (lt_irrefl 0)) (fun _ => h)

theorem copyoutLoop_spec {E : Stop → Prop} (hP : Private r d) (hva : va < 0x100000000)
    (hb : Backed r d va buf.length ∨ E .null) (hf : buf.length ≤ fuel) :
    wp (execSpec (S := sig) (exec L) E) (copyoutLoop d fuel va buf) r
      (fun ret r' => Backed r d va buf.length ∧ CopiedOut r d va buf ret r') := by
  induction fuel generalizing r va buf with
  | zero =>
    obtain rfl := List.length_eq_zero_iff.mp (Nat.le_zero.mp hf)
    exact ⟨fun i hi => absurd hi (Nat.not_lt_zero i), .inl ⟨rfl, hva.le, .refl r d va []⟩⟩
  | succ fuel ih =>
    refine wp_cond (fun hpos => ?_) (fun hpos => ?_)
    · have hva0 : PGROUNDDOWN va / 4096 = va / 4096 := by
        unfold PGROUNDDOWN
        omega
      have hoff : va - PGROUNDDOWN va = va % 4096 := by
        unfold PGROUNDDOWN
        omega
      refine wp_uva2ka (usable_of_lt hP.dir) hva0 (by omega) (fun hn => ?_)
        (fun t ht => usable_of_lt (hP.table _ t ht)) (fun ht hna => ?_) (fun ht ha => ?_)
      · -- the first page has no page table
        refine hb.resolve_left (fun hb => ?_)
        have hsm := hb 0 hpos (fun j hj => absurd hj (Nat.not_lt_zero j))
        rw [Nat.add_zero, hn] at hsm
        cases hsm
      · exact ⟨backed_of_not_accessible ht hna, .inr ⟨rfl, 0, hpos, hva, .refl r d va buf, hna⟩⟩
      · rw [hoff]
        have hlow := hP.low _ ha
        have hn : min (PGSIZE - va % 4096) buf.length ≤ buf.length ∧
            va % 4096 + min (PGSIZE - va % 4096) buf.length ≤ 4096 ∧ 0 < min (PGSIZE - va % 4096) buf.length ∧
            (min (PGSIZE - va % 4096) buf.length = buf.length ∨
              va % 4096 + min (PGSIZE - va % 4096) buf.length = 4096) := by
          have hsize : PGSIZE = 4096 := rfl
          omega
        generalize min (PGSIZE - va % 4096) buf.length = n at hn ⊢
        obtain ⟨hle, hpage, hn0, hn⟩ := hn
        refine wp_store (usable_of_lt (hP.page _ ha).1) ?_
        have hwrote := wrote_store hP ha hpage hle
        generalize r.setPage _ _ = r1 at hwrote ⊢
        have hdrop : (buf.drop n).length = buf.length - n := List.length_drop
        have hsum : n + (buf.drop n).length = buf.length := by omega
        have hback : Backed r d va (n + (buf.drop n).length) ↔ Backed r1 d (va + n) (buf.drop n).length :=
          backed_next hwrote.same ht ha hpage
        rw [hsum] at hback
        by_cases hlast : n = buf.length
        · have hnil : buf.drop n = [] := by rw [hlast, List.drop_length]
          rw [hnil] at hback ⊢
          refine wp_copyoutLoop_nil ⟨hback.mpr (fun i hi => absurd hi (Nat.not_lt_zero i)), .inl ⟨rfl, by omega, ?_⟩⟩
          exact hlast ▸ hwrote
        · -- the rest starts with the next page
          have hfull := hn.resolve_left hlast
          have hnext : (PGROUNDDOWN va + PGSIZE) % 0x100000000 = va + n := by
            unfold PGROUNDDOWN
            change (va / 4096 * 4096 + 4096) % 4294967296 = _
            omega
          rw [hnext]
          have hapart : ∀ m ≤ (buf.drop n).length, ∀ i < n, ∀ j < m, (va + i) / 4096 ≠ (va + n + j) / 4096 := by omega
          have hrest := ih (hP.congr hwrote.same) (show va + n < 0x100000000 by omega) (hb.imp_left hback.mp) (by omega)
          refine wp_mono (execSpec_mono (S := sig) (exec L) E) _ ?_ hrest
          rintro ret r2 ⟨hb2, ⟨rfl, hend, hw⟩ | ⟨rfl, m, hm, hend, hw, hna⟩⟩
          · have htrans := hwrote.trans hP hw (hapart _ (le_refl _))
            rw [hsum] at htrans
            exact ⟨hback.mpr hb2, .inl ⟨rfl, by omega, htrans⟩⟩
          · refine ⟨hback.mpr hb2, .inr ⟨rfl, n + m, by omega, by omega, hwrote.trans hP hw (hapart m hm.le), ?_⟩⟩
            rw [← Nat.add_assoc, ← accessible_congr hwrote.same]
            exact hna
    · obtain rfl := List.length_eq_zero_iff.mp (Nat.le_zero.mp (Nat.le_of_not_lt hpos))
      exact ⟨fun i hi => absurd hi (Nat.not_lt_zero i), .inl ⟨rfl, hva.le, .refl r d va []⟩⟩

theorem copyout_refused (hP : Private r d) (hva : va < 0x100000000) (ht : (r.table d (va / 4096 / 1024)).isSome)
    (hpos : 0 < buf.length) (hna : ¬ Accessible r d (va / 4096)) : wp (safe L) (copyout d va buf) r (fun x r' => x = -1 ∧ r' = r) := by
  obtain ⟨n, hn⟩ := Nat.exists_eq_succ_of_ne_zero hpos.ne'
  have hva0 : PGROUNDDOWN va / 4096 = va / 4096 := by
    unfold PGROUNDDOWN
    omega
  rw [copyout, hn]
  refine wp_cond (fun _ => ?_) (fun hle => absurd hpos hle)
  refine wp_uva2ka (usable_safe hP.dir) hva0 (by omega) (fun hn => ?_) (fun t htv => usable_safe (hP.table _ t htv))
    (fun _ _ => ⟨rfl, rfl⟩) (fun _ ha => absurd ha hna)
  rw [hn] at ht
  cases ht

end Loop

theorem Space.lt_of_accessible (h : Space L E r d) (ha : Accessible r d v) : v < 524288 := by
  by_contra hv
  exact ha.2 (h.kernel v (Nat.le_of_not_lt hv))

theorem Space.private (h : Space L E r d) : Private r d := by
  have href : ∀ v, Accessible r d v → r.refs d (.user v) = some (frame (r.entry d v)) := fun v ha => if_pos ⟨h.lt_of_accessible ha, ha.1⟩
  refine ⟨h.lt (x := .dir) rfl, fun i t ht => h.lt (x := .table i) ht, fun v ha => ⟨h.lt (href v ha), ?_, fun i hi => ?_⟩,
    fun u v hu hv e => ?_, fun v ha => h.lt_of_accessible ha⟩
  · intro e
    have hx : Ref.user v = .dir := h.exact.inj (href v ha) (by rw [e]; rfl)
    cases hx
  · have hx : Ref.user v = .table i := h.exact.inj (href v ha) hi
    cases hx
  · have hx : Ref.user u = .user v := h.exact.inj (href u hu) (by rw [e]; exact href v hv)
    cases hx
    rfl

structure Stored (L : Layout) (E : Set ℕ) (d : ℕ) (r r' : Ram) : Prop where
  space : Space L E r' d
  keep : Keeps L E r r'
  entry : r'.entry d = r.entry d

theorem Stored.refl (h : Space L E r d) : Stored L E d r r := ⟨h, .refl L E r, rfl⟩

theorem Stored.trans (h : Stored L E d r r') (h' : Stored L E d r' r'') : Stored L E d r r'' :=
  ⟨h'.space, h.keep.trans h'.keep, h'.entry.trans h.entry⟩

theorem Stored.write (h : Space L E r d) (hx : r.refs d (.user v) = some f) (m : Mem) : Stored L E d r (r.setPage f m) := by
  obtain ⟨h1, hsame, -⟩ := h.write hx m
  exact ⟨h1, keeps_setPage (h.mem hx).1 (h.mem hx).2 m, hsame.entry⟩

theorem copyoutLoop_stored {Φ : Spec sig Ram} [Grants L Φ] (hh : Halts Φ) (h : Space L E r d) (hva : va < 0x100000000) :
    wp Φ (copyoutLoop d fuel va buf) r (fun _ r' => Stored L E d r r') := by
  induction fuel generalizing r va buf with
  | zero => exact .refl h
  | succ fuel ih =>
    refine wp_cond (fun _ => ?_) (fun _ => .refl h)
    have hva0 : PGROUNDDOWN va / 4096 = va / 4096 := by
      unfold PGROUNDDOWN
      omega
    refine wp_uva2ka (h.usable (x := .dir) rfl) hva0 (by omega) (fun _ => hh _ _ _)
      (fun t ht => h.usable (x := .table _) ht) (fun _ _ => .refl h) (fun _ ha => ?_)
    have hx : r.refs d (.user (va / 4096)) = some (frame (r.entry d (va / 4096))) := if_pos ⟨h.lt_of_accessible ha, ha.1⟩
    refine wp_store (h.usable hx) ?_
    have hwrite := Stored.write h hx (overwrite (r.page (frame (r.entry d (va / 4096)))) (va - PGROUNDDOWN va)
      (buf.take (min (PGSIZE - (va - PGROUNDDOWN va)) buf.length)))
    refine wp_mono (grants_mono L) _ ?_ (ih hwrite.space (Nat.mod_lt _ (by decide)))
    intro _ r1 h1
    exact hwrite.trans h1

end EnhancedXv6.Vm
