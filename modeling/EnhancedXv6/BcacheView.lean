
import EnhancedXv6.Bcache
import Mathlib.Tactic.ByContra

namespace EnhancedXv6.Bcache

open Function (update update_eq_self update_of_ne)

variable {P : Type*}

structure Shows (c : Bcache P) (n : Fin NBUF → ℕ) (U : Fin NBUF → Bool) (V : ℕ → Block) : Prop where
  lru : ∀ i, i ∈ c.lru
  refcnt : ∀ i, (c.buf i).refcnt = n i
  held : ∀ i, (c.buf i).holder ≠ none → 0 < n i
  changed : ∀ i, U i → (c.buf i).holder ≠ none ∧ (c.buf i).valid
  dev : ∀ i, (c.buf i).valid → (c.buf i).dev = ROOTDEV
  dirty : ∀ i, (c.buf i).dirty → (c.buf i).valid
  unique : ∀ i j, (c.buf i).dev = ROOTDEV → (c.buf j).dev = ROOTDEV → (c.buf i).blockno = (c.buf j).blockno → i = j
  view : ∀ i, (c.buf i).valid → U i = false → (c.buf i).data = V (c.buf i).blockno
  clean : ∀ i, (c.buf i).valid → (c.buf i).dirty = false → c.disk (c.buf i).blockno = V (c.buf i).blockno
  uncached : ∀ b, (∀ i, (c.buf i).valid → (c.buf i).blockno ≠ b) → c.disk b = V b

@[simp] theorem setBuf_self (c : Bcache P) (i : Fin NBUF) (f : Buf P) : (c.setBuf i f).buf i = f := by
  simp [setBuf]

theorem setBuf_of_ne (c : Bcache P) {i j : Fin NBUF} (f : Buf P) (h : j ≠ i) : (c.setBuf i f).buf j = c.buf j := by
  simp [setBuf, h]

@[simp] theorem setBuf_disk (c : Bcache P) (i : Fin NBUF) (f : Buf P) : (c.setBuf i f).disk = c.disk := rfl

theorem cached_eq_some {c : Bcache P} {b : ℕ} {i : Fin NBUF} (h : c.cached b = some i) :
    (c.buf i).dev = ROOTDEV ∧ (c.buf i).blockno = b := by
  simpa using List.find?_some h

theorem unused_eq_some {c : Bcache P} {i : Fin NBUF} (h : c.unused = some i) :
    (c.buf i).refcnt = 0 ∧ (c.buf i).dirty = false := by
  simpa using List.find?_some h

structure Stays (f g : Buf P) : Prop where
  dev : g.dev = f.dev
  blockno : g.blockno = f.blockno
  holder : g.holder = f.holder
  valid : f.valid → g.valid

theorem Stays.trans {f g k : Buf P} (h : Stays f g) (h' : Stays g k) : Stays f k :=
  ⟨h'.dev.trans h.dev, h'.blockno.trans h.blockno, h'.holder.trans h.holder, fun hv => h'.valid (h.valid hv)⟩

theorem fill_stays (c : Bcache P) (i j : Fin NBUF) : Stays (c.buf j) ((c.fill i).buf j) := by
  unfold fill iderw
  by_cases hj : j = i
  · subst hj
    split_ifs <;> constructor <;> simp
  · split_ifs <;> constructor <;> simp [setBuf_of_ne _ _ hj]

theorem fill_valid (c : Bcache P) (i : Fin NBUF) : ((c.fill i).buf i).valid := by
  unfold fill iderw
  split_ifs with hv hd
  · exact hv
  · simp
  · simp

namespace Shows

variable {c c' : Bcache P} {n : Fin NBUF → ℕ} {U : Fin NBUF → Bool} {V : ℕ → Block} {i : Fin NBUF}

theorem not_changed (h : c.Shows n U V) (hi : (c.buf i).holder = none) : U i = false := by
  by_contra hU
  exact (h.changed i (by simpa using hU)).1 hi

theorem not_cached (h : c.Shows n U V) {b : ℕ} (hb : c.cached b = none) (j : Fin NBUF)
    (hj : (c.buf j).dev = ROOTDEV) : (c.buf j).blockno ≠ b := by
  have := List.find?_eq_none.1 hb j (h.lru j)
  simpa [hj] using this

theorem setBuf_same (h : c.Shows n U V) {m : ℕ} {f : Buf P} (hdev : f.dev = (c.buf i).dev)
    (hblockno : f.blockno = (c.buf i).blockno) (hvalid : f.valid = (c.buf i).valid)
    (hdirty : f.dirty = (c.buf i).dirty) (hdata : f.data = (c.buf i).data) (hm : f.refcnt = m)
    (hheld : f.holder ≠ none → 0 < m) (hU : U i → f.holder ≠ none) :
    (c.setBuf i f).Shows (update n i m) U V := by
  have hbuf : ∀ j, ((c.setBuf i f).buf j).dev = (c.buf j).dev ∧ ((c.setBuf i f).buf j).blockno = (c.buf j).blockno ∧
      ((c.setBuf i f).buf j).valid = (c.buf j).valid ∧ ((c.setBuf i f).buf j).dirty = (c.buf j).dirty ∧
      ((c.setBuf i f).buf j).data = (c.buf j).data := by
    intro j
    by_cases hj : j = i
    · subst hj
      simp [*]
    · simp [setBuf_of_ne c f hj]
  simp only [forall_and] at hbuf
  obtain ⟨h1, h2, h3, h4, h5⟩ := hbuf
  constructor
  case lru => exact h.lru
  case refcnt =>
    intro j
    by_cases hj : j = i
    · subst hj
      simp [hm]
    · simp [setBuf_of_ne c f hj, hj, h.refcnt]
  case held =>
    intro j
    by_cases hj : j = i
    · subst hj
      simpa using hheld
    · simpa [setBuf_of_ne c f hj, hj] using h.held j
  case changed =>
    intro j hj
    rw [h3]
    refine ⟨?_, (h.changed j hj).2⟩
    by_cases hji : j = i
    · subst hji
      simpa using hU hj
    · simpa [setBuf_of_ne c f hji] using (h.changed j hj).1
  case dev => intro j; rw [h3, h1]; exact h.dev j
  case dirty => intro j; rw [h4, h3]; exact h.dirty j
  case unique => intro j k; rw [h1, h1, h2, h2]; exact h.unique j k
  case view => intro j; rw [h3, h5, h2]; exact h.view j
  case clean => intro j; rw [h3, h4, h2]; exact h.clean j
  case uncached => intro b hb; exact h.uncached b (fun j hj => by have := hb j (by rw [h3]; exact hj); rwa [h2] at this)

theorem setBlock (h : c.Shows n U V) (f : Buf P) (disk : ℕ → Block) {u : Bool} {v : Block}
    (hi : (c.buf i).dev = ROOTDEV) (hdev : f.dev = (c.buf i).dev) (hblockno : f.blockno = (c.buf i).blockno)
    (hvalid : f.valid) (hrefcnt : f.refcnt = (c.buf i).refcnt) (hholder : f.holder = (c.buf i).holder)
    (hdisk : ∀ b, b ≠ (c.buf i).blockno → disk b = c.disk b) (hU : u → f.holder ≠ none)
    (hview : u = false → f.data = v) (hclean : f.dirty = false → disk (c.buf i).blockno = v) :
    ({ c with disk := disk }.setBuf i f).Shows n (update U i u) (update V (c.buf i).blockno v) := by
  have hne : ∀ j, j ≠ i → (c.buf j).dev = ROOTDEV → (c.buf j).blockno ≠ (c.buf i).blockno :=
    fun j hj hd hb => hj (h.unique j i hd hi hb)
  have hbuf : ∀ j, j ≠ i → ({ c with disk := disk }.setBuf i f).buf j = c.buf j := fun j hj => setBuf_of_ne _ f hj
  constructor
  case lru => exact h.lru
  case refcnt =>
    intro j
    by_cases hj : j = i
    · subst hj
      simp [hrefcnt, h.refcnt]
    · rw [hbuf j hj, h.refcnt]
  case held =>
    intro j
    by_cases hj : j = i
    · subst hj
      simpa [hholder] using h.held j
    · simpa [hbuf j hj] using h.held j
  case changed =>
    intro j hc
    by_cases hj : j = i
    · subst hj
      simpa [hvalid] using hU (by simpa using hc)
    · rw [hbuf j hj]
      exact h.changed j (by simpa [hj] using hc)
  case dev =>
    intro j hv
    by_cases hj : j = i
    · subst hj
      simp [hdev, hi]
    · rw [hbuf j hj] at hv ⊢
      exact h.dev j hv
  case dirty =>
    intro j hd
    by_cases hj : j = i
    · subst hj
      simpa using hvalid
    · rw [hbuf j hj] at hd ⊢
      exact h.dirty j hd
  case unique =>
    have hsame : ∀ j, (({ c with disk := disk }.setBuf i f).buf j).dev = (c.buf j).dev ∧
        (({ c with disk := disk }.setBuf i f).buf j).blockno = (c.buf j).blockno := by
      intro j
      by_cases hj : j = i
      · subst hj
        simp [hdev, hblockno]
      · simp [hbuf j hj]
    intro j k
    rw [(hsame j).1, (hsame j).2, (hsame k).1, (hsame k).2]
    exact h.unique j k
  case view =>
    intro j hv hu
    by_cases hj : j = i
    · subst hj
      simpa [hblockno] using hview (by simpa using hu)
    · rw [hbuf j hj] at hv ⊢
      rw [update_of_ne (hne j hj (h.dev j hv))]
      exact h.view j hv (by simpa [hj] using hu)
  case clean =>
    intro j hv hd
    by_cases hj : j = i
    · subst hj
      simpa [hblockno] using hclean (by simpa using hd)
    · rw [hbuf j hj] at hv hd ⊢
      have hb := hne j hj (h.dev j hv)
      rw [update_of_ne hb]
      exact (hdisk _ hb).trans (h.clean j hv hd)
  case uncached =>
    intro b hb
    have hbi : b ≠ (c.buf i).blockno := by
      rintro rfl
      exact hb i (by simpa using hvalid) (by simpa using hblockno)
    rw [update_of_ne hbi]
    refine (hdisk b hbi).trans (h.uncached b fun j hv => ?_)
    by_cases hj : j = i
    · subst hj
      exact hbi.symm
    · simpa [hbuf j hj] using hb j (by rwa [hbuf j hj])

theorem setData (h : c.Shows n U V) (hi : (c.buf i).valid) (hp : (c.buf i).holder ≠ none) (d : Block) :
    (c.setData i d).Shows n (update U i true) V := by
  have := h.setBlock { c.buf i with data := d } c.disk (u := true) (v := V (c.buf i).blockno)
    (h.dev i hi) rfl rfl hi rfl rfl (fun _ _ => rfl) (fun _ => hp) (by simp) (h.clean i hi)
  rwa [update_eq_self] at this

theorem setDirty (h : c.Shows n U V) (hi : (c.buf i).valid) :
    (c.setDirty i).Shows n (update U i false) (update V (c.buf i).blockno (c.buf i).data) :=
  h.setBlock { c.buf i with dirty := true } c.disk (h.dev i hi) rfl rfl hi rfl rfl
    (fun _ _ => rfl) (by simp) (fun _ => rfl) (by simp)

theorem fill (h : c.Shows n U V) (hi : (c.buf i).dev = ROOTDEV) : (c.fill i).Shows n U V := by
  unfold Bcache.fill
  split_ifs with hv
  · exact h
  · have hd : (c.buf i).dirty = false := by
      by_contra hd
      exact hv (h.dirty i (by simpa using hd))
    have hU : U i = false := by
      by_contra hU
      exact hv (h.changed i (by simpa using hU)).2
    have hdisk : c.disk (c.buf i).blockno = V (c.buf i).blockno := by
      refine h.uncached _ fun j hj hb => hv ?_
      rwa [← h.unique j i (h.dev j hj) hi hb]
    have := h.setBlock { c.buf i with data := c.disk (c.buf i).blockno, valid := true } c.disk
      (u := U i) (v := V (c.buf i).blockno) hi rfl rfl rfl rfl rfl (fun _ _ => rfl) (by simp [hU]) (fun _ => hdisk)
      (fun _ => hdisk)
    rw [update_eq_self, update_eq_self] at this
    simpa [iderw, hd] using this

theorem bwrite (h : c.Shows n U V) (hi : (c.buf i).dev = ROOTDEV) (d : Block) :
    ((c.setData i d).bwrite i).Shows n (update U i false) (update V (c.buf i).blockno d) := by
  have := h.setBlock { c.buf i with data := d, dirty := false, valid := true }
    (update c.disk (c.buf i).blockno d) (u := false) (v := d) hi rfl rfl rfl rfl rfl
    (fun b hb => update_of_ne hb _ _) (by simp) (fun _ => rfl) (by simp)
  simpa [Bcache.bwrite, Bcache.setData, Bcache.setDirty, iderw, setBuf] using this

theorem acquiresleep (h : c.Shows n U V) (hi : 0 < n i) (p : P) : (c.acquiresleep i p).Shows n U V := by
  have := h.setBuf_same (i := i) (m := n i) (f := { c.buf i with holder := some p }) rfl rfl rfl rfl rfl
    (h.refcnt i) (fun _ => hi) (by simp)
  rwa [update_eq_self] at this

theorem brelse (h : c.Shows n U V) (hU : U i = false) : (c.brelse i).Shows (update n i (n i - 1)) U V := by
  have := h.setBuf_same (i := i) (m := n i - 1)
    (f := { c.buf i with holder := none, refcnt := (c.buf i).refcnt - 1 }) rfl rfl rfl rfl rfl (by simp [h.refcnt])
    (by simp) (by simp [hU])
  refine { this with lru := fun j => ?_ }
  unfold Bcache.brelse
  dsimp only
  split_ifs
  · by_cases hj : j = i
    · simp [hj]
    · exact List.mem_cons_of_mem _ ((List.mem_erase_of_ne hj).2 (h.lru j))
  · exact h.lru j

theorem recycle (h : c.Shows n U V) {b : ℕ} (hb : c.cached b = none) (hi : c.unused = some i) :
    (c.setBuf i { c.buf i with dev := ROOTDEV, blockno := b, valid := false, dirty := false, refcnt := 1 }).Shows
      (update n i 1) U V := by
  obtain ⟨hrefcnt, hclean⟩ := unused_eq_some hi
  have hbuf := fun j (hj : j ≠ i) => setBuf_of_ne c
    { c.buf i with dev := ROOTDEV, blockno := b, valid := false, dirty := false, refcnt := 1 } hj
  have hfree : (c.buf i).holder = none := by
    by_contra hne
    have := h.held i hne
    rw [← h.refcnt, hrefcnt] at this
    omega
  constructor
  case lru => exact h.lru
  case refcnt =>
    intro j
    by_cases hj : j = i
    · subst hj
      simp
    · simp [hbuf j hj, hj, h.refcnt]
  case held =>
    intro j
    by_cases hj : j = i
    · subst hj
      simp
    · simpa [hbuf j hj, hj] using h.held j
  case changed =>
    intro j hc
    by_cases hj : j = i
    · subst hj
      simp [h.not_changed hfree] at hc
    · rw [hbuf j hj]
      exact h.changed j hc
  case dev =>
    intro j hv
    by_cases hj : j = i
    · subst hj
      simp
    · rw [hbuf j hj] at hv ⊢
      exact h.dev j hv
  case dirty =>
    intro j hd
    by_cases hj : j = i
    · subst hj
      simp at hd
    · rw [hbuf j hj] at hd ⊢
      exact h.dirty j hd
  case unique =>
    intro j k
    by_cases hj : j = i <;> by_cases hk : k = i
    · simp [hj, hk]
    · subst hj
      rw [hbuf k hk, setBuf_self]
      exact fun _ hd hb' => absurd hb'.symm (h.not_cached hb k hd)
    · subst hk
      rw [hbuf j hj, setBuf_self]
      exact fun hd _ hb' => absurd hb' (h.not_cached hb j hd)
    · rw [hbuf j hj, hbuf k hk]
      exact h.unique j k
  case view =>
    intro j hv
    by_cases hj : j = i
    · subst hj
      simp at hv
    · rw [hbuf j hj] at hv ⊢
      exact h.view j hv
  case clean =>
    intro j hv
    by_cases hj : j = i
    · subst hj
      simp at hv
    · rw [hbuf j hj] at hv ⊢
      exact h.clean j hv
  case uncached =>
    intro d hd
    by_cases hold : (c.buf i).valid ∧ (c.buf i).blockno = d
    · exact hold.2 ▸ h.clean i hold.1 hclean
    · refine h.uncached d fun j hv hjd => ?_
      by_cases hj : j = i
      · subst hj
        exact hold ⟨hv, hjd⟩
      · have := hd j
        rw [hbuf j hj] at this
        exact this hv hjd

theorem bget (h : c.Shows n U V) {b : ℕ} (hc : c.bget b = some (i, c')) :
    c'.Shows (update n i (n i + 1)) U V ∧ ((c'.buf i).dev = ROOTDEV ∧ (c'.buf i).blockno = b) ∧
      c'.disk = c.disk ∧ ∀ j, 0 < n j → Stays (c.buf j) (c'.buf j) := by
  unfold Bcache.bget at hc
  split at hc
  case h_1 k hk =>
    obtain ⟨rfl, rfl⟩ : k = i ∧ _ := by simpa using hc
    have hhas := cached_eq_some hk
    refine ⟨h.setBuf_same rfl rfl rfl rfl rfl (by simp [h.refcnt]) (fun hh => Nat.succ_pos _)
      (fun hu => (h.changed k hu).1), by simpa using hhas, rfl, fun j _ => ?_⟩
    by_cases hj : j = k
    · subst hj
      constructor <;> simp
    · constructor <;> simp [setBuf_of_ne c _ hj]
  case h_2 hk =>
    obtain ⟨k, hu, hki⟩ := Option.map_eq_some_iff.1 hc
    obtain ⟨rfl, rfl⟩ : k = i ∧ _ := by simpa using hki
    have h0 : n k = 0 := by rw [← h.refcnt, (unused_eq_some hu).1]
    refine ⟨by simpa [h0] using h.recycle hk hu, by simp, rfl, fun j hj => ?_⟩
    have hjk : j ≠ k := by
      rintro rfl
      omega
    constructor <;> simp [setBuf_of_ne c _ hjk]

theorem fill_disk (h : c.Shows n U V) (i : Fin NBUF) : (c.fill i).disk = c.disk := by
  unfold Bcache.fill iderw
  split_ifs with hv hd
  · rfl
  · exact absurd (h.dirty i hd) hv
  · rfl

theorem bread (h : c.Shows n U V) {b : ℕ} (hc : c.bread b = some (i, c')) :
    c'.Shows (update n i (n i + 1)) U V ∧
      ((c'.buf i).dev = ROOTDEV ∧ (c'.buf i).blockno = b ∧ (c'.buf i).holder = none ∧ (c'.buf i).valid) ∧
      c'.disk = c.disk ∧ ∀ j, 0 < n j → Stays (c.buf j) (c'.buf j) := by
  unfold Bcache.bread at hc
  split at hc
  case h_2 => cases hc
  case h_1 k c1 hget =>
    split_ifs at hc with hfree
    obtain ⟨rfl, rfl⟩ : k = i ∧ _ := by simpa using hc
    obtain ⟨h1, ⟨hdev, hblockno⟩, hdisk, hstay⟩ := h.bget hget
    have hk := fill_stays c1 k k
    refine ⟨h1.fill hdev, ⟨hk.dev.trans hdev, hk.blockno.trans hblockno, hk.holder.trans ?_, fill_valid c1 k⟩,
      (h1.fill_disk k).trans hdisk, fun j hj => (hstay j hj).trans (fill_stays c1 k j)⟩
    simpa using hfree

theorem bread_bread (h : c.Shows n U V) {x y : ℕ} {c1 c2 : Bcache P} {j : Fin NBUF}
    (hx : c.bread x = some (i, c1)) (hy : c1.bread y = some (j, c2)) :
    c2.Shows (update (update n i (n i + 1)) j (update n i (n i + 1) j + 1)) U V ∧
      ((c2.buf i).dev = ROOTDEV ∧ (c2.buf i).blockno = x ∧ (c2.buf i).holder = none ∧ (c2.buf i).data = V x) ∧
      ((c2.buf j).dev = ROOTDEV ∧ (c2.buf j).blockno = y ∧ (c2.buf j).holder = none ∧ (c2.buf j).data = V y) ∧
      c2.disk = c.disk := by
  obtain ⟨h1, ⟨hd1, hb1, hf1, hv1⟩, hk1, -⟩ := h.bread hx
  obtain ⟨h2, ⟨hd2, hb2, hf2, hv2⟩, hk2, hstay⟩ := h1.bread hy
  have hi := hstay i (by simp)
  refine ⟨h2, ⟨hi.dev.trans hd1, hi.blockno.trans hb1, hi.holder.trans hf1, ?_⟩, ⟨hd2, hb2, hf2, ?_⟩, hk2.trans hk1⟩
  · rw [h2.view i (hi.valid hv1) (h1.not_changed hf1), hi.blockno, hb1]
  · rw [h2.view j hv2 (h2.not_changed hf2), hb2]

end Shows

end EnhancedXv6.Bcache
