import EnhancedXv6.BcacheView
import EnhancedXv6.LogDisk

namespace EnhancedXv6.LogDisk

open Bcache

variable {P : Type*}

structure Tidy (c c' : Bcache P) : Prop where
  dev : ∀ j, (c.buf j).dev = ROOTDEV → (c'.buf j).dev = ROOTDEV
  holder : ∀ j, (c'.buf j).holder = (c.buf j).holder
  dirty : ∀ j, (c'.buf j).dirty → (c.buf j).dirty ∧ (c'.buf j).blockno = (c.buf j).blockno
  held : ∀ j, (c.buf j).holder ≠ none →
    (c'.buf j).blockno = (c.buf j).blockno ∧ ((c.buf j).valid → (c'.buf j).valid)

namespace Tidy

variable {c c' c'' : Bcache P} {i : Fin NBUF}

theorem trans (h : Tidy c c') (h' : Tidy c' c'') : Tidy c c'' where
  dev j hj := h'.dev j (h.dev j hj)
  holder j := (h'.holder j).trans (h.holder j)
  dirty j hj := by
    obtain ⟨h1, h2⟩ := h'.dirty j hj
    obtain ⟨h3, h4⟩ := h.dirty j h1
    exact ⟨h3, h2.trans h4⟩
  held j hj := by
    obtain ⟨h1, h2⟩ := h.held j hj
    obtain ⟨h3, h4⟩ := h'.held j (by rwa [h.holder])
    exact ⟨h3.trans h1, fun hv => h4 (h2 hv)⟩

theorem setBuf {f : Buf P} (disk : ℕ → Block) (lru : List (Fin NBUF))
    (hdev : f.dev = (c.buf i).dev) (hb : f.blockno = (c.buf i).blockno) (hh : f.holder = (c.buf i).holder)
    (hd : f.dirty → (c.buf i).dirty) (hv : (c.buf i).valid → f.valid) :
    Tidy c { c.setBuf i f with disk := disk, lru := lru } := by
  constructor <;> intro j <;> by_cases hj : j = i
  · subst hj
    simp [hdev]
  · simp [setBuf_of_ne c f hj]
  · subst hj
    simpa using hh
  · simp [setBuf_of_ne c f hj]
  · subst hj
    simpa [hb] using hd
  · simp [setBuf_of_ne c f hj]
  · subst hj
    simpa [hb] using fun _ => hv
  · simp [setBuf_of_ne c f hj]

theorem fill (c : Bcache P) (i : Fin NBUF) : Tidy c (c.fill i) := by
  unfold Bcache.fill iderw
  split_ifs
  · exact ⟨fun _ => id, fun _ => rfl, fun _ h => ⟨h, rfl⟩, fun _ _ => ⟨rfl, id⟩⟩
  · exact setBuf _ _ rfl rfl rfl (by simp) (by simp)
  · exact setBuf _ c.lru rfl rfl rfl (by simp) (by simp)

theorem setData_bwrite (c : Bcache P) (i : Fin NBUF) (d : Block) : Tidy c ((c.setData i d).bwrite i) := by
  have h : (c.setData i d).bwrite i = { c.setBuf i { c.buf i with data := d, dirty := false, valid := true } with
      disk := Function.update c.disk (c.buf i).blockno d, lru := c.lru } := by
    simp [Bcache.bwrite, Bcache.setData, Bcache.setDirty, iderw, Bcache.setBuf]
  rw [h]
  exact setBuf _ _ rfl rfl rfl (by simp) (by simp)

theorem brelse (h : (c.buf i).holder = none) : Tidy c (c.brelse i) :=
  setBuf (f := { c.buf i with holder := none, refcnt := (c.buf i).refcnt - 1 }) _ _ rfl rfl h.symm id id

theorem bget {n : Fin NBUF → ℕ} {U : Fin NBUF → Bool} {V : ℕ → Block} (h : c.Shows n U V) {b : ℕ}
    (hc : c.bget b = some (i, c')) : Tidy c c' := by
  unfold Bcache.bget at hc
  split at hc
  case h_1 k hk =>
    obtain ⟨rfl, rfl⟩ : k = i ∧ _ := by simpa using hc
    exact setBuf c.disk c.lru rfl rfl rfl id id
  case h_2 hk =>
    obtain ⟨k, hu, hki⟩ := Option.map_eq_some_iff.1 hc
    obtain ⟨rfl, rfl⟩ : k = i ∧ _ := by simpa using hki
    have hfree : (c.buf k).holder = none := by
      by_contra hne
      have := h.held k hne
      rw [← h.refcnt, (unused_eq_some hu).1] at this
      omega
    constructor <;> intro j <;> by_cases hj : j = k
    · subst hj
      simp
    · simp [setBuf_of_ne c _ hj]
    · subst hj
      simp
    · simp [setBuf_of_ne c _ hj]
    · subst hj
      simp
    · simp [setBuf_of_ne c _ hj]
    · subst hj
      exact fun hne => absurd hfree hne
    · simp [setBuf_of_ne c _ hj]

theorem bread {n : Fin NBUF → ℕ} {U : Fin NBUF → Bool} {V : ℕ → Block} (h : c.Shows n U V) {b : ℕ}
    (hc : c.bread b = some (i, c')) : Tidy c c' := by
  unfold Bcache.bread at hc
  split at hc
  case h_2 => cases hc
  case h_1 k c1 hget =>
    split_ifs at hc
    obtain ⟨rfl, rfl⟩ : k = i ∧ _ := by simpa using hc
    exact (Tidy.bget h hget).trans (fill c1 k)

end Tidy

theorem setData_bwrite_disk (c : Bcache P) (i : Fin NBUF) (d : Block) :
    ((c.setData i d).bwrite i).disk = Function.update c.disk (c.buf i).blockno d := by
  simp [Bcache.bwrite, Bcache.setData, Bcache.setDirty, iderw, Bcache.setBuf]

structure Sends (c c' : Bcache P) (n : Fin NBUF → ℕ) (U : Fin NBUF → Bool) (V : ℕ → Block) (b : ℕ) (d : Block) :
    Prop where
  shows : c'.Shows n U (Function.update V b d)
  disk : c'.disk = Function.update c.disk b d
  tidy : Tidy c c'

namespace Sends

variable {c c' : Bcache P} {n : Fin NBUF → ℕ} {U : Fin NBUF → Bool} {V : ℕ → Block}

theorem of_two {i j k a b : Fin NBUF} {c2 : Bcache P} {d : Block} {m : ℕ}
    (h2 : c2.Shows (Function.update (Function.update n i (n i + 1)) j (Function.update n i (n i + 1) j + 1)) U V)
    (ht : Tidy c c2) (hdisk : c2.disk = c.disk) (hi : (c2.buf i).holder = none) (hj : (c2.buf j).holder = none)
    (hab : (a = i ∧ b = j) ∨ (a = j ∧ b = i)) (hk : k = i ∨ k = j)
    (hdev : (c2.buf k).dev = ROOTDEV) (hblockno : (c2.buf k).blockno = m) :
    Sends c ((((c2.setData k d).bwrite k).brelse a).brelse b) n U V m d := by
  have hUi := h2.not_changed hi
  have hUj := h2.not_changed hj
  have hUk : U k = false := by rcases hk with rfl | rfl <;> assumption
  have hUa : U a = false := by rcases hab with ⟨rfl, -⟩ | ⟨rfl, -⟩ <;> assumption
  have hUb : U b = false := by rcases hab with ⟨-, rfl⟩ | ⟨-, rfl⟩ <;> assumption
  have hw := h2.bwrite hdev d
  have hU : Function.update U k false = U := by rw [← hUk, Function.update_eq_self]
  rw [hU, hblockno] at hw
  have hr := (hw.brelse hUa).brelse hUb
  have ht1 := Tidy.setData_bwrite c2 k d
  have hha : ∀ x, x = i ∨ x = j → (((c2.setData k d).bwrite k).buf x).holder = none := by
    rintro x (rfl | rfl)
    · rw [ht1.holder, hi]
    · rw [ht1.holder, hj]
  have ht2 := Tidy.brelse (hha a (by tauto))
  have ht3 := Tidy.brelse (i := b) ((ht2.holder b).trans (hha b (by tauto)))
  refine ⟨?_, ?_, ((ht.trans ht1).trans ht2).trans ht3⟩
  · convert hr using 1
    funext x
    rcases hab with ⟨rfl, rfl⟩ | ⟨rfl, rfl⟩ <;> by_cases h1 : x = a <;> by_cases h3 : x = b <;>
      simp [Function.update_apply, h1, h3] <;> grind
  · change ((c2.setData k d).bwrite k).disk = _
    rw [setData_bwrite_disk, hdisk, hblockno]

theorem writeLog (h : c.Shows n U V) {start tail b : ℕ} (hc : writeLog c start tail b = some c') :
    Sends c c' n U V (start + tail + 1) (V b) := by
  obtain ⟨⟨i, c1⟩, hx, hc⟩ := Option.bind_eq_some_iff.1 hc
  obtain ⟨⟨j, c2⟩, hy, hc⟩ := Option.bind_eq_some_iff.1 hc
  obtain ⟨h2, ⟨hdi, hbi, hi, -⟩, ⟨-, -, hj, hvj⟩, hdisk⟩ := h.bread_bread hx hy
  obtain ⟨h1, -⟩ := h.bread hx
  cases hc
  rw [← hvj]
  exact of_two h2 ((Tidy.bread h hx).trans (Tidy.bread h1 hy)) hdisk hi hj (.inr ⟨rfl, rfl⟩) (.inl rfl) hdi hbi

theorem installTrans (h : c.Shows n U V) {start tail b : ℕ} (hc : installTrans c start tail b = some c') :
    Sends c c' n U V b (V (start + tail + 1)) := by
  obtain ⟨⟨i, c1⟩, hx, hc⟩ := Option.bind_eq_some_iff.1 hc
  obtain ⟨⟨j, c2⟩, hy, hc⟩ := Option.bind_eq_some_iff.1 hc
  obtain ⟨h2, ⟨-, -, hi, hvi⟩, ⟨hdj, hbj, hj, -⟩, hdisk⟩ := h.bread_bread hx hy
  obtain ⟨h1, -⟩ := h.bread hx
  cases hc
  rw [← hvi]
  exact of_two h2 ((Tidy.bread h hx).trans (Tidy.bread h1 hy)) hdisk hi hj (.inl ⟨rfl, rfl⟩) (.inr rfl) hdj hbj

theorem writeHead (h : c.Shows n U V) {start : ℕ} {lh : List ℕ} (hc : writeHead c start lh = some c') :
    Sends c c' n U V start (encode lh (V start)) := by
  obtain ⟨⟨i, c1⟩, hx, hc⟩ := Option.bind_eq_some_iff.1 hc
  obtain ⟨h1, ⟨hdev, hblockno, hfree, hvalid⟩, hdisk, -⟩ := h.bread hx
  have hUi := h1.not_changed hfree
  have hview := h1.view i hvalid hUi
  rw [hblockno] at hview
  cases hc
  dsimp only
  rw [hview]
  have hw := h1.bwrite hdev (encode lh (V start))
  have hU : Function.update U i false = U := by rw [← hUi, Function.update_eq_self]
  rw [hU, hblockno] at hw
  have ht1 := Tidy.setData_bwrite c1 i (encode lh (V start))
  refine ⟨?_, ?_, ((Tidy.bread h hx).trans ht1).trans (Tidy.brelse ((ht1.holder i).trans hfree))⟩
  · simpa using hw.brelse hUi
  · change ((c1.setData i _).bwrite i).disk = _
    rw [setData_bwrite_disk, hdisk, hblockno]

end Sends

theorem readHead_spec {c c' : Bcache P} {n : Fin NBUF → ℕ} {U : Fin NBUF → Bool} {V : ℕ → Block} {start : ℕ}
    {lh : List ℕ} (h : c.Shows n U V) (hc : readHead c start = some (lh, c')) :
    c'.Shows n U V ∧ c'.disk = c.disk ∧ Tidy c c' ∧ lh = decode (V start) := by
  obtain ⟨⟨i, c1⟩, hx, hc⟩ := Option.bind_eq_some_iff.1 hc
  obtain ⟨h1, ⟨-, hblockno, hfree, hvalid⟩, hdisk, -⟩ := h.bread hx
  have hUi := h1.not_changed hfree
  have hview := h1.view i hvalid hUi
  rw [hblockno] at hview
  cases hc
  refine ⟨by simpa using h1.brelse hUi, hdisk, (Tidy.bread h hx).trans (Tidy.brelse hfree), ?_⟩
  rw [hview]

end EnhancedXv6.LogDisk
