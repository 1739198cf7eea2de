import EnhancedXv6.Interleaving
import EnhancedXv6.LogCache

namespace EnhancedXv6.LogDisk

open Counting Bcache

variable {P : Type*} [Fintype P] {L : Layout}

def Proc.wants (i : Fin NBUF) (c : Proc) : ℕ := if c.want = some i then 1 else 0

def Proc.active (c : Proc) : ℕ := c.inOp.toNat

def State.refs (s : State P) (i : Fin NBUF) : ℕ :=
  total (Proc.wants i) s.proc + (s.cache.buf i).holder.isSome.toNat

structure Good (L : Layout) (s : State P) (V : ℕ → Block) : Prop where
  shows : s.cache.Shows s.refs s.changed V
  start : s.log.start = L.logstart
  size : s.log.size = L.nlog
  outstanding : s.log.outstanding = total Proc.active s.proc
  idle : s.log.outstanding ≠ 0 → s.phase = .idle
  committing : s.phase.isUp → (s.log.committing = false ↔ s.phase = .idle)
  down : s.phase.isUp = false → s.log.outstanding = 0 ∧ s.log.committing = false
  wanted : ∀ p i, (s.proc p).want = some i → (s.cache.buf i).dev = ROOTDEV
  valid : ∀ i, (s.cache.buf i).holder ≠ none → (s.cache.buf i).valid
  dirty : ∀ i, (s.cache.buf i).dirty → L.Home (s.cache.buf i).blockno
  changed : ∀ i, s.changed i → ∃ p, (s.cache.buf i).holder = some p ∧ (s.proc p).inOp
  passed : ∀ p i, (s.proc p).passed = some i →
    (s.cache.buf i).holder = some p ∧ (s.proc p).inOp ∧ L.Home (s.cache.buf i).blockno

namespace Good

variable {s t : State P} {V : ℕ → Block} {p : P} {i : Fin NBUF}

theorem idle_of_inOp (h : Good L s V) (hp : (s.proc p).inOp) : s.phase = .idle := by
  have ha := le_total Proc.active s.proc p
  rw [← h.outstanding, Proc.active, hp] at ha
  exact h.idle (Nat.pos_iff_ne_zero.1 ha)

theorem synced (h : Good L s V) {b : ℕ} (hb : ¬ L.Home b) : V b = s.cache.disk b := by
  by_cases hc : ∃ i, (s.cache.buf i).valid ∧ (s.cache.buf i).blockno = b
  · obtain ⟨i, hv, rfl⟩ := hc
    refine (h.shows.clean i hv ?_).symm
    by_contra hd
    exact hb (h.dirty i (by simpa using hd))
  · refine (h.shows.uncached b fun i hv hi => hc ⟨i, hv, hi⟩).symm

theorem tidy (h : Good L s V) {c : Bcache P} {log : Log} {phase : Phase} {V' : ℕ → Block} (ht : Tidy s.cache c)
    (hs : c.Shows s.refs s.changed V') (hstart : log.start = s.log.start) (hsize : log.size = s.log.size)
    (hout : log.outstanding = s.log.outstanding) (hidle : log.outstanding ≠ 0 → phase = .idle)
    (hup : phase.isUp → (log.committing = false ↔ phase = .idle))
    (hdown : phase.isUp = false → log.outstanding = 0 ∧ log.committing = false) :
    Good L { s with cache := c, log := log, phase := phase } V' where
  shows := by
    convert hs using 1
    funext i
    simp [State.refs, ht.holder]
  start := hstart.trans h.start
  size := hsize.trans h.size
  outstanding := hout.trans h.outstanding
  idle := hidle
  committing := hup
  down := hdown
  wanted p i hp := ht.dev i (h.wanted p i hp)
  valid i hi := by
    have hi' : (s.cache.buf i).holder ≠ none := by rwa [← ht.holder]
    exact (ht.held i hi').2 (h.valid i hi')
  dirty i hi := by
    obtain ⟨hd, hb⟩ := ht.dirty i hi
    dsimp only at hb ⊢
    rw [hb]
    exact h.dirty i hd
  changed i hi := by
    obtain ⟨p, hp, hop⟩ := h.changed i hi
    exact ⟨p, (ht.holder i).trans hp, hop⟩
  passed p i hp := by
    obtain ⟨hh, hop, hb⟩ := h.passed p i hp
    have hheld := (ht.held i (by simp [hh])).1
    dsimp only at hheld ⊢
    rw [hheld]
    exact ⟨(ht.holder i).trans hh, hop, hb⟩

variable [DecidableEq P]

theorem move (h : Good L s V) {c : Proc} (log : Log) (phase : Phase) (hwant : c.want = (s.proc p).want)
    (hstart : log.start = s.log.start) (hsize : log.size = s.log.size)
    (hout : log.outstanding + (s.proc p).active = s.log.outstanding + c.active)
    (hidle : log.outstanding ≠ 0 → phase = .idle)
    (hup : phase.isUp → (log.committing = false ↔ phase = .idle))
    (hdown : phase.isUp = false → log.outstanding = 0 ∧ log.committing = false)
    (hchanged : ∀ i, s.changed i → (s.cache.buf i).holder = some p → c.inOp)
    (hpassed : ∀ i, c.passed = some i →
      (s.cache.buf i).holder = some p ∧ c.inOp ∧ L.Home (s.cache.buf i).blockno) :
    Good L ({ s with log := log, phase := phase }.setProc p c) V where
  shows := by
    have hrefs : ({ s with log := log, phase := phase }.setProc p c).refs = s.refs := by
      funext i
      have := total_update (Proc.wants i) s.proc p c
      simp only [State.refs, State.setProc, Proc.wants, hwant] at this ⊢
      omega
    rw [hrefs]
    exact h.shows
  start := hstart.trans h.start
  size := hsize.trans h.size
  outstanding := by
    have := total_update Proc.active s.proc p c
    have ho := h.outstanding
    change log.outstanding = total Proc.active (Function.update s.proc p c)
    omega
  idle := hidle
  committing := hup
  down := hdown
  wanted q i hq := by
    by_cases hqp : q = p
    · subst hqp
      exact h.wanted q i (by simpa [State.setProc, hwant] using hq)
    · exact h.wanted q i (by simpa [State.setProc, hqp] using hq)
  valid := h.valid
  dirty := h.dirty
  changed i hi := by
    obtain ⟨q, hq, hop⟩ := h.changed i hi
    refine ⟨q, hq, ?_⟩
    by_cases hqp : q = p
    · subst hqp
      simpa [State.setProc] using hchanged i hi hq
    · simpa [State.setProc, hqp] using hop
  passed q i hq := by
    by_cases hqp : q = p
    · subst hqp
      simpa [State.setProc] using hpassed i (by simpa [State.setProc] using hq)
    · simpa [State.setProc, hqp] using h.passed q i (by simpa [State.setProc, hqp] using hq)

theorem beginOp (h : Good L s V) (hr : s.Runs p) (hs : s.beginOp p = some t) : Good L t V := by
  obtain ⟨hup, -, hpassed⟩ := hr
  unfold State.beginOp at hs
  split_ifs at hs with hop
  obtain ⟨log, hlog, rfl⟩ := Option.map_eq_some_iff.1 hs
  obtain ⟨hc, -, rfl⟩ := Log.beginOp_eq_some hlog
  have hidle := (h.committing hup).1 hc
  refine h.move _ _ rfl rfl rfl ?_ (fun _ => hidle) (fun _ => h.committing hup) (by simp [hup]) (fun _ _ _ => rfl) ?_
  · simp [Proc.active, hop]
  · intro i hi
    simp [hpassed] at hi

theorem logCheck (h : Good L s V) (hs : s.logCheck L p i = some t) : Good L t V := by
  unfold State.logCheck at hs
  split_ifs at hs with hg
  obtain ⟨hop, hh, hb⟩ := hg
  split at hs
  case h_2 => cases hs
  case h_1 =>
    obtain rfl := by simpa using hs
    refine h.move s.log s.phase rfl rfl rfl rfl h.idle h.committing h.down (fun _ _ _ => hop) ?_
    rintro j hj
    obtain rfl : i = j := by simpa using hj
    exact ⟨hh, hop, hb⟩

theorem endOp (h : Good L s V) (hr : s.Runs p) (hs : s.endOp p = some t) :
    Good L t V ∧ t.cache = s.cache ∧ t.log.lh = s.log.lh ∧ t.changed = s.changed ∧
      (t.phase = s.phase ∨ s.phase = .idle ∧ t.log.outstanding = 0 ∧
        t.phase = if s.log.lh = [] then .finish else .writeLog 0) := by
  obtain ⟨hup, -, hpassed⟩ := hr
  unfold State.endOp at hs
  split_ifs at hs with hg
  obtain ⟨hop, hclean⟩ := hg
  have hidle := h.idle_of_inOp hop
  have hpos := le_total Proc.active s.proc p
  rw [← h.outstanding, Proc.active, hop] at hpos
  simp only [Bool.toNat_true] at hpos
  rw [Log.endOp_of_not_committing ((h.committing hup).2 hidle)] at hs
  simp only [Option.some.injEq] at hs
  subst hs
  refine ⟨h.move _ _ rfl rfl rfl ?_ ?_ ?_ ?_ ?_ ?_, rfl, rfl, rfl, ?_⟩
  · simp only [Proc.active, hop, Bool.toNat_true, Bool.toNat_false]
    omega
  · intro hne
    simpa [hne] using hidle
  · split_ifs with h1 h2 <;> simp_all [Phase.isUp]
  · split_ifs with h1 h2 <;> simp_all [Phase.isUp]
  · intro i hi hh
    simp [hclean i hh] at hi
  · intro i hi
    simp [hpassed] at hi
  · by_cases hlast : s.log.outstanding - 1 = 0
    · right
      simp [hlast, State.setProc, hidle]
    · left
      simp [hlast, State.setProc]

theorem touch (h : Good L s V) {c : Proc} (log : Log) {cache : Bcache P} {changed : Fin NBUF → Bool}
    {V' : ℕ → Block} (hop : c.inOp = (s.proc p).inOp) (hlog : log = { s.log with lh := log.lh })
    (hshows : cache.Shows ({ s with cache := cache }.setProc p c).refs changed V')
    (hwanted : ∀ q i, (Function.update s.proc p c q).want = some i → (cache.buf i).dev = ROOTDEV)
    (hvalid : ∀ i, (cache.buf i).holder ≠ none → (cache.buf i).valid)
    (hdirty : ∀ i, (cache.buf i).dirty → L.Home (cache.buf i).blockno)
    (hchanged : ∀ i, changed i → ∃ q, (cache.buf i).holder = some q ∧ (s.proc q).inOp)
    (hpassed : ∀ q i, (Function.update s.proc p c q).passed = some i →
      (cache.buf i).holder = some q ∧ (s.proc q).inOp ∧ L.Home (cache.buf i).blockno) :
    Good L ({ s with log := log, cache := cache, changed := changed }.setProc p c) V' := by
  have hsame : ∀ q, (Function.update s.proc p c q).inOp = (s.proc q).inOp := by
    intro q
    by_cases hqp : q = p
    · subst hqp
      simpa using hop
    · simp [hqp]
  rw [hlog]
  refine ⟨hshows, h.start, h.size, ?_, h.idle, h.committing, h.down, hwanted, hvalid, hdirty, ?_, ?_⟩
  · exact h.outstanding.trans (total_congr fun q => by simp only [Proc.active, State.setProc, hsame])
  · intro i hi
    obtain ⟨q, hq, hqop⟩ := hchanged i hi
    exact ⟨q, hq, (hsame q).trans hqop⟩
  · intro q i hq
    obtain ⟨h1, h2, h3⟩ := hpassed q i hq
    exact ⟨h1, (hsame q).trans h2, h3⟩

theorem bget (h : Good L s V) {b : ℕ} (hr : s.Runs p) (hs : s.bget p b = some t) :
    Good L t V ∧ t.cache.disk = s.cache.disk := by
  obtain ⟨-, hwant, hpassed⟩ := hr
  obtain ⟨⟨i, c⟩, hget, rfl⟩ := Option.map_eq_some_iff.1 hs
  obtain ⟨hshows, ⟨hdev, -⟩, hdisk, -⟩ := h.shows.bget hget
  have ht := Tidy.bget h.shows hget
  have hrefs : ({ s with cache := c }.setProc p { s.proc p with want := some i }).refs =
      Function.update s.refs i (s.refs i + 1) := by
    funext j
    have := total_update (Proc.wants j) s.proc p { s.proc p with want := some i }
    by_cases hj : j = i
    · subst hj
      simp only [State.refs, State.setProc, Proc.wants, hwant, ht.holder, Function.update_self] at this ⊢
      simp only [reduceCtorEq, if_false, if_true] at this
      omega
    · simp only [State.refs, State.setProc, Proc.wants, hwant, ht.holder, Function.update_of_ne hj] at this ⊢
      simp only [reduceCtorEq, if_false, Option.some.injEq, if_neg (Ne.symm hj)] at this
      omega
  refine ⟨h.touch s.log rfl rfl (by rw [hrefs]; exact hshows) ?_ ?_ ?_ ?_ ?_, hdisk⟩
  · intro q j hq
    by_cases hqp : q = p
    · subst hqp
      obtain rfl : i = j := by simpa using hq
      exact hdev
    · exact ht.dev j (h.wanted q j (by simpa [hqp] using hq))
  · intro j hj
    have hj' : (s.cache.buf j).holder ≠ none := by rwa [← ht.holder]
    exact (ht.held j hj').2 (h.valid j hj')
  · intro j hj
    obtain ⟨hd, hb⟩ := ht.dirty j hj
    rw [hb]
    exact h.dirty j hd
  · intro j hj
    obtain ⟨q, hq, hop⟩ := h.changed j hj
    exact ⟨q, (ht.holder j).trans hq, hop⟩
  · intro q j hq
    have hqp : q ≠ p := by
      rintro rfl
      simp [hpassed] at hq
    obtain ⟨hh, hop, hb⟩ := h.passed q j (by simpa [hqp] using hq)
    rw [(ht.held j (by simp [hh])).1]
    exact ⟨(ht.holder j).trans hh, hop, hb⟩

theorem bread (h : Good L s V) (hs : s.bread p = some t) : Good L t V ∧ t.cache.disk = s.cache.disk := by
  unfold State.bread at hs
  split at hs
  case h_2 => cases hs
  case h_1 i hi =>
    split_ifs at hs with hfree
    obtain rfl := by simpa using hs
    rw [Option.isNone_iff_eq_none] at hfree
    have hpos : 0 < s.refs i := by
      have := le_total (Proc.wants i) s.proc p
      simp only [Proc.wants, hi, if_true] at this
      exact Nat.add_pos_left this _
    have hshows := h.shows.acquiresleep hpos p
    have hdev : ((s.cache.acquiresleep i p).buf i).dev = ROOTDEV := by
      simp [Bcache.acquiresleep, h.wanted p i hi]
    have hstay := fill_stays (s.cache.acquiresleep i p) i
    have hsame : ∀ j, j ≠ i → (s.cache.acquiresleep i p).buf j = s.cache.buf j := fun j hj => setBuf_of_ne _ _ hj
    have hother : ∀ j q, (s.cache.buf j).holder = some q → j ≠ i := by
      rintro j q hq rfl
      simp [hfree] at hq
    have hrefs : ({ s with cache := (s.cache.acquiresleep i p).fill i }.setProc p
        { s.proc p with want := none }).refs = s.refs := by
      funext j
      have := total_update (Proc.wants j) s.proc p { s.proc p with want := none }
      by_cases hj : j = i
      · subst hj
        simp only [State.refs, State.setProc, Proc.wants, hi, (hstay j).holder] at this ⊢
        simp [Bcache.acquiresleep, hfree] at this ⊢
        omega
      · simp only [State.refs, State.setProc, Proc.wants, hi, (hstay j).holder, hsame j hj] at this ⊢
        simp only [reduceCtorEq, if_false, Option.some.injEq, if_neg (Ne.symm hj)] at this
        omega
    refine ⟨h.touch s.log rfl rfl (by rw [hrefs]; exact hshows.fill hdev) ?_ ?_ ?_ ?_ ?_,
      hshows.fill_disk i⟩
    · intro q j hq
      have hqp : q ≠ p := by
        rintro rfl
        simp at hq
      rw [(hstay j).dev]
      by_cases hj : j = i
      · subst hj
        exact hdev
      · rw [hsame j hj]
        exact h.wanted q j (by simpa [hqp] using hq)
    · intro j hj
      by_cases hji : j = i
      · subst hji
        exact fill_valid _ j
      · rw [(hstay j).holder, hsame j hji] at hj
        exact (hstay j).valid (by rw [hsame j hji]; exact h.valid j hj)
    · intro j hj
      obtain ⟨hd, hb⟩ := (Tidy.fill (s.cache.acquiresleep i p) i).dirty j hj
      rw [hb]
      by_cases hji : j = i
      · subst hji
        simpa [Bcache.acquiresleep] using h.dirty j (by simpa [Bcache.acquiresleep] using hd)
      · rw [hsame j hji] at hd ⊢
        exact h.dirty j hd
    · intro j hj
      obtain ⟨q, hq, hop⟩ := h.changed j hj
      exact ⟨q, by rw [(hstay j).holder, hsame j (hother j q hq), hq], hop⟩
    · intro q j hq
      have hq' : (s.proc q).passed = some j := by
        by_cases hqp : q = p
        · subst hqp
          simpa using hq
        · simpa [hqp] using hq
      obtain ⟨hh, hop, hb⟩ := h.passed q j hq'
      have hji := hother j q hh
      rw [(hstay j).holder, (hstay j).blockno, hsame j hji]
      exact ⟨hh, hop, hb⟩

theorem change (h : Good L s V) {d : Block} (hs : s.change L p i d = some t) :
    Good L t V := by
  unfold State.change at hs
  split_ifs at hs with hg
  obtain ⟨hop, hh, hb⟩ := hg
  obtain rfl := by simpa using hs
  have hbuf : ∀ j, ((s.cache.setData i d).buf j).dev = (s.cache.buf j).dev ∧
      ((s.cache.setData i d).buf j).blockno = (s.cache.buf j).blockno ∧
      ((s.cache.setData i d).buf j).holder = (s.cache.buf j).holder ∧
      ((s.cache.setData i d).buf j).valid = (s.cache.buf j).valid ∧
      ((s.cache.setData i d).buf j).dirty = (s.cache.buf j).dirty := by
    intro j
    by_cases hj : j = i
    · subst hj
      simp [Bcache.setData]
    · simp [Bcache.setData, setBuf_of_ne _ _ hj]
  simp only [forall_and] at hbuf
  obtain ⟨hdev, hblockno, hholder, hvalid, hdirty⟩ := hbuf
  have hrefs : ({ s with cache := s.cache.setData i d }.setProc p (s.proc p)).refs = s.refs := by
    funext j
    simp [State.refs, State.setProc, hholder]
  have hshows := h.shows.setData (h.valid i (by simp [hh])) (by simp [hh]) d
  have := h.touch (p := p) (c := s.proc p) s.log rfl rfl (by rw [hrefs]; exact hshows)
    (fun q j hq => by rw [hdev]; exact h.wanted q j (by simpa using hq))
    (fun j => by rw [hholder, hvalid]; exact h.valid j) (fun j => by rw [hdirty, hblockno]; exact h.dirty j)
    (fun j hj => ?_) (fun q j hq => by rw [hholder, hblockno]; exact h.passed q j (by simpa using hq))
  · simpa [State.setProc] using this
  · rw [hholder]
    by_cases hji : j = i
    · subst hji
      exact ⟨p, hh, hop⟩
    · exact h.changed j (by simpa [hji] using hj)

theorem brelse (h : Good L s V) (hr : s.Runs p) (hs : s.brelse p i = some t) :
    Good L t V := by
  obtain ⟨-, -, hpassed⟩ := hr
  unfold State.brelse at hs
  split_ifs at hs with hg
  obtain ⟨hh, hU⟩ := hg
  obtain rfl := by simpa using hs
  have hbuf : ∀ j, ((s.cache.brelse i).buf j).dev = (s.cache.buf j).dev ∧
      ((s.cache.brelse i).buf j).blockno = (s.cache.buf j).blockno ∧
      ((s.cache.brelse i).buf j).valid = (s.cache.buf j).valid ∧
      ((s.cache.brelse i).buf j).dirty = (s.cache.buf j).dirty := by
    intro j
    by_cases hj : j = i
    · subst hj
      simp [Bcache.brelse]
    · simp [Bcache.brelse, setBuf_of_ne _ _ hj]
  simp only [forall_and] at hbuf
  obtain ⟨hdev, hblockno, hvalid, hdirty⟩ := hbuf
  have hself : ((s.cache.brelse i).buf i).holder = none := by simp [Bcache.brelse]
  have hother : ∀ j, j ≠ i → ((s.cache.brelse i).buf j).holder = (s.cache.buf j).holder := by
    intro j hj
    simp [Bcache.brelse, setBuf_of_ne _ _ hj]
  have hrefs : ({ s with cache := s.cache.brelse i }.setProc p (s.proc p)).refs =
      Function.update s.refs i (s.refs i - 1) := by
    funext j
    by_cases hj : j = i
    · subst hj
      simp [State.refs, State.setProc, hself, hh]
    · simp [State.refs, State.setProc, hother j hj, hj]
  have := h.touch (p := p) (c := s.proc p) s.log rfl rfl (by rw [hrefs]; exact h.shows.brelse hU)
    (fun q j hq => by rw [hdev]; exact h.wanted q j (by simpa using hq)) (fun j hj => ?_)
    (fun j => by rw [hdirty, hblockno]; exact h.dirty j) (fun j hj => ?_) (fun q j hq => ?_)
  · simpa [State.setProc] using this
  · rw [hvalid]
    by_cases hji : j = i
    · subst hji
      simp [hself] at hj
    · exact h.valid j (by rwa [← hother j hji])
  · have hji : j ≠ i := by
      rintro rfl
      simp [hU] at hj
    rw [hother j hji]
    exact h.changed j hj
  · obtain ⟨hq1, hq2, hq3⟩ := h.passed q j (by simpa using hq)
    have hji : j ≠ i := by
      rintro rfl
      obtain rfl : q = p := by simpa [hh] using hq1.symm
      simp [hpassed] at hq
    rw [hother j hji, hblockno]
    exact ⟨hq1, hq2, hq3⟩

theorem logWrite (h : Good L s V) (hs : s.logWrite p = some t) :
    ∃ i, (s.proc p).passed = some i ∧ L.Home (s.cache.buf i).blockno ∧ s.phase = .idle ∧
      Good L t (Function.update V (s.cache.buf i).blockno (s.cache.buf i).data) ∧
      t.cache.disk = s.cache.disk ∧ t.log.lh = (s.log.logWrite (s.cache.buf i).blockno).lh ∧ t.phase = s.phase := by
  unfold State.logWrite at hs
  split at hs
  case h_2 => cases hs
  case h_1 i hi =>
    obtain rfl := by simpa using hs
    obtain ⟨hh, hop, hb⟩ := h.passed p i hi
    refine ⟨i, hi, hb, h.idle_of_inOp hop, ?_, rfl, rfl, rfl⟩
    have hbuf : ∀ j, ((s.cache.setDirty i).buf j).dev = (s.cache.buf j).dev ∧
        ((s.cache.setDirty i).buf j).blockno = (s.cache.buf j).blockno ∧
        ((s.cache.setDirty i).buf j).holder = (s.cache.buf j).holder ∧
        ((s.cache.setDirty i).buf j).valid = (s.cache.buf j).valid := by
      intro j
      by_cases hj : j = i
      · subst hj
        simp [Bcache.setDirty]
      · simp [Bcache.setDirty, setBuf_of_ne _ _ hj]
    simp only [forall_and] at hbuf
    obtain ⟨hdev, hblockno, hholder, hvalid⟩ := hbuf
    have hrefs : ({ s with cache := s.cache.setDirty i }.setProc p { s.proc p with passed := none }).refs =
        s.refs := by
      funext j
      have := total_update (Proc.wants j) s.proc p { s.proc p with passed := none }
      simp only [State.refs, State.setProc, hholder, Proc.wants] at this ⊢
      omega
    have hproc : ∀ q, (Function.update s.proc p { s.proc p with passed := none } q).want = (s.proc q).want := by
      intro q
      by_cases hqp : q = p
      · subst hqp
        simp
      · simp [hqp]
    refine h.touch _ rfl rfl (by rw [hrefs]; exact h.shows.setDirty (h.valid i (by simp [hh])))
      (fun q j hq => by rw [hdev]; exact h.wanted q j (by rwa [hproc] at hq))
      (fun j => by rw [hholder, hvalid]; exact h.valid j) (fun j hj => ?_) (fun j hj => ?_) (fun q j hq => ?_)
    · rw [hblockno]
      by_cases hji : j = i
      · subst hji
        exact hb
      · exact h.dirty j (by simpa [Bcache.setDirty, setBuf_of_ne _ _ hji] using hj)
    · rw [hholder]
      have hji : j ≠ i := by
        rintro rfl
        simp at hj
      exact h.changed j (by simpa [hji] using hj)
    · have hqp : q ≠ p := by
        rintro rfl
        simp at hq
      rw [hholder, hblockno]
      exact h.passed q j (by simpa [hqp] using hq)

end Good

theorem good_boot [DecidableEq P] (disk : ℕ → Block) : Good L (State.boot L disk : State P) disk := by
  have hrefs : (State.boot L disk : State P).refs = fun _ => 0 := by
    funext i
    simp [State.refs, State.boot, total_eq_zero_iff, Proc.wants]
  have hout : total Proc.active (State.boot L disk : State P).proc = 0 := total_eq_zero_iff.2 fun _ => rfl
  constructor
  case shows =>
    rw [hrefs]
    constructor <;> simp [State.boot, ROOTDEV]
  case outstanding => exact hout.symm
  all_goals simp [State.boot, Phase.isUp]

section Commit

variable {s t : State P} {V : ℕ → Block}

theorem Good.sends (h : Good L s V) {c : Bcache P} {b : ℕ} {d : Block} (lh : List ℕ) {phase : Phase}
    (hc : Sends s.cache c s.refs s.changed V b d) (h0 : s.log.outstanding = 0)
    (hup : phase.isUp → (s.log.committing = false ↔ phase = .idle))
    (hdown : phase.isUp = false → s.log.committing = false) :
    Good L { s with cache := c, log := { s.log with lh := lh }, phase := phase } (Function.update V b d) :=
  h.tidy hc.tidy hc.shows rfl rfl rfl (fun hne => absurd h0 hne) hup (fun hd => ⟨h0, hdown hd⟩)

end Commit

end EnhancedXv6.LogDisk
