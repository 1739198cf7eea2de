import EnhancedXv6.Fifo
import EnhancedXv6.Transition

namespace EnhancedXv6.FreeList

open LinkedQueue.Queue Transition

structure Kmem where
  word : ℕ → ℕ
  freelist : ℕ := 0

def ptr (a : ℕ) : Option ℕ := if a = 0 then none else some a

/-- `kend` is the symbol `end` of the linker, and `0x8E000000` is `P2V(PHYSTOP)`; `none` is the panic. -/
def kfree (kend : ℕ) (m : Kmem) (v : ℕ) : Option Kmem :=
  if v % 4096 ≠ 0 ∨ v < kend ∨ 0x8E000000 ≤ v then none
  else some
    { word := fun a => if a = v then m.freelist else if v ≤ a ∧ a < v + 4096 then 0x01010101 else m.word a
      freelist := v }

def kalloc (m : Kmem) : ℕ × Kmem := if m.freelist = 0 then (0, m) else (m.freelist, { m with freelist := m.word m.freelist })

def freeLoop (kend vend : ℕ) : ℕ → ℕ → Kmem → Option Kmem
  | 0, _, m => some m
  | fuel + 1, p, m => if p + 4096 ≤ vend then (kfree kend m p).bind (freeLoop kend vend fuel (p + 4096)) else some m

def freerange (kend vstart vend : ℕ) (m : Kmem) : Option Kmem := freeLoop kend vend (vend + 1) ((vstart + 4095) / 4096 * 4096) m

structure State where
  kmem : Kmem
  held : List ℕ
  top : ℕ

inductive Label
  | kalloc
  | kfree (v : ℕ)
  | store (a w : ℕ)
  | kinit (vend : ℕ)

def Page (kend top p : ℕ) : Prop := p % 4096 = 0 ∧ kend ≤ p ∧ p + 4096 ≤ top

instance (kend top p : ℕ) : Decidable (Page kend top p) := inferInstanceAs (Decidable (_ ∧ _))

def step (kend : ℕ) (s : State) : Label → Option State
  | .kalloc =>
    let r := kalloc s.kmem
    some { s with kmem := r.2, held := if r.1 = 0 then s.held else r.1 :: s.held }
  | .kfree v => if v ∈ s.held then (kfree kend s.kmem v).map (fun m => { s with kmem := m, held := s.held.erase v }) else none
  | .store a w =>
    if Page kend 0x8E000000 (a / 4096 * 4096) → a / 4096 * 4096 ∈ s.held then
      some { s with kmem.word := Function.update s.kmem.word a w }
    else none
  | .kinit vend =>
    if s.top ≤ vend ∧ vend ≤ 0x8E000000 ∧ vend % 4096 = 0 then
      (freerange kend s.top vend s.kmem).map ({ s with kmem := ·, top := vend })
    else none

def machine (kend : ℕ) : Machine State Label where
  initial s := s.kmem.freelist = 0 ∧ s.held = [] ∧ s.top = kend
  next := step kend

structure Kmem.Links (kend : ℕ) (m : Kmem) (fs : List ℕ) : Prop where
  chain : Chain (fun p => ptr (m.word p)) (ptr m.freelist) fs
  nodup : fs.Nodup
  page : ∀ p ∈ fs, Page kend 0x8E000000 p

variable {kend : ℕ} {m : Kmem} {fs : List ℕ}

namespace Kmem.Links

theorem kfree (h : m.Links kend fs) (hk : 0 < kend) {v : ℕ} (hv : Page kend 0x8E000000 v) (hn : v ∉ fs) :
    ∃ m', kfree kend m v = some m' ∧ m'.Links kend (v :: fs) := by
  obtain ⟨hmod, hle, hlt⟩ := hv
  refine ⟨_, if_neg (by omega), ⟨?_, ?_⟩, List.nodup_cons.mpr ⟨hn, h.nodup⟩, List.forall_mem_cons.mpr ⟨⟨hmod, hle, hlt⟩, h.page⟩⟩
  · exact if_neg (show v ≠ 0 by omega)
  · simp only [if_pos]
    -- the other pages of the list lie outside of the page that is filled
    refine h.chain.congr (fun p hp => ?_)
    have hpage := (h.page p hp).1
    have hne : p ≠ v := fun he => hn (he ▸ hp)
    rw [if_neg hne, if_neg (by omega)]

theorem kalloc (h : m.Links kend fs) : (kalloc m).1 = fs.headD 0 ∧ (kalloc m).2.Links kend fs.tail := by
  obtain ⟨hchain, hnodup, hpage⟩ := h
  cases fs with
  | nil =>
    have h0 : m.freelist = 0 := by simpa [Chain, ptr] using hchain
    rw [FreeList.kalloc, if_pos h0]
    exact ⟨rfl, hchain, hnodup, hpage⟩
  | cons p fs =>
    obtain ⟨hp, hchain⟩ := hchain
    obtain ⟨hne, rfl⟩ : m.freelist ≠ 0 ∧ m.freelist = p := by simpa [ptr] using hp
    rw [FreeList.kalloc, if_neg hne]
    exact ⟨rfl, hchain, hnodup.of_cons, fun q hq => hpage q (List.mem_cons_of_mem _ hq)⟩

theorem freeLoop (hk : 0 < kend) {vend n p : ℕ} (h : m.Links kend fs) (hp : p % 4096 = 0) (hle : kend ≤ p) (hend : vend ≤ 0x8E000000)
    (hn : vend < p + n * 4096) (hlt : ∀ q ∈ fs, q < p) :
    ∃ m' fs', freeLoop kend vend n p m = some m' ∧ m'.Links kend fs' ∧
      ∀ q, q ∈ fs' ↔ q ∈ fs ∨ q % 4096 = 0 ∧ p ≤ q ∧ q + 4096 ≤ vend := by
  induction n generalizing p m fs with
  | zero => exact ⟨m, fs, rfl, h, fun q => (or_iff_left (by omega)).symm⟩
  | succ n ih =>
    unfold FreeList.freeLoop
    split_ifs with hle'
    · obtain ⟨m₁, h₁, hl₁⟩ := h.kfree hk (v := p) ⟨hp, hle, by omega⟩ (fun hm => Nat.lt_irrefl p (hlt p hm))
      obtain ⟨m₂, fs₂, h₂, hl₂, hmem⟩ := ih hl₁ (p := p + 4096) (by omega) (by omega) (by omega)
        (List.forall_mem_cons.mpr ⟨by omega, fun q hq => Nat.lt_of_lt_of_le (hlt q hq) (by omega)⟩)
      refine ⟨m₂, fs₂, by rw [h₁]; exact h₂, hl₂, fun q => ?_⟩
      have hq : q = p ∨ q % 4096 = 0 ∧ p + 4096 ≤ q ∧ q + 4096 ≤ vend ↔ q % 4096 = 0 ∧ p ≤ q ∧ q + 4096 ≤ vend := by omega
      rw [hmem, List.mem_cons, or_right_comm, or_comm, hq]
    · exact ⟨m, fs, rfl, h, fun q => (or_iff_left (by omega)).symm⟩

theorem freerange (hk : 0 < kend) {vstart vend : ℕ} (h : m.Links kend fs) (hle : kend ≤ vstart) (hend : vend ≤ 0x8E000000) (hlt : ∀ q ∈ fs, q < vstart) :
    ∃ m' fs', freerange kend vstart vend m = some m' ∧ m'.Links kend fs' ∧
      ∀ q, q ∈ fs' ↔ q ∈ fs ∨ q % 4096 = 0 ∧ vstart ≤ q ∧ q + 4096 ≤ vend := by
  obtain ⟨m', fs', hm, hl, hmem⟩ := h.freeLoop (p := (vstart + 4095) / 4096 * 4096) (n := vend + 1) hk
    (by omega) (by omega) hend (by omega) (fun q hq => Nat.lt_of_lt_of_le (hlt q hq) (by omega))
  exact ⟨m', fs', hm, hl, fun q => (hmem q).trans (or_congr_right (by omega))⟩

theorem store (h : m.Links kend fs) {a w : ℕ} (ha : a / 4096 * 4096 ∉ fs) : Kmem.Links kend { m with word := Function.update m.word a w } fs := by
  refine ⟨h.chain.congr (fun p hp => ?_), h.nodup, h.page⟩
  have hpage := (h.page p hp).1
  have hne : p ≠ a := by
    rintro rfl
    have : p / 4096 * 4096 = p := by omega
    exact ha (by rwa [this])
  simp only [Function.update_of_ne hne]

end Kmem.Links

structure Inv (kend : ℕ) (s : State) (fs : List ℕ) : Prop where
  links : s.kmem.Links kend fs
  held : s.held.Nodup
  all : ∀ p, Page kend s.top p ↔ p ∈ fs ∨ p ∈ s.held
  apart : ∀ p ∈ fs, p ∉ s.held
  top : kend ≤ s.top ∧ s.top ≤ 0x8E000000 ∧ (s.top = kend ∨ s.top % 4096 = 0)

namespace Inv

variable {s t : State}

theorem kfree (hk : 0 < kend) (h : Inv kend s fs) {v : ℕ} (hv : v ∈ s.held) :
    ∃ m, kfree kend s.kmem v = some m ∧ Inv kend { s with kmem := m, held := s.held.erase v } (v :: fs) := by
  obtain ⟨hlinks, hheld, hall, hapart, htop⟩ := h
  obtain ⟨h1, h2, h3⟩ := (hall v).mpr (.inr hv)
  obtain ⟨m, hm, hl⟩ := hlinks.kfree hk (v := v) ⟨h1, h2, by omega⟩ (fun hf => hapart v hf hv)
  have hmem := fun p => hheld.mem_erase_iff (a := p) (b := v)
  refine ⟨m, hm, hl, hheld.erase v, fun p => ?_, fun p hp => ?_, htop⟩
  · rw [hall, List.mem_cons, hmem]
    by_cases hpv : p = v
    · simp [hpv, hv]
    · simp [hpv]
  · rw [hmem]
    rcases List.mem_cons.mp hp with rfl | hp
    · exact fun hx => hx.1 rfl
    · exact fun hx => hapart p hp hx.2

theorem kinit (hk : 0 < kend) (h : Inv kend s fs) {vend : ℕ} (hle : s.top ≤ vend) (hend : vend ≤ 0x8E000000) (hmod : vend % 4096 = 0) :
    ∃ m fs', freerange kend s.top vend s.kmem = some m ∧ Inv kend { s with kmem := m, top := vend } fs' := by
  obtain ⟨hlinks, hheld, hall, hapart, htop⟩ := h
  have hlt : ∀ q, q ∈ fs ∨ q ∈ s.held → q < s.top := fun q hq => by
    have := ((hall q).mpr hq).2.2
    omega
  obtain ⟨m, fs', hm, hl, hmem⟩ := hlinks.freerange hk htop.1 hend (fun q hq => hlt q (.inl hq))
  refine ⟨m, fs', hm, hl, hheld, fun p => ?_, fun p hp hp' => ?_, Nat.le_trans htop.1 hle, hend, .inr hmod⟩
  · rw [hmem, or_right_comm, ← hall]
    unfold Page
    dsimp only
    omega
  · rcases (hmem p).mp hp with hf | hf
    · exact hapart p hf hp'
    · exact absurd (hlt p (.inr hp')) (Nat.not_lt.mpr hf.2.1)

theorem kalloc (hk : 0 < kend) (h : Inv kend s fs) : Inv kend { s with
    kmem := (kalloc s.kmem).2, held := if (kalloc s.kmem).1 = 0 then s.held else (kalloc s.kmem).1 :: s.held } fs.tail := by
  obtain ⟨hlinks, hheld, hall, hapart, htop⟩ := h
  obtain ⟨hr, hl⟩ := hlinks.kalloc
  cases fs with
  | nil =>
    have hr : (FreeList.kalloc s.kmem).1 = 0 := hr
    rw [if_pos hr]
    exact ⟨hl, hheld, hall, hapart, htop⟩
  | cons p fs =>
    have hr : (FreeList.kalloc s.kmem).1 = p := hr
    have hp : p ≠ 0 := by
      have := (hlinks.page p List.mem_cons_self).2.1
      omega
    rw [hr, if_neg hp]
    obtain ⟨hnew, -⟩ := List.nodup_cons.mp hlinks.nodup
    refine ⟨hl, List.nodup_cons.mpr ⟨hapart p List.mem_cons_self, hheld⟩, fun q => ?_, fun q hq => ?_, htop⟩
    · rw [hall, List.mem_cons, List.tail_cons, List.mem_cons, or_right_comm, or_comm]
    · rw [List.mem_cons, not_or]
      refine ⟨?_, hapart q (List.mem_cons_of_mem _ hq)⟩
      rintro rfl
      exact hnew hq

theorem step {l : Label} (hk : 0 < kend) (h : ∃ fs, Inv kend s fs) (hs : step kend s l = some t) : ∃ fs, Inv kend t fs := by
  obtain ⟨fs, h⟩ := h
  obtain ⟨hlinks, hheld, hall, hapart, htop⟩ := id h
  cases l with
  | kalloc =>
    cases hs
    exact ⟨fs.tail, h.kalloc hk⟩
  | kfree v =>
    simp only [FreeList.step] at hs
    split_ifs at hs with hv
    obtain ⟨m, hm, hi⟩ := h.kfree hk hv
    rw [hm] at hs
    cases hs
    exact ⟨_, hi⟩
  | store a w =>
    simp only [FreeList.step] at hs
    split_ifs at hs with ha
    cases hs
    exact ⟨fs, hlinks.store (fun hf => hapart _ hf (ha (hlinks.page _ hf))), hheld, hall, hapart, htop⟩
  | kinit vend =>
    simp only [FreeList.step] at hs
    split_ifs at hs with hv
    obtain ⟨m, fs', hm, hi⟩ := h.kinit hk hv.1 hv.2.1 hv.2.2
    rw [hm] at hs
    cases hs
    exact ⟨fs', hi⟩

end Inv

theorem kalloc_pages (hk : 0 < kend) (hend : kend ≤ 0x8E000000) {s : State} (h : (machine kend).Reachable s) :
    ∃ fs, Chain (fun p => ptr (s.kmem.word p)) (ptr s.kmem.freelist) fs ∧ (fs ++ s.held).Nodup ∧ (∀ p, p ∈ fs ++ s.held ↔ Page kend s.top p) ∧
      (kalloc s.kmem).1 = fs.headD 0 ∧ (∀ p ∈ s.held, (kfree kend s.kmem p).isSome) ∧
      ∀ vend, s.top ≤ vend → vend ≤ 0x8E000000 → vend % 4096 = 0 → (freerange kend s.top vend s.kmem).isSome := by
  obtain ⟨fs, hi⟩ : ∃ fs, Inv kend s fs := by
    refine h.invariant ?_ (fun s l t hi hs => Inv.step hk hi hs)
    rintro ⟨m, _, _⟩ ⟨hm, rfl, rfl⟩
    refine ⟨[], ⟨?_, List.nodup_nil, by simp⟩, List.nodup_nil, fun p => ?_, by simp, Nat.le_refl _, hend, .inl rfl⟩
    · exact if_pos hm
    · simp only [Page, List.not_mem_nil, or_self, iff_false]
      omega
  refine ⟨fs, hi.links.chain, hi.links.nodup.append hi.held hi.apart, fun p => ?_, hi.links.kalloc.1, fun p hp => ?_, fun vend h1 h2 h3 => ?_⟩
  · rw [List.mem_append, hi.all]
  · obtain ⟨m, hm, -⟩ := hi.kfree hk hp
    rw [hm, Option.isSome_some]
  · obtain ⟨m, fs', hm, -⟩ := hi.kinit hk h1 h2 h3
    rw [hm, Option.isSome_some]

theorem kalloc_pages_reused : ∃ s, (machine 0x8DFFD000).Reachable s ∧ s.held = [0x8DFFE000] ∧
    (kalloc s.kmem).1 = 0x8DFFF000 ∧ (kfree 0x8DFFD000 s.kmem 0x8DFFE000).isSome := by
  obtain ⟨s, hs, hP⟩ := Machine.exists_reachable (M := machine 0x8DFFD000) (s := ⟨⟨fun _ => 0, 0⟩, [], 0x8DFFD000⟩)
    (w := [.kinit 0x8E000000, .kalloc, .kalloc, .store 0x8DFFF000 7, .kfree 0x8DFFF000])
    (P := fun s => s.held = [0x8DFFE000] ∧ (kalloc s.kmem).1 = 0x8DFFF000) ⟨rfl, rfl, rfl⟩ (by decide +kernel)
  obtain ⟨hheld, hpage⟩ := decide_eq_true_eq.mp hP
  obtain ⟨fs, -, -, -, -, hfree, -⟩ := kalloc_pages (show 0 < 0x8DFFD000 by decide) (by decide) hs
  exact ⟨s, hs, hheld, hpage, hfree _ (by simp [hheld])⟩

end EnhancedXv6.FreeList
