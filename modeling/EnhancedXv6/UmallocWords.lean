import EnhancedXv6.Growproc
import EnhancedXv6.Pids
import EnhancedXv6.UmallocRuns

namespace EnhancedXv6.Umalloc

open Transition Machine SortedCycle Tiling Command
open Vm (Layout Ram Space Resident)
open ProcTable (i32)

structure Kernel where
  proc : Vm.Proc
  ram : Ram

/-- `sys_sbrk`. There is no answer when the kernel stops. -/
def Kernel.sbrk (L : Layout) (k : Kernel) (n : ℤ) : Option (ℤ × Kernel) :=
  (run (Vm.exec L) (Vm.growproc k.proc n) k.ram).toOption.map (fun x =>
    (if x.1.1 < 0 then -1 else i32 k.proc.sz, ⟨x.1.2, x.2⟩))

def Kernel.Owns (k : Kernel) (x : ℕ) : Prop := (k.ram.user k.proc.pgdir (x / 4096)).isSome

namespace Words

def ahead (p n : ℕ) : ℕ := (p + 8 * n) % 0x100000000

def joinUpper (h : Heap) (bp p : ℕ) : Heap :=
  if ahead bp (h.size bp) = h.ptr p then
    { h with
      size := Function.update h.size bp ((h.size bp + h.size (h.ptr p)) % 0x100000000)
      ptr := Function.update h.ptr bp (h.ptr (h.ptr p)) }
  else { h with ptr := Function.update h.ptr bp (h.ptr p) }

def joinLower (h : Heap) (bp p : ℕ) : Heap :=
  if ahead p (h.size p) = bp then
    { h with size := Function.update h.size p ((h.size p + h.size bp) % 0x100000000), ptr := Function.update h.ptr p (h.ptr bp) }
  else { h with ptr := Function.update h.ptr p bp }

def turns : ℕ := 0x200000000

def free (h : Heap) (ap : ℕ) : Option Heap :=
  let bp := (ap + 0x100000000 - 8) % 0x100000000
  (h.search bp turns h.freep).map (fun p => { joinLower (joinUpper h bp p) bp p with freep := p })

def addCore (h : Heap) (nu : ℕ) (p : ℤ) : Option (Heap × ℕ) :=
  if p = -1 then some (h, 0)
  else
    let hp := (p % 0x100000000).toNat
    let h := { h with size := Function.update h.size hp nu, obtained := (hp, nu) :: h.obtained }
    (free h (ahead hp 1)).map (fun h => (h, h.freep))

/-- The argument of `sbrk` is an `int`. -/
def morecore (L : Layout) (h : Heap) (k : Kernel) (nu : ℕ) : Option (Heap × Kernel × ℕ) :=
  (k.sbrk L (i32 (Heap.coreUnits nu * 8 : ℕ))).bind (fun x =>
    (addCore h (Heap.coreUnits nu) x.1).map (fun y => (y.1, x.2, y.2)))

def take (h : Heap) (nunits prevp p : ℕ) : Heap × ℕ :=
  if h.size p = nunits then ({ h with ptr := Function.update h.ptr prevp (h.ptr p), freep := prevp }, ahead p 1)
  else
    let left := h.size p - nunits
    ({ h with size := Function.update (Function.update h.size p left) (ahead p left) nunits, freep := prevp }, ahead (ahead p left) 1)

def mallocLoop (L : Layout) (nunits : ℕ) : ℕ → ℕ → ℕ → Heap → Kernel → Option (Heap × Kernel × ℕ)
  | 0, _, _, _, _ => none
  | fuel + 1, prevp, p, h, k =>
    if nunits ≤ h.size p then some ((take h nunits prevp p).1, k, (take h nunits prevp p).2)
    else if p = h.freep then
      (morecore L h k nunits).bind (fun x =>
        if x.2.2 = 0 then some (x.1, x.2.1, 0) else mallocLoop L nunits fuel x.2.2 (x.1.ptr x.2.2) x.1 x.2.1)
    else mallocLoop L nunits fuel p (h.ptr p) h k

def units (nbytes : ℕ) : ℕ := (nbytes + 8 - 1) % 0x100000000 / 8 + 1

def malloc (L : Layout) (base : ℕ) (h : Heap) (k : Kernel) (nbytes : ℕ) : Option (Heap × Kernel × ℕ) :=
  let h := h.start base
  mallocLoop L (units nbytes) turns h.freep (h.ptr h.freep) h k

end Words

structure Process where
  state : State := {}
  kernel : Kernel

inductive Call
  | malloc (nbytes : ℕ)
  | free (ap : ℕ)
  | sbrk (n : ℕ)

/-- The process may also call `sbrk` to grow. -/
def Process.step (L : Layout) (base : ℕ) (s : Process) : Call → Option Process
  | .malloc nbytes => (Words.malloc L base s.state.heap s.kernel nbytes).map (fun x =>
      if x.2.2 = 0 then ⟨{ s.state with heap := x.1 }, x.2.1⟩
      else
        ⟨{ heap := x.1, live := insert (x.2.2 - 8) s.state.live, asked := Function.update s.state.asked (x.2.2 - 8) nbytes }, x.2.1⟩)
  | .free ap =>
    if ap - 8 ∈ s.state.live then
      (Words.free s.state.heap ap).map (fun h => ⟨{ s.state with heap := h, live := s.state.live.erase (ap - 8) }, s.kernel⟩)
    else none
  | .sbrk n =>
    if n < 0x80000000 then (s.kernel.sbrk L n).map (fun x => { s with kernel := x.2 }) else none

structure Kernel.Sound (L : Layout) (E : Set ℕ) (k : Kernel) : Prop where
  space : Space L E k.ram k.proc.pgdir
  resident : Resident k.ram k.proc
  bound : k.proc.sz < Vm.KERNBASE

def process (L : Layout) (base : ℕ) : Machine Process Call where
  initial s := s.state = {} ∧ 0 < base ∧ base + 8 ≤ s.kernel.proc.sz ∧ ∃ E, s.kernel.Sound L E
  next s c := s.step L base c

def Call.Modest : Call → Prop
  | .malloc nbytes => nbytes ≤ 0x7FFFFFF0
  | _ => True

variable {D : Layout} {E : Set ℕ} {k : Kernel} {base b p nunits N N' : ℕ} {h h' : Heap} {F L : Finset ℕ}

theorem Kernel.sbrk_spec (hk : k.Sound D E) {n : ℤ} (h0 : 0 ≤ n) (hn : n < 0x80000000) :
    ∃ a k', k.sbrk D n = some (a, k') ∧ k'.Sound D E ∧
      (a = k.proc.sz ∧ (k'.proc.sz : ℤ) = k.proc.sz + n ∨ a = -1 ∧ k'.proc.sz = k.proc.sz) := by
  obtain ⟨⟨ret, p'⟩, r', hrun, hd, hspace, -, hret⟩ :=
    Vm.run_of_wp (Vm.growproc_spec hk.space hk.resident hk.bound ⟨by omega, hn⟩ (fun h => by omega))
  have hsz : k.proc.sz < 0x80000000 := hk.bound
  have hans : k.sbrk D n = some (if ret < 0 then -1 else i32 k.proc.sz, ⟨p', r'⟩) := by
    rw [Kernel.sbrk, hrun]
    rfl
  refine ⟨_, _, hans, ?_⟩
  rw [← hd] at hspace
  obtain ⟨rfl, hres⟩ | ⟨rfl, rfl, huser⟩ := hret
  · refine ⟨⟨hspace, hres.resident, hres.bound⟩, .inl ⟨?_, hres.size⟩⟩
    rw [if_neg (lt_irrefl 0)]
    exact ProcTable.i32_eq (by omega) (by omega)
  · refine ⟨⟨hspace, ?_, hk.bound⟩, .inr ⟨rfl, rfl⟩⟩
    intro v
    rw [huser]
    exact hk.resident v

theorem Kernel.Sound.owns (hk : k.Sound D E) {x : ℕ} (hx : x < k.proc.sz) : k.Owns x := by
  apply (hk.resident _).mpr
  rw [Vm.lt_pages]
  omega

structure Fits (base N : ℕ) (h : Heap) : Prop where
  memory : ∀ x ∈ h.memory, x < N
  base : base + 8 ≤ N
  bound : N < 0x80000000

namespace Fits

theorem congr (hf : Fits base N h) (he : h'.obtained = h.obtained) : Fits base N h' := by
  refine ⟨fun x hx => hf.memory x ?_, hf.base, hf.bound⟩
  rwa [Heap.memory, ← he]

theorem grow (hf : Fits base N h) {r n : ℕ} (hN : N ≤ N') (hb : N' < 0x80000000) (hr : r + 8 * n ≤ N')
    (he : h'.obtained = (r, n) :: h.obtained) : Fits base N' h' := by
  refine ⟨?_, hf.base.trans hN, hb⟩
  rintro x ⟨o, ho, hl, hx⟩
  rw [he] at ho
  rcases List.mem_cons.mp ho with rfl | ho
  · exact lt_of_lt_of_le hx hr
  · exact lt_of_lt_of_le (hf.memory x ⟨o, ho, hl, hx⟩) hN

theorem block (hf : Fits base N h) (h0 : Listed base h L F) (hb : b ∈ F ∨ b ∈ L) : b < N ∧ b + 8 * h.size b ≤ N := by
  by_cases hne : b = base
  · have := hf.base
    subst hne
    rw [h0.base_size]
    omega
  · have hB : b ∈ F.erase base ∪ L := hb.elim (Listed.block · hne) (Finset.mem_union_right _ ·)
    have hpos := h0.size_pos hB
    have := hf.memory _ (h0.tiles.mem hB (show b ≤ b + 8 * h.size b - 1 by omega) (by omega))
    omega

theorem card (hf : Fits base N h) (h0 : Listed base h L F) : F.card ≤ N := by
  have hsub : F ⊆ Finset.range N := fun b hb => Finset.mem_range.mpr (hf.block h0 (.inl hb)).1
  simpa using Finset.card_le_card hsub

end Fits

namespace Words

theorem ahead_eq {n : ℕ} (hb : p + 8 * n < 0x100000000) : ahead p n = p + 8 * n := Nat.mod_eq_of_lt hb

theorem joinUpper_eq (h0 : Listed base h L F) (hf : Fits base N h) (hb : b ∈ L) (hp : p ∈ F) : joinUpper h b p = h.joinUpper b p := by
  have hN := hf.bound
  have hbb := hf.block h0 (.inr hb)
  have hqb := hf.block h0 (.inl (h0.cycle p hp).mem)
  rw [joinUpper, ahead_eq (by omega), Nat.mod_eq_of_lt (show h.size b + h.size (h.ptr p) < 0x100000000 by omega)]
  rfl

theorem joinLower_eq (hp : p + 8 * h.size p < 0x80000000) (hb : h.size b < 0x80000000) : joinLower h b p = h.joinLower b p := by
  rw [joinLower, ahead_eq (by omega), Nat.mod_eq_of_lt (show h.size p + h.size b < 0x100000000 by omega)]
  rfl

theorem joined_eq (h0 : Listed base h L F) (hf : Fits base N h) (hb : b ∈ L) (hp : p ∈ F) :
    joinLower (joinUpper h b p) b p = (h.joinUpper b p).joinLower b p := by
  have hN := hf.bound
  have hpb : p ≠ b := fun e => h0.not_mem hb (e ▸ hp)
  have hbb := hf.block h0 (.inr hb)
  have hpp := hf.block h0 (.inl hp)
  have hqb := hf.block h0 (.inl (h0.cycle p hp).mem)
  have hsize : (h.joinUpper b p).size p = h.size p ∧ (h.joinUpper b p).size b ≤ h.size b + h.size (h.ptr p) := by
    unfold Heap.joinUpper
    split_ifs
    · exact ⟨Function.update_of_ne hpb .., (Function.update_self b ..).le⟩
    · exact ⟨rfl, Nat.le_add_right ..⟩
  rw [joinUpper_eq h0 hf hb hp]
  apply joinLower_eq
  · rw [hsize.1]
    omega
  · omega

theorem free_eq (h0 : Sound base h L F) (hf : Fits base N h) (hb : b ∈ L) : free h (b + 8) = h.free turns (b + 8) := by
  have hN := hf.bound
  have hcard := hf.card h0.toListed
  have hbb := hf.block h0.toListed (.inr hb)
  have hbp : (b + 8 + 0x100000000 - 8) % 0x100000000 = b := by omega
  have hturns : F.card ≤ turns := by
    unfold turns
    omega
  obtain ⟨p, hs, hp⟩ := search_spec h0.toListed (h0.not_mem hb) h0.freep_mem hturns
  rw [free, Heap.free, hbp, Nat.add_sub_cancel, hs]
  dsimp only [Option.map_some]
  rw [joined_eq h0.toListed hf hb hp.1]

theorem take_eq {q : ℕ} (hq : q + 8 * h.size q < 0x80000000) (hn : 0 < nunits) (hle : nunits ≤ h.size q) :
    take h nunits p q = h.take nunits p q := by
  unfold take Heap.take
  dsimp only
  rw [ahead_eq (show q + 8 * 1 < 0x100000000 by omega), ahead_eq (show q + 8 * (h.size q - nunits) < 0x100000000 by omega),
    ahead_eq (show q + 8 * (h.size q - nunits) + 8 * 1 < 0x100000000 by omega)]

theorem take_obtained (h : Heap) (nunits p q : ℕ) : (h.take nunits p q).1.obtained = h.obtained := by
  unfold Heap.take
  split_ifs <;> rfl

theorem core_lt (hn : nunits < 0x10000000) : Heap.coreUnits nunits * 8 < 0x80000000 := by
  unfold Heap.coreUnits
  split_ifs <;> omega

theorem region_top (hf : Fits base N h) (n : ℕ) : Region base h N n := by
  have hb := hf.base
  refine ⟨fun x hl _ => ⟨fun hm => ?_, by omega⟩, by omega, by omega⟩
  have := hf.memory x hm
  omega

theorem addCore_eq (h0 : Sound base h L F) {r : ℕ} (hr : Region base h r (8 * Heap.coreUnits nunits)) (hN : r < 0x80000000)
    (hf : ∀ g : Heap, g.obtained = (r, Heap.coreUnits nunits) :: h.obtained → Fits base N g) :
    addCore h (Heap.coreUnits nunits) r = h.morecore turns nunits (some r) := by
  have hext := (h0.extend (le_coreUnits nunits).2 hr).2
  have hfree := free_eq hext (hf _ rfl) (Finset.mem_insert_self r L)
  have hto : ((r : ℤ) % 0x100000000).toNat = r := by omega
  have hne : (r : ℤ) ≠ -1 := by omega
  unfold addCore
  rw [if_neg hne, hto]
  dsimp only
  rw [ahead_eq (show r + 8 * 1 < 0x100000000 by omega), hfree, Heap.morecore]

theorem morecore_eq (h0 : Sound base h L F) (hf : Fits base k.proc.sz h) (hk : k.Sound D E) (hn : nunits < 0x10000000) :
    ∃ r k', k'.Sound D E ∧ (∀ r', r = some r' → Region base h r' (8 * Heap.coreUnits nunits)) ∧
      morecore D h k nunits = (h.morecore turns nunits r).map (fun x => (x.1, k', x.2)) ∧
      ∃ h', h.morecore turns nunits r = some (h', if r = none then 0 else h'.freep) ∧ Fits base k'.proc.sz h' ∧ ∃ F', Sound base h' L F' := by
  have hcore := core_lt hn
  have hsz : k.proc.sz < 0x80000000 := hk.bound
  have hcast : i32 ((Heap.coreUnits nunits * 8 : ℕ) : ℤ) = (Heap.coreUnits nunits * 8 : ℕ) := ProcTable.i32_eq (by omega) (by omega)
  obtain ⟨a, k', hs, hk', hans⟩ := Kernel.sbrk_spec hk (n := (Heap.coreUnits nunits * 8 : ℕ)) (by omega) (by omega)
  have hsz' : k'.proc.sz < 0x80000000 := hk'.bound
  have hmore : morecore D h k nunits = (addCore h (Heap.coreUnits nunits) a).map (fun y => (y.1, k', y.2)) := by
    rw [morecore, hcast, hs]
    rfl
  rw [hmore]
  obtain ⟨rfl, hgrown⟩ | ⟨rfl, hsame⟩ := hans
  · have hreg : Region base h k.proc.sz (8 * Heap.coreUnits nunits) := region_top hf _
    have hcard := hf.card h0.toListed
    have hturns : F.card ≤ turns := by
      unfold turns
      omega
    obtain ⟨h', F', hmore, h1, -, -, hobt, -⟩ := morecore_spec h0 hreg hturns
    have hgrow : ∀ g : Heap, g.obtained = (k.proc.sz, Heap.coreUnits nunits) :: h.obtained → Fits base k'.proc.sz g :=
      fun g hg => hf.grow (by omega) hsz' (by omega) hg
    refine ⟨some k.proc.sz, k', hk', ?_, ?_, h', hmore, hgrow h' hobt, F', h1⟩
    · rintro r ⟨⟩
      exact hreg
    · rw [addCore_eq h0 hreg hsz hgrow]
  · refine ⟨none, k', hk', fun r hr => (by cases hr), rfl, h, rfl, ?_, F, h0⟩
    rwa [hsame]

theorem mallocLoop_eq (fuel : ℕ) (hbase : 0 < base) (hn : 0 < nunits) (hlt : nunits < 0x10000000) (h0 : Sound base h L F) (hf : Fits base k.proc.sz h)
    (hk : k.Sound D E) (hp : p ∈ F) :
    ∃ rs k', k'.Sound D E ∧ (∀ r, rs.head? = some (some r) → Region base h r (8 * Heap.coreUnits nunits)) ∧
      mallocLoop D nunits fuel p (h.ptr p) h k = (Heap.mallocLoop turns nunits fuel rs p (h.ptr p) h).map (fun x => (x.1, k', x.2)) ∧
      ∀ x, Heap.mallocLoop turns nunits fuel rs p (h.ptr p) h = some x → Fits base k'.proc.sz x.1 := by
  induction fuel generalizing p h k F with
  | zero => exact ⟨[], k, hk, fun r hr => (by cases hr), rfl, fun x hx => (by cases hx)⟩
  | succ fuel ih =>
    have hq := (h0.cycle p hp).mem
    have hqb := hf.block h0.toListed (.inl hq)
    have hN := hf.bound
    simp only [mallocLoop, Heap.mallocLoop]
    by_cases hle : nunits ≤ h.size (h.ptr p)
    · simp only [if_pos hle]
      refine ⟨[], k, hk, fun r hr => (by cases hr), ?_, ?_⟩
      · rw [take_eq (by omega) hn hle]
        rfl
      · rintro x ⟨⟩
        exact hf.congr (take_obtained ..)
    simp only [if_neg hle]
    by_cases hfreep : h.ptr p = h.freep
    · simp only [if_pos hfreep]
      obtain ⟨r, k1, hk1, hreg, hmore, h1, hx, hf1, F1, hs1⟩ := morecore_eq h0 hf hk hlt
      rw [hmore, hx]
      cases r with
      | none =>
        refine ⟨[none], k1, hk1, fun r hr => (by cases hr), ?_, ?_⟩
        · rw [List.head?_cons, Option.join_some, hx]
          rfl
        · rw [List.head?_cons, Option.join_some, hx]
          rintro x ⟨⟩
          exact hf1
      | some r =>
        have hne := hs1.ne_zero hbase hs1.freep_mem
        obtain ⟨rs, k2, hk2, -, hloop, hpost⟩ := ih hs1 hf1 hk1 hs1.freep_mem
        refine ⟨some r :: rs, k2, hk2, fun r' hr => hreg r' (Option.some.inj hr), ?_, ?_⟩
        · rw [List.head?_cons, Option.join_some, hx]
          simpa [hne] using hloop
        · rw [List.head?_cons, Option.join_some, hx]
          simpa [hne] using hpost
    · simp only [if_neg hfreep]
      exact ih h0 hf hk hq

theorem units_eq {nbytes : ℕ} (hn : nbytes ≤ 0x7FFFFFF0) : units nbytes = Heap.units nbytes ∧ Heap.units nbytes < 0x10000000 := by
  unfold units Heap.units
  omega

end Words

structure Placed (D : Layout) (base : ℕ) (s : Process) : Prop where
  ready : Ready base s.state
  kernel : ∃ E, s.kernel.Sound D E
  fits : Fits base s.kernel.proc.sz s.state.heap

variable {s t : Process} {nbytes : ℕ}

theorem Placed.malloc (hs : Placed D base s) (hn : nbytes ≤ 0x7FFFFFF0) :
    ∃ rs h k a, Words.malloc D base s.state.heap s.kernel nbytes = some (h, k, a) ∧ s.state.heap.malloc base Words.turns nbytes rs = some (h, a) ∧
      Fresh base s.state (.malloc nbytes rs Words.turns) ∧ Clear base (.malloc nbytes rs Words.turns) ∧ (∃ E, k.Sound D E) ∧
      Fits base k.proc.sz h ∧ (a = 0 ∧ h = s.state.heap.start base ∨ Taken base (s.state.heap.start base) s.state.live (Heap.units nbytes) h a) := by
  obtain ⟨E, hk⟩ := hs.kernel
  obtain ⟨F, hF⟩ := hs.ready.consistent.sound
  obtain ⟨hunits, hlt⟩ := Words.units_eq hn
  have hobt := start_obtained s.state.heap base
  have hmem : (s.state.heap.start base).memory = s.state.heap.memory := by
    unfold Heap.memory
    rw [hobt]
  have hf : Fits base s.kernel.proc.sz (s.state.heap.start base) := hs.fits.congr hobt
  obtain ⟨rs, k, hk', hreg, hloop, hpost⟩ := Words.mallocLoop_eq Words.turns hs.ready.base_pos (Heap.units_pos nbytes) hlt hF hf hk hF.freep_mem
  have hcard := hf.card hF.toListed
  have hN := hf.bound
  have hturns : 2 * F.card + 2 ≤ Words.turns := by
    unfold Words.turns
    omega
  obtain ⟨h, a, hres, htaken⟩ := mallocLoop_spec hF hs.ready.base_pos (Heap.units_pos nbytes) hturns hreg
  refine ⟨rs, h, k, a, ?_, hres, fun r hr => ?_, fun r hr => (hreg r hr).2, ⟨E, hk'⟩, hpost _ hres, htaken⟩
  · rw [Words.malloc, hunits, hloop, hres]
    rfl
  · have := (hreg r hr).1
    rwa [hmem] at this

theorem Placed.free (hs : Placed D base s) {ap : ℕ} (hb : ap - 8 ∈ s.state.live) :
    Words.free s.state.heap ap = s.state.heap.free Words.turns ap ∧
      ∀ h, s.state.heap.free Words.turns ap = some h → Fits base s.kernel.proc.sz h := by
  have hne : s.state.heap.freep ≠ 0 := by
    intro e
    rw [hs.ready.started e] at hb
    exact Finset.notMem_empty _ hb
  have hc := hs.ready.consistent
  rw [start_of_ne hne] at hc
  obtain ⟨F, hF⟩ := hc.sound
  have hB := Finset.mem_union_right (F.erase base) hb
  have hpos := hF.size_pos hB
  have h0 := (hF.away _ (hF.tiles.mem hB (le_refl _) (by omega))).1
  have hap : ap = ap - 8 + 8 := by omega
  have hcard := hs.fits.card hF.toListed
  have hN := hs.fits.bound
  have hturns : F.card ≤ Words.turns := by
    unfold Words.turns
    omega
  obtain ⟨h', F', hfree, hF'⟩ := free_spec hF hb hturns
  rw [hap]
  refine ⟨Words.free_eq hF hs.fits hb, fun h hh => ?_⟩
  cases hfree.symm.trans hh
  exact hs.fits.congr hF'.obtained

theorem Placed.step (hs : Placed D base s) {c : Call} (hc : c.Modest) (hn : s.step D base c = some t) : Placed D base t := by
  cases c with
  | malloc nbytes =>
    obtain ⟨rs, h, k, a, hm, hm', hfresh, hclear, hk, hf, -⟩ := hs.malloc hc
    obtain ⟨x, hx, rfl⟩ := Option.map_eq_some_iff.mp hn
    cases hm.symm.trans hx
    have hstep : s.state.step base (.malloc nbytes rs Words.turns) = some (if a = 0 then { s.state with heap := h }
        else { heap := h, live := insert (a - 8) s.state.live, asked := Function.update s.state.asked (a - 8) nbytes }) := by
      rw [State.step, hm']
      rfl
    have hready := (hs.ready.step hfresh hclear hstep).1.ready hs.ready.base_pos
    dsimp only at hready ⊢
    split_ifs at hready ⊢
    · exact ⟨hready, hk, hf⟩
    · exact ⟨hready, hk, hf⟩
  | free ap =>
    rw [Process.step] at hn
    split_ifs at hn with hb
    obtain ⟨hfree, hf⟩ := hs.free hb
    obtain ⟨h, hh, rfl⟩ := Option.map_eq_some_iff.mp hn
    rw [hfree] at hh
    have hstep : s.state.step base (.free ap Words.turns) = some { s.state with heap := h, live := s.state.live.erase (ap - 8) } := by
      rw [State.step, if_pos hb, hh]
      rfl
    exact ⟨(hs.ready.step (l := .free ap Words.turns) trivial trivial hstep).1.ready hs.ready.base_pos, hs.kernel, hf h hh⟩
  | sbrk n =>
    rw [Process.step] at hn
    split_ifs at hn with hlt
    obtain ⟨E, hk⟩ := hs.kernel
    obtain ⟨a, k, hsbrk, hk', hans⟩ := Kernel.sbrk_spec hk (n := n) (by omega) (by omega)
    rw [hsbrk] at hn
    cases hn
    have hle : s.kernel.proc.sz ≤ k.proc.sz := by omega
    exact ⟨hs.ready, ⟨E, hk'⟩, fun x hx => (hs.fits.memory x hx).trans_le hle, hs.fits.base.trans hle, hk'.bound⟩

theorem placed_of_reachable (hs : (process D base).ReachableWhere (fun _ c => c.Modest) s) : Placed D base s := by
  apply hs.invariant
  · rintro ⟨st, k⟩ ⟨rfl, hbase, hsz, E, hk⟩
    refine ⟨ready_empty hbase, ⟨E, hk⟩, ?_, hsz, hk.bound⟩
    rintro x ⟨o, ho, -⟩
    exact absurd ho List.not_mem_nil
  · intro s c t _ hp hc hn
    exact hp.step hc hn

theorem malloc_owned (D : Layout) (base nbytes : ℕ) (s : Process)
    (hs : (process D base).ReachableWhere (fun _ c => c.Modest) s) (hn : nbytes ≤ 0x7FFFFFF0) :
    ∃ h k p, Words.malloc D base s.state.heap s.kernel nbytes = some (h, k, p) ∧
      (p = 0 ∨ p + nbytes ≤ k.proc.sz ∧
        ∀ x, p ≤ x → x < p + nbytes → k.Owns x ∧ ∀ b ∈ s.state.live, ¬ (b ≤ x ∧ x < b + 8 * h.size b)) ∧
      ∀ b ∈ s.state.live, s.state.asked b + 8 ≤ 8 * h.size b := by
  have hp := placed_of_reachable hs
  obtain ⟨rs, h, k, a, hm, -, -, -, ⟨E, hk⟩, hf, hres⟩ := hp.malloc hn
  have hasked := hp.ready.consistent.asked
  refine ⟨h, k, a, hm, ?_⟩
  obtain ⟨rfl, rfl⟩ | ht := hres
  · exact ⟨.inl rfl, fun b hb => le_of_units (hasked b hb)⟩
  obtain ⟨F, hF⟩ := ht.sound
  have hnew := Finset.mem_insert_self (a - 8) s.state.live
  have hB := Finset.mem_union_right (F.erase base) hnew
  have hpos := hF.size_pos hB
  have ha := (hF.away _ (hF.tiles.mem hB (le_refl _) (by omega))).1
  have hend := (hf.block hF.toListed (.inr hnew)).2
  have hsize := le_of_units (le_refl (Heap.units nbytes))
  rw [ht.size] at hend
  refine ⟨.inr ⟨by omega, fun x hl hx => ⟨hk.owns (by omega), fun b hb hbx => ?_⟩⟩, fun b hb => ?_⟩
  · have hbB := Finset.mem_union_right (F.erase base) (Finset.mem_insert_of_mem (b := a - 8) hb)
    have hne : b ≠ a - 8 := fun e => ht.new (e ▸ hb)
    rcases Nat.lt_or_gt_of_ne hne with hlt | hgt
    · have := hF.tiles.apart b hbB _ hB hlt
      omega
    · have := hF.tiles.apart _ hB b hbB hgt
      rw [ht.size] at this
      omega
  · rw [ht.live b hb]
    exact le_of_units (hasked b hb)

def smallProcess : Process := { kernel := ⟨⟨4080, 57341⟩, Vm.onePage⟩ }

theorem smallProcess_initial : (process Vm.threePages 16).initial smallProcess := by
  refine ⟨rfl, by decide, by decide, ∅, Vm.onePage_space.1, fun v => ?_, by decide⟩
  exact Vm.onePage_resident v

def roomyProcess : Process := { kernel := ⟨⟨4080, 57341⟩, Vm.spare 20 (fun _ => 0)⟩ }

theorem roomyProcess_initial : (process Vm.manyPages 16).initial roomyProcess := by
  obtain ⟨hspace, huser⟩ := Vm.spare_space (n := 20) (E := {f | 512 + 20 ≤ f ∧ f < 57341}) (fun _ => 0) (by decide)
    (fun f => Iff.rfl)
  refine ⟨rfl, by decide, by decide, _, hspace, fun v => ?_, by decide⟩
  change ((Vm.spare 20 (fun _ => 0)).user 57341 v).isSome ↔ v < 1
  rw [huser]
  by_cases hv : v = 0
  · subst hv
    exact iff_of_true rfl (by decide)
  · rw [Function.update_of_ne hv]
    exact iff_of_false (by simp) (by omega)

theorem malloc_owned_roomy : ∃ h k, Words.malloc Vm.manyPages 16 {} roomyProcess.kernel 100 = some (h, k, 36744) ∧
    36744 + 100 ≤ k.proc.sz ∧ ∀ x, 36744 ≤ x → x < 36744 + 100 → k.Owns x := by
  obtain ⟨h, k, p, hm, hp, -⟩ := malloc_owned Vm.manyPages 16 100 roomyProcess (.initial roomyProcess_initial) (by decide)
  have hptr : (Words.malloc Vm.manyPages 16 {} roomyProcess.kernel 100).map (fun x => x.2.2) = some 36744 := by
    decide +kernel
  rw [show Words.malloc Vm.manyPages 16 {} roomyProcess.kernel 100 = some (h, k, p) from hm] at hptr
  obtain rfl : p = 36744 := Option.some.inj hptr
  obtain ⟨hend, hown⟩ := hp.resolve_left (by decide)
  exact ⟨h, k, hm, hend, fun x hl hx => (hown x hl hx).1⟩

theorem sbrk_small : smallProcess.kernel.sbrk Vm.threePages (i32 0x80000000) = some (4080, smallProcess.kernel) := by
  have hcast : i32 0x80000000 = -0x80000000 := by decide
  have hsz : i32 (4080 : ℕ) = 4080 := by decide
  have hrun : run (Vm.exec Vm.threePages) (Vm.growproc ⟨4080, 57341⟩ (-0x80000000)) Vm.onePage = .ok ((0, ⟨4080, 57341⟩), Vm.onePage) := rfl
  rw [hcast, Kernel.sbrk]
  change (run (Vm.exec Vm.threePages) (Vm.growproc ⟨4080, 57341⟩ (-0x80000000)) Vm.onePage).toOption.map (fun x =>
    (if x.1.1 < 0 then -1 else i32 (4080 : ℕ), (⟨x.1.2, x.2⟩ : Kernel))) = _
  rw [hrun, hsz]
  rfl

def smallHeap : Heap where
  ptr := Function.update (Function.update (Function.update (fun _ => 0) 16 16) 4080 16) 16 4080
  size := Function.update (Function.update (fun _ => 0) 16 0) 4080 0x10000000
  freep := 16
  obtained := [(4080, 0x10000000)]

theorem morecore_small : Words.morecore Vm.threePages (Heap.start {} 16) smallProcess.kernel 0x10000000 = some (smallHeap, smallProcess.kernel, 16) := by
  have hcore : Heap.coreUnits 0x10000000 = 0x10000000 := by decide
  have hturns : Words.turns = 0x1FFFFFFFF + 1 := rfl
  have hsearch : ∀ h : Heap, h.freep = 16 → h.ptr 16 = 16 → h.search 4080 Words.turns h.freep = some 16 := by
    intro h hf hp
    rw [hturns, Heap.search, hf, hp]
    rfl
  have hadd : Words.addCore (Heap.start {} 16) 0x10000000 4080 = some (smallHeap, 16) := by
    have hp : ((4080 : ℤ) % 0x100000000).toNat = 4080 := by decide
    have hbp : (Words.ahead 4080 1 + 0x100000000 - 8) % 0x100000000 = 4080 := by decide
    unfold Words.addCore
    rw [if_neg (by decide), hp]
    dsimp only
    rw [Words.free, hbp, hsearch _ rfl rfl]
    dsimp only [Option.map_some]
    rw [Words.joinUpper, if_neg (by decide), Words.joinLower, if_neg (by decide)]
    rfl
  rw [Words.morecore, hcore]
  change (smallProcess.kernel.sbrk Vm.threePages (i32 0x80000000)).bind _ = _
  rw [sbrk_small, Option.bind_some, hadd]
  rfl

theorem malloc_beyond : (process Vm.threePages 16).Reachable smallProcess ∧
    ∃ h, Words.malloc Vm.threePages 16 smallProcess.state.heap smallProcess.kernel 0x7FFFFFF8 = some (h, smallProcess.kernel, 4088) ∧
      4088 ≤ 8192 ∧ 8192 < 4088 + 0x7FFFFFF8 ∧ ¬ smallProcess.kernel.Owns 8192 := by
  have hunits : Words.units 0x7FFFFFF8 = 0x10000000 := by decide
  have hturns : Words.turns = 0x1FFFFFFFE + 1 + 1 := rfl
  have hloop : Words.malloc Vm.threePages 16 {} smallProcess.kernel 0x7FFFFFF8 =
      some ((Words.take smallHeap 0x10000000 16 4080).1, smallProcess.kernel, 4088) := by
    rw [Words.malloc, hunits, hturns, Words.mallocLoop, if_neg (by decide), if_pos (by decide), morecore_small, Option.bind_some, if_neg (by decide),
      Words.mallocLoop, if_pos (by decide)]
    rfl
  refine ⟨.initial smallProcess_initial, _, hloop, by decide, by decide, ?_⟩
  change ¬ (Vm.onePage.user 57341 (8192 / 4096)).isSome
  rw [Vm.onePage_space.2]
  decide

end EnhancedXv6.Umalloc
