import EnhancedXv6.ExecStack
import EnhancedXv6.Fork

namespace EnhancedXv6.Vm

open Command Bytes Ownership
open ProcTable (Slot)

variable {L : Layout} {Φ : Spec sig Ram} [Grants L Φ] {E E' : Set ℕ} {r r' : Ram} {d g : ℕ} {img : Mem} {file : List UInt8} {elf : Elfhdr} {args : List (List UInt8)} {rest : Argv}
variable {sz : ℕ} {argv : Argv}

theorem byte_congr (h : r'.user d = r.user d) : r'.byte d = r.byte d := by
  funext a
  rw [Ram.byte, Ram.byte, h]

theorem Guarded.congr (h : Guarded L E r d g img) (hs : Space L E' r' d) (hp : ∀ x f, r.refs d x = some f → r'.page f = r.page f) :
    Guarded L E' r' d g img where
  space := hs
  devices := by
    rw [(Ram.SameTables.of_refs hp).table]
    exact h.devices
  bound := h.bound
  access v := (accessible_congr (.of_refs hp)).trans (h.access v)
  present v := by
    rw [Ram.user_congr hp]
    exact h.present v
  byte a ha := by
    rw [byte_congr (Ram.user_congr hp)]
    exact h.byte a ha

theorem ArgStack.congr {esp : ℕ} {ptrs : List ℕ} (h : ArgStack r d sz esp args ptrs) (hb : r'.byte d = r.byte d) :
    ArgStack r' d sz esp args ptrs := by
  have hholds : ∀ a bs, Holds r d a bs → Holds r' d a bs := fun a bs hh => hh.congr (fun x _ => by rw [hb])
  exact ⟨hholds _ _ h.vector, h.strings.imp (fun s q => hholds q _), h.aligned, h.apart, h.inside⟩

def Elfhdr.segments (elf : Elfhdr) (file : List UInt8) : List Proghdr := Vm.segments file elf.phoff elf.phnum

structure Built (L : Layout) (E : Set ℕ) (file : List UInt8) (elf : Elfhdr) (args : List (List UInt8)) (r : Ram) (d sz esp : ℕ) : Prop where
  valid : ∀ ph ∈ elf.segments file, ph.Valid file
  size : sz = (pages (extent (elf.segments file) 0) + 2) * 4096
  guarded : Guarded L E r d (pages (extent (elf.segments file) 0)) (contents file (elf.segments file) (fun _ => 0))
  stack : ∃ ptrs, ArgStack r d sz esp args ptrs

theorem Loaded.round (h : Loaded L E r d sz img) (hb : pages sz * 4096 < 0x80000000) : Loaded L E r d (pages sz * 4096) img := by
  have hp : pages (pages sz * 4096) = pages sz := by
    unfold pages
    omega
  refine ⟨h.space, h.devices, hb, ?_, ?_, ?_⟩
  · rw [hp]
    exact h.page
  · rw [hp]
    exact h.rest
  · rw [hp]
    exact h.zero

theorem stack_bounds (h : sz < 0x80000000) : PGROUNDUP sz = pages sz * 4096 ∧
    (PGROUNDUP sz + 2 * PGSIZE) % 0x100000000 = (pages sz + 2) * 4096 ∧
    ((pages sz + 2) * 4096 + 0x100000000 - 2 * PGSIZE) % 0x100000000 = pages sz * 4096 := by
  have hle := pages_le h.le
  have hround := pgroundup_eq h.le
  refine ⟨hround, ?_, ?_⟩
  · rw [hround]
    change (pages sz * 4096 + 8192) % 4294967296 = _
    omega
  · change ((pages sz + 2) * 4096 + 4294967296 - 8192) % 4294967296 = _
    omega

theorem wp_build {Q : Option (ℕ × ℕ) → Ram → Prop} (hfile : file.length < 0x100000000) (h : Fresh L E r d)
    (hfail : ∀ r', Keeps L E r r' → Space L E r' d → (Loadable file elf.phoff elf.phnum →
      (pages (extent (elf.segments file) 0) + 2) * 4096 < KERNBASE →
      Short (Denies Φ) L E (pages (extent (elf.segments file) 0) + 2)) → Q none r')
    (hok : ∀ r' n, n = pages (extent (elf.segments file) 0) → Keeps L E r r' → (∀ ph ∈ elf.segments file, ph.Valid file) →
      Guarded L E r' d n (contents file (elf.segments file) (fun _ => 0)) →
      wp Φ (pushStack d ((n + 2) * 4096) argv) r' (fun sp r'' => Q (sp.map (fun sp => ((n + 2) * 4096, sp))) r'')) :
    wp Φ (build d file elf argv) r Q := by
  refine wp_seq (wp_mono (grants_mono L) _ ?_ (load_spec hfile h.loaded))
  rintro x r1 ⟨hkeep1, hs1, ⟨hx, hshort⟩ | ⟨sz, hx, hsz, h1, hvalid⟩⟩
  · rw [hx]
    exact hfail r1 hkeep1 hs1 (fun hload _ => (hshort hload).mono (Nat.le_add_right _ 2))
  · have hround := h1.round
    obtain ⟨e1, e2, e3⟩ := stack_bounds h1.bound
    rw [hx]
    dsimp only
    rw [e2, e1]
    by_cases hbig : (pages sz + 2) * 4096 ≥ KERNBASE
    · rw [allocuvm, if_pos hbig]
      refine hfail r1 hkeep1 hs1 (fun _ hlt => ?_)
      rw [hsz] at hbig
      exact absurd hbig (Nat.not_le.mpr hlt)
    · have hlt : (pages sz + 2) * 4096 < 0x80000000 := Nat.lt_of_not_le hbig
      have hle : pages sz * 4096 ≤ (pages sz + 2) * 4096 := Nat.mul_le_mul_right 4096 (Nat.le_add_right _ 2)
      refine wp_seq (wp_mono (grants_mono L) _ ?_ ((hround (hle.trans_lt hlt)).alloc ((pages sz + 2) * 4096)))
      rw [Nat.max_eq_right hle]
      rintro y r2 ⟨hkeep2, hs2, hy, hshort⟩
      refine wp_cond (fun hy0 => hfail r2 (hkeep1.trans hkeep2) hs2 (fun _ _ => ?_)) (fun hy0 => ?_)
      · have hpages : pages ((pages sz + 2) * 4096) = pages sz + 2 := by
          unfold pages
          omega
        change Short (Denies Φ) L E (pages (extent (segments file elf.phoff elf.phnum) 0) + 2)
        rw [← hsz, ← hpages]
        exact hshort hy0 hlt (Nat.mul_pos (Nat.succ_pos _) (by decide))
      obtain ⟨hmax, h2⟩ := hy hy0
      subst hmax
      rw [e3]
      refine wp_seq (wp_mono (grants_mono L) _ ?_ (clearpteu_spec h2))
      rintro _ r3 ⟨hkeep3, h3⟩
      subst hsz
      refine wp_seq (wp_mono (grants_mono L) _ ?_ (hok r3 _ rfl ((hkeep1.trans hkeep2).trans hkeep3) hvalid h3))
      intro sp r4 hQ
      cases sp with
      | none => exact hQ
      | some sp => exact hQ

structure Accepts (file : List UInt8) (elf : Elfhdr) (args : List (List UInt8)) : Prop where
  loadable : Loadable file elf.phoff elf.phnum
  bound : (pages (extent (elf.segments file) 0) + 2) * 4096 < KERNBASE
  count : args.length ≤ 32
  fits : stackSize args ≤ 4096

theorem build_spec (hfile : file.length < 0x100000000) (hargs : ∀ s ∈ args, s.length < 0x1000000) (h : Fresh L E r d) :
    wp Φ (build d file elf (args.map some ++ none :: rest)) r (fun x r' => Keeps L E r r' ∧ Space L E r' d ∧
      (x = none ∧ (Accepts file elf args → Short (Denies Φ) L E (pages (extent (elf.segments file) 0) + 2)) ∨
        ∃ sz esp, x = some (sz, esp) ∧ Built L E file elf args r' d sz esp)) := by
  refine wp_build hfile h (fun r1 hkeep1 hs1 hshort => ⟨hkeep1, hs1, .inl ⟨rfl, fun ha => hshort ha.loadable ha.bound⟩⟩) ?_
  rintro r1 _ rfl hkeep1 hvalid h1
  refine wp_mono (grants_mono L) _ ?_ (wp_of_safe (pushStack_spec hargs h1))
  rintro z r2 ⟨hkeep2, hs2, ⟨rfl, hfull⟩ | ⟨esp, ptrs, rfl, h2, hstack⟩⟩
  · refine ⟨hkeep1.trans hkeep2, hs2, .inl ⟨rfl, fun ha => ?_⟩⟩
    exact absurd ha.fits (Nat.not_le.mpr (hfull ha.count))
  · exact ⟨hkeep1.trans hkeep2, hs2, .inr ⟨_, esp, rfl, hvalid, rfl, h2, ptrs, hstack⟩⟩

theorem Guarded.sized (h : Guarded L E r d g img) (hst : Stored L E d r r') : Sized L E r' d ((g + 2) * 4096) where
  space := hst.space
  bound := by
    have := h.bound
    change (g + 2) * 4096 < 0x80000000
    omega
  rest v hv := by
    have hpages : pages ((g + 2) * 4096) = g + 2 := by
      unfold pages
      omega
    rw [← Option.not_isSome_iff_eq_none, Ram.user, hst.entry, Option.isSome_map, ← Option.isSome_map, ← Ram.user, h.present v]
    omega

theorem build_sized (hh : Halts Φ) (hfile : file.length < 0x100000000) (h : Fresh L E r d) :
    wp Φ (build d file elf argv) r (fun x r' => Keeps L E r r' ∧ Space L E r' d ∧
      (x = none ∨ ∃ sz esp, x = some (sz, esp) ∧ Sized L E r' d sz)) := by
  refine wp_build hfile h (fun r1 hkeep1 hs1 _ => ⟨hkeep1, hs1, .inl rfl⟩) ?_
  intro r1 n _ hkeep1 _ h1
  refine wp_mono (grants_mono L) _ ?_ (pushStack_stored hh h1.space)
  intro z r2 h2
  refine ⟨hkeep1.trans h2.keep, h2.space, ?_⟩
  cases z with
  | none => exact .inl rfl
  | some sp => exact .inr ⟨_, sp, rfl, h1.sized h2⟩

theorem wp_image {F : Elfhdr → Prop} {P : Elfhdr → Ram → ℕ → ℕ → ℕ → Prop} (h : Idle L E r)
    (hF : ∀ elf, Short (Denies Φ) L E 0 → F elf)
    (hbuild : ∀ elf r1 d, Fresh L E r1 d → wp Φ (build d file elf argv) r1 (fun x r' => Keeps L E r1 r' ∧ Space L E r' d ∧
      (x = none ∧ F elf ∨ ∃ sz esp, x = some (sz, esp) ∧ P elf r' d sz esp))) :
    wp Φ (image L file argv) r (fun x r' => Keeps L E r r' ∧
      (x = none ∧ Idle L E r' ∧ (∀ elf, elfhdr file = some elf → elf.magic = ELF_MAGIC → F elf) ∨
      ∃ im elf, x = some im ∧ elfhdr file = some elf ∧ elf.magic = ELF_MAGIC ∧ im.entry = elf.entry ∧
        P elf r' im.pgdir im.sz im.sp)) := by
  unfold image
  cases helf : elfhdr file with
  | none => exact ⟨.refl L E r, .inl ⟨rfl, h, fun elf he => absurd he.symm (Option.some_ne_none elf)⟩⟩
  | some elf =>
    refine wp_cond (fun hmagic => ⟨.refl L E r, .inl ⟨rfl, h, ?_⟩⟩) (fun hmagic => ?_)
    · rintro _ ⟨⟩ hm
      exact absurd hm hmagic
    refine wp_seq (wp_mono (grants_mono L) _ ?_ (setupkvm_spec h))
    rintro x r1 ⟨hkeep1, ⟨rfl, h1, hshort⟩ | ⟨d, rfl, h1⟩⟩
    · exact ⟨hkeep1, .inl ⟨rfl, h1, fun elf _ _ => hF elf hshort⟩⟩
    · refine wp_seq (wp_mono (grants_mono L) _ ?_ (hbuild elf r1 d h1))
      rintro y r2 ⟨hkeep2, hs2, ⟨rfl, hwhy⟩ | ⟨sz, esp, rfl, hP⟩⟩
      · refine wp_seq (wp_mono (grants_mono L) _ ?_ (freevm_spec hs2))
        rintro _ r3 ⟨h3, hkeep3⟩
        refine ⟨(hkeep1.trans hkeep2).trans hkeep3, .inl ⟨rfl, h3, ?_⟩⟩
        rintro _ ⟨⟩ -
        exact hwhy
      · exact ⟨hkeep1.trans hkeep2, .inr ⟨⟨d, sz, esp, elf.entry⟩, elf, rfl, rfl, not_not.mp hmagic, rfl, hP⟩⟩

theorem image_spec (hfile : file.length < 0x100000000) (hargs : ∀ s ∈ args, s.length < 0x1000000) (h : Idle L E r) :
    wp Φ (image L file (args.map some ++ none :: rest)) r (fun x r' => Keeps L E r r' ∧
      (x = none ∧ Idle L E r' ∧ (∀ elf, elfhdr file = some elf → elf.magic = ELF_MAGIC → Accepts file elf args →
          Short (Denies Φ) L E (pages (extent (elf.segments file) 0) + 2)) ∨
        ∃ im elf, x = some im ∧ elfhdr file = some elf ∧ elf.magic = ELF_MAGIC ∧ im.entry = elf.entry ∧
          Built L E file elf args r' im.pgdir im.sz im.sp)) :=
  wp_image h (fun _ hshort _ => hshort.mono (Nat.zero_le _)) (fun _ _ _ hfresh => build_spec hfile hargs hfresh)

theorem image_sized (hh : Halts Φ) (hfile : file.length < 0x100000000) (h : Idle L E r) :
    wp Φ (image L file argv) r (fun x r' => Keeps L E r r' ∧
      (x = none ∧ Idle L E r' ∨ ∃ im, x = some im ∧ Sized L E r' im.pgdir im.sz)) := by
  have himage : wp Φ (image L file argv) r _ := wp_image (F := fun _ => True) (P := fun _ r' d sz _ => Sized L E r' d sz) h
    (fun _ _ => trivial) (fun elf r1 d hfresh => wp_mono (grants_mono L) _ (fun x r' hx => ⟨hx.1, hx.2.1,
      hx.2.2.imp_left (fun hn => ⟨hn, trivial⟩)⟩) (build_sized hh hfile hfresh))
  refine wp_mono (grants_mono L) _ ?_ himage
  rintro x r1 ⟨hkeep, ⟨rfl, hidle, -⟩ | ⟨im, -, rfl, -, -, -, hs⟩⟩
  · exact ⟨hkeep, .inl ⟨rfl, hidle⟩⟩
  · exact ⟨hkeep, .inr ⟨im, rfl, hs⟩⟩

theorem Built.congr {esp : ℕ} (h : Built L E file elf args r d sz esp) (hs : Space L E' r' d)
    (hp : ∀ x f, r.refs d x = some f → r'.page f = r.page f) : Built L E' file elf args r' d sz esp := by
  obtain ⟨ptrs, hptrs⟩ := h.stack
  exact ⟨h.valid, h.size, h.guarded.congr hs hp, ptrs, hptrs.congr (byte_congr (Ram.user_congr hp))⟩

theorem commit_spec {kstack old : ℕ} {im : Image} (hold : Space L (E ∪ owned r im.pgdir) r old) (hnew : Space L E' r im.pgdir)
    (hE : ∀ f ∈ E, f ∉ L.frames \ E') (hk : kstack ∈ L.frames ∩ E) :
    wp Φ (commit kstack old im) r (fun _ r' => Space L E r' im.pgdir ∧ (∀ x f, r.refs im.pgdir x = some f → r'.page f = r.page f) ∧
      r'.page kstack = setWord (setWord (r.page kstack) 1019 im.entry) 1022 (UInt32.ofNat im.sp)) := by
  have hheld := hold.held_of_mem hk.1 (.inl hk.2)
  have hwrite := Writes.setPage kstack r (setWord (r.page kstack) 1019 im.entry)
  refine wp_setWord (Grants.usable r kstack hheld) (wp_setWord (Grants.usable _ kstack (hwrite.held hheld)) ?_)
  rw [Ram.setPage_self]
  generalize hr1 : Ram.setPage _ kstack _ = r1
  have hw : Writes kstack r r1 := by
    rw [← hr1]
    exact hwrite.trans (.setPage ..)
  have hpage : r1.page kstack = setWord (setWord (r.page kstack) 1019 im.entry) 1022 (UInt32.ofNat im.sp) := by
    rw [← hr1, Ram.setPage_self]
  obtain ⟨hold1, -, -⟩ := hw.space hold (fun hm => hm.2 (.inl hk.2))
  obtain ⟨hnew1, -, hrefs1⟩ := hw.space hnew (hE kstack hk.2)
  have howned : owned r1 im.pgdir = owned r im.pgdir := by
    unfold owned
    rw [hrefs1]
  refine wp_mono (grants_mono L) _ ?_ (freevm_spec hold1)
  rintro _ r2 ⟨hidle, hkeep⟩
  rw [← howned] at hidle hkeep
  have hpages : ∀ x f, r1.refs im.pgdir x = some f → r2.page f = r1.page f := fun x f hx => hkeep f (fun hm => hm.2 (.inr ⟨x, hx⟩))
  refine ⟨hnew1.of_idle hidle hpages ?_, fun x f hx => ?_, ?_⟩
  · rintro f ⟨x, hx⟩ hf
    exact hE f hf (hnew1.exact.mem hx)
  · rw [hpages x f (by rwa [hrefs1]), hw.page f (hnew.not_mem (hE kstack hk.2) hx)]
  · rw [hkeep kstack (fun hm => hm.2 (.inl hk.2)), hpage]

def segmentByte (file : List UInt8) (segs : List Proghdr) (a : ℕ) : Option UInt8 := match segs.reverse.find? (fun ph => ph.Covers a) with
  | some ph => file[ph.off + (a - ph.vaddr)]?
  | none => some 0

theorem contents_eq {segs : List Proghdr} (h : ∀ ph ∈ segs, ph.Valid file) (a : ℕ) :
    some (contents file segs (fun _ => 0) a) = segmentByte file segs a := by
  rw [contents_apply, segmentByte]
  cases hf : segs.reverse.find? (fun ph => ph.Covers a) with
  | none => rfl
  | some ph =>
    have hmem := h ph (List.mem_reverse.mp (List.mem_of_find?_eq_some hf))
    have hc : ph.Covers a := by simpa using List.find?_some hf
    have hin : ph.off + (a - ph.vaddr) < file.length := by
      obtain ⟨h1, h2⟩ := hc
      have := hmem.inFile
      omega
    simp only [Option.map_some, Option.getD_some, List.getD_eq_getElem _ _ hin, List.getElem?_eq_getElem hin]

namespace Built

variable {sz esp : ℕ} (h : Built L E file elf args r d sz esp)

include h

theorem extent_lt : pages (extent (elf.segments file) 0) + 2 < 524288 := h.guarded.bound

theorem size_eq : sz = PGROUNDUP (extent (elf.segments file) 0) + 2 * PGSIZE := by
  have hb := h.extent_lt
  rw [h.size, pgroundup_eq]
  · change _ = _ + 8192
    omega
  · unfold pages at hb
    omega

theorem byte {a : ℕ} (ha : a < sz - PGSIZE) : r.byte d a = segmentByte file (elf.segments file) a := by
  rw [← contents_eq h.valid]
  apply h.guarded.byte
  have hsize := h.size
  change a < sz - 4096 at ha
  omega

theorem guard : ¬ Accessible r d (sz / PGSIZE - 2) := by
  have hpage : sz / PGSIZE - 2 = pages (extent (elf.segments file) 0) := by
    rw [h.size]
    change _ * 4096 / 4096 - 2 = _
    omega
  rw [hpage, h.guarded.access]
  exact fun hn => hn.2 rfl

end Built

namespace Kernel

variable {k k' : Kernel} {p : Slot} {path : List UInt8}

structure Unchanged (p : Slot) (k k' : Kernel) : Prop where
  task : k'.task = k.task
  table : k'.table = k.table
  memory : k'.ram.user (k.task p).pgdir = k.ram.user (k.task p).pgdir
  stack : k'.ram.page (k.task p).kstack = k.ram.page (k.task p).kstack
  free : ∀ f, f ∈ k'.ram.freelist ↔ f ∈ k.ram.freelist

structure Executed (L : Layout) (E : Set ℕ) (p : Slot) (path file : List UInt8) (elf : Elfhdr) (args : List (List UInt8)) (esp : ℕ) (k k' : Kernel) : Prop where
  header : elfhdr file = some elf ∧ elf.magic = ELF_MAGIC
  built : Built L E file elf args k'.ram (k'.task p).pgdir (k'.task p).sz esp
  table : k'.table = k.table
  task : k'.task = Function.update k.task p { k.task p with
    name := safestrcpy (lastElem path path) 16, pgdir := (k'.task p).pgdir, sz := (k'.task p).sz }
  frame : k'.ram.page (k.task p).kstack = setWord (setWord (k.ram.page (k.task p).kstack) 1019 elf.entry) 1022 (UInt32.ofNat esp)

theorem exec_spec (h : Running L E k p) (hfile : file.length < 0x100000000) (hargs : ∀ s ∈ args, s.length < 0x1000000) :
    Returns (k.exec L p path (some file) (args.map some ++ none :: rest)) (fun x =>
      x.1 = -1 ∧ Unchanged p k x.2 ∧ (∀ elf, elfhdr file = some elf → elf.magic = ELF_MAGIC → Accepts file elf args →
        Short (k.ram.denied ≠ []) L (E ∪ owned k.ram (k.task p).pgdir) (pages (extent (elf.segments file) 0) + 2)) ∨
      x.1 = 0 ∧ ∃ elf esp, Executed L E p path file elf args esp k x.2) := by
  have hidle := h.space.idle
  have hapart := h.space.apart
  refine Returns.bind (call_undenied (Q := fun D x r' => Keeps L (E ∪ owned k.ram (k.task p).pgdir) k.ram r' ∧
    (x = none ∧ Idle L (E ∪ owned k.ram (k.task p).pgdir) r' ∧ (∀ elf, elfhdr file = some elf → elf.magic = ELF_MAGIC →
        Accepts file elf args → Short D L (E ∪ owned k.ram (k.task p).pgdir) (pages (extent (elf.segments file) 0) + 2)) ∨
      ∃ im elf, x = some im ∧ elfhdr file = some elf ∧ elf.magic = ELF_MAGIC ∧ im.entry = elf.entry ∧
        Built L (E ∪ owned k.ram (k.task p).pgdir) file elf args r' im.pgdir im.sz im.sp))
    (fun Φ _ => image_spec hfile hargs hidle)) ?_
  rintro ⟨x, k1⟩ ⟨r1, hk1, ⟨hkeep1, hx⟩, -⟩
  dsimp only at hk1
  subst hk1
  have hstack : r1.page (k.task p).kstack = k.ram.page (k.task p).kstack := hkeep1 _ (fun hm => hm.2 (.inl h.stack.2))
  rcases hx with ⟨rfl, h1, hwhy⟩ | ⟨im, elf, rfl, helf, hmagic, hentry, hbuilt⟩
  · refine .ok (.inl ⟨rfl, ⟨rfl, rfl, hapart.user hkeep1, hstack, fun f => ?_⟩, hwhy⟩)
    rw [h1.mem_iff, hidle.mem_iff]
  · have hnew := hbuilt.guarded.space
    have hE : ∀ f ∈ E, f ∉ L.frames \ (E ∪ owned k.ram (k.task p).pgdir) := fun f hf hm => hm.2 (.inl hf)
    dsimp only
    generalize hk2 : Kernel.setTask _ p _ = k2
    have htask : k2.task = Function.update k.task p { k.task p with name := safestrcpy (lastElem path path) 16, pgdir := im.pgdir, sz := im.sz } := by
      rw [← hk2]
      rfl
    have hself : k2.task p = { k.task p with name := safestrcpy (lastElem path path) 16, pgdir := im.pgdir, sz := im.sz } := by
      rw [htask, Function.update_self]
    have hram : k2.ram = r1 := by
      rw [← hk2]
      rfl
    have htable : k2.table = k.table := by
      rw [← hk2]
      rfl
    subst hram
    refine Returns.bind (call_returns (commit_spec (h.space.swap hnew hkeep1) hnew hE h.stack)) ?_
    rintro ⟨_, k3⟩ ⟨r3, hk3, hs3, hp3, hpage3⟩
    dsimp only at hk3
    subst hk3
    refine .ok (.inr ⟨rfl, elf, im.sp, ⟨helf, hmagic⟩, ?_, htable, ?_, ?_⟩)
    · dsimp only
      rw [hself]
      exact hbuilt.congr hs3 hp3
    · dsimp only
      rw [hself]
      exact htask
    · dsimp only
      rw [hpage3, ← hentry, ← hstack]

theorem exec_all_or_nothing (L : Layout) (E : Set ℕ) (k : Kernel) (p : Slot) (path file : List UInt8)
    (args : List (List UInt8)) (rest : Argv) (h : Running L E k p) (hfile : file.length < 0x100000000)
    (hargs : ∀ s ∈ args, s.length < 0x1000000) :
    ∃ ret k', k.exec L p path (some file) (args.map some ++ none :: rest) = .ok (ret, k') ∧
      (ret = -1 ∧ Unchanged p k k' ∨ ret = 0 ∧ ∃ elf, elfhdr file = some elf ∧
        (k'.task p).sz = PGROUNDUP (extent (elf.segments file) 0) + 2 * PGSIZE ∧
        (∀ a < (k'.task p).sz - PGSIZE, k'.ram.byte (k'.task p).pgdir a = segmentByte file (elf.segments file) a) ∧
        ¬ Accessible k'.ram (k'.task p).pgdir ((k'.task p).sz / PGSIZE - 2)) := by
  obtain ⟨⟨ret, k'⟩, hexec, hx⟩ := exec_spec h hfile hargs
  refine ⟨ret, k', hexec, hx.imp (And.imp_right And.left) ?_⟩
  rintro ⟨hret, elf, esp, hx⟩
  have hb := hx.built
  exact ⟨hret, elf, hx.header.1, hb.size_eq, fun a ha => hb.byte ha, hb.guard⟩

theorem exec_succeeds (h : Running L E k p) (hfile : file.length < 0x100000000) (hargs : ∀ s ∈ args, s.length < 0x1000000)
    (helf : elfhdr file = some elf) (hmagic : elf.magic = ELF_MAGIC) (ha : Accepts file elf args) (hd : k.ram.denied = [])
    (hroom : 1028 + pages (extent (elf.segments file) 0) < k.ram.freelist.length) :
    ∃ k' esp, k.exec L p path (some file) (args.map some ++ none :: rest) = .ok (0, k') ∧
      Executed L E p path file elf args esp k k' := by
  have hreturns : Returns (k.exec L p path (some file) (args.map some ++ none :: rest)) _ := exec_spec h hfile hargs
  obtain ⟨⟨ret, k'⟩, hexec, ⟨-, -, hshort⟩ | ⟨rfl, elf', esp, hx⟩⟩ := hreturns
  · exact absurd (hshort elf helf hmagic ha) (h.space.idle.not_short hd (by omega))
  · obtain rfl := Option.some.inj (helf.symm.trans hx.header.1)
    exact ⟨k', esp, hexec, hx⟩

def tinyFile : List UInt8 :=
  [0x7F, 0x45, 0x4C, 0x46] ++ List.replicate 24 0 ++ [52, 0, 0, 0] ++ List.replicate 12 0 ++ [1, 0] ++ List.replicate 6 0 ++
    [1, 0, 0, 0, 84, 0, 0, 0, 0, 0, 0, 0, 0, 0, 0, 0, 4, 0, 0, 0, 4, 0, 0, 0] ++ List.replicate 8 0 ++ [0x90, 0x90, 0x90, 0x90]

def tinyHeader : Elfhdr := ⟨ELF_MAGIC, 0, 52, 1⟩

theorem tinyFile_header : elfhdr tinyFile = some tinyHeader := by decide +kernel

theorem tinyFile_segments : tinyHeader.segments tinyFile = [⟨1, 84, 0, 4, 4⟩] := by decide +kernel

theorem tinyFile_accepts {args : List (List UInt8)} (hcount : args.length ≤ 32) (hfits : stackSize args ≤ 4096) :
    Accepts tinyFile tinyHeader args where
  loadable i hi := by
    obtain rfl : i = 0 := Nat.lt_one_iff.mp hi
    exact ⟨⟨1, 84, 0, 4, 4⟩, by decide +kernel, fun _ => ⟨⟨by decide, by decide, by decide, .inr (by decide)⟩, by decide⟩⟩
  bound := by
    rw [tinyFile_segments]
    decide
  count := hcount
  fits := hfits

theorem tinyFile_executed (m : Mem) (path : List UInt8) (args : List (List UInt8)) (rest : Argv) (hcount : args.length ≤ 32)
    (hfits : stackSize args ≤ 4096) (hargs : ∀ s ∈ args, s.length < 0x1000000) :
    ∃ k' esp, (oneProcess 0 m).exec manyPages 0 path (some tinyFile) (args.map some ++ none :: rest) = .ok (0, k') ∧
      Executed manyPages {57340} 0 path tinyFile tinyHeader args esp (oneProcess 0 m) k' := by
  obtain ⟨hd, hfree⟩ := oneProcess_free 0 m
  refine exec_succeeds (oneProcess_running 0 m) (by decide) hargs tinyFile_header rfl (tinyFile_accepts hcount hfits) hd ?_
  rw [tinyFile_segments, hfree]
  decide

theorem exec_all_or_nothing_tiny : ∃ k', (oneProcess 0 (fun _ => 0)).exec manyPages 0 [105] (some tinyFile)
    ([[105], [45, 108]].map some ++ [none]) = .ok (0, k') ∧ (k'.task 0).sz = 12288 ∧
      (∀ a < 8192, k'.ram.byte (k'.task 0).pgdir a = segmentByte tinyFile [⟨1, 84, 0, 4, 4⟩] a) ∧
      ¬ Accessible k'.ram (k'.task 0).pgdir 1 := by
  obtain ⟨ret, k', hexec, hx⟩ := exec_all_or_nothing manyPages {57340} (oneProcess 0 (fun _ => 0)) 0 [105] tinyFile
    [[105], [45, 108]] [] (oneProcess_running 0 _) (by decide) (by decide)
  obtain ⟨k1, esp, hok, -⟩ := tinyFile_executed (fun _ => 0) [105] [[105], [45, 108]] [] (by decide)
    (by decide) (by decide)
  rw [hexec] at hok
  cases hok
  obtain ⟨hret, -⟩ | ⟨-, elf, helf, hsz, hbyte, hguard⟩ := hx
  · exact absurd hret (by decide)
  · obtain rfl := Option.some.inj (tinyFile_header.symm.trans helf)
    rw [tinyFile_segments] at hsz hbyte
    have hsize : (k'.task 0).sz = 12288 := hsz
    rw [hsize] at hbyte hguard
    exact ⟨k', hexec, hsize, hbyte, hguard⟩

end Kernel

end EnhancedXv6.Vm
