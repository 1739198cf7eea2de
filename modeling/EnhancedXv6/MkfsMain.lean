import EnhancedXv6.MkfsBuilt

namespace EnhancedXv6.Mkfs

open Bytes Blocks Names
open Fs (Ftype)

variable {st st' : State} {i j k n : ℕ} {s t u : Blocks.State} {ty : Ftype} {bytes rb : List UInt8} {fs done : List (Ftype × List UInt8)}
  {files : List HostFile} {f : HostFile}

theorem map_str (r : List UInt8) : (List.range r.length).map (str r) = r := by
  apply List.ext_getElem
  · rw [List.length_map, List.length_range]
  · intro x h1 h2
    rw [List.getElem_map, List.getElem_range, str, List.getD_eq_getElem _ _ h2]

theorem iappendAll_spec {reads : List (List UInt8)} (h : Built st fs s) (hi : fs[i]? = some (ty, bytes)) (hty : ty ≠ .free)
    (hN : fs.length < NINODES) (hr : ∀ r ∈ reads, r ≠ []) (hmax : bytes.length + reads.flatten.length ≤ MAXFILE * BSIZE)
    (hroom : st.freeblock + blocksFor (bytes.length + reads.flatten.length) ≤ FSSIZE + blocksFor bytes.length) :
    ∃ st' u, st.iappendAll (i + 1) reads = some st' ∧ Built st' (fs.set i (ty, bytes ++ reads.flatten)) u ∧
      st'.freeblock + blocksFor bytes.length = st.freeblock + blocksFor (bytes.length + reads.flatten.length) := by
  induction reads generalizing st fs s bytes with
  | nil =>
    refine ⟨st, s, rfl, ?_, rfl⟩
    obtain ⟨hlt, he⟩ := List.getElem?_eq_some_iff.mp hi
    rw [List.flatten_nil, List.append_nil, ← he, List.set_getElem_self]
    exact h
  | cons r reads ih =>
    have hpos : 0 < r.length := List.length_pos_iff.mpr (hr r (List.mem_cons_self ..))
    have hlen : i < fs.length := (List.getElem?_eq_some_iff.mp hi).1
    rw [List.flatten_cons, List.length_append, ← Nat.add_assoc] at hmax hroom
    have hmono := blocksFor_mono (Nat.le_add_right (bytes.length + r.length) reads.flatten.length)
    obtain ⟨st₁, u, he, hb, hcount⟩ := iappend_spec (p := str r) h hi hty hN hpos (by omega) (by omega)
    rw [map_str] at hb
    obtain ⟨st', v, he', hb', hcount'⟩ := ih hb (List.getElem?_set_self hlen) (by rwa [List.length_set])
      (fun r' hr' => hr r' (List.mem_cons_of_mem r hr')) (by rw [List.length_append]; omega) (by rw [List.length_append]; omega)
    rw [List.length_append] at hcount'
    refine ⟨st', v, ?_, ?_, ?_⟩
    · rw [State.iappendAll, he]
      exact he'
    · rw [List.set_set, List.append_assoc] at hb'
      rwa [List.flatten_cons]
    · rw [List.flatten_cons, List.length_append, ← Nat.add_assoc]
      omega

def direntBytes (name : Mem) (inum : ℕ) : List UInt8 := (List.range 16).map (dirent name inum)

theorem length_direntBytes (name : Mem) (inum : ℕ) : (direntBytes name inum).length = 16 := by
  rw [direntBytes, List.length_map, List.length_range]

theorem addFile_spec (h : Built st ((.dir, rb) :: done) s) (hf : 47 ∉ f.name) (hN : done.length + 2 < NINODES)
    (hrb : rb.length + 16 ≤ MAXFILE * BSIZE) (hmax : f.bytes.length ≤ MAXFILE * BSIZE)
    (hroom : st.freeblock + blocksFor (rb.length + 16) + blocksFor f.bytes.length ≤ FSSIZE + blocksFor rb.length) :
    ∃ st' u, st.addFile f = some st' ∧
      Built st' ((.dir, rb ++ direntBytes (str f.fsName) (done.length + 2)) :: (done ++ [(.file, f.bytes)])) u ∧
      st'.freeblock + blocksFor rb.length = st.freeblock + blocksFor (rb.length + 16) + blocksFor f.bytes.length := by
  have hmono := blocksFor_mono (Nat.le_add_right rb.length 16)
  have hfirst : ((Ftype.dir, rb) :: done ++ [(Ftype.file, [])])[0]? = some (.dir, rb) := rfl
  obtain ⟨st₁, u₁, he₁, hb₁, hc₁⟩ := ialloc_spec h (by rw [List.length_cons]; omega) .file
  obtain ⟨st₂, u₂, he₂, hb₂, hc₂⟩ := iappend_spec (n := 16) (p := dirent (str f.fsName) (done.length + 2)) hb₁ hfirst
    (by decide) (by simp only [List.length_append, List.length_cons, List.length_nil]; omega) (by decide) hrb (by omega)
  have hdir : Built st₂ ((.dir, rb ++ direntBytes (str f.fsName) (done.length + 2)) :: (done ++ [(.file, [])])) u₂ := hb₂
  have hlast : (((Ftype.dir, rb ++ direntBytes (str f.fsName) (done.length + 2)) :: (done ++ [(Ftype.file, [])])))[done.length + 1]? =
      some (.file, []) := by rw [List.getElem?_cons_succ, List.getElem?_concat_length]
  obtain ⟨st₃, u₃, he₃, hb₃, hc₃⟩ := iappendAll_spec hdir hlast (by decide)
    (by simp only [List.length_append, List.length_cons, List.length_nil]; omega)
    (fun r hr => (f.some_bytes r hr).1) (by rw [List.length_nil, Nat.zero_add]; exact hmax)
    (by
      have hb : f.reads.flatten.length = f.bytes.length := rfl
      rw [List.length_nil, Nat.zero_add, hb]
      omega)
  refine ⟨st₃, u₃, ?_, ?_, ?_⟩
  · rw [State.addFile, if_neg hf, he₁]
    change (st₁.iappend ROOTINO (dirent (str f.fsName) (done.length + 2)) 16 >>= fun st => st.iappendAll (done.length + 2) f.reads) = _
    rw [show st₁.iappend ROOTINO (dirent (str f.fsName) (done.length + 2)) 16 = some st₂ from he₂]
    exact he₃
  · rw [List.set_cons_succ, List.set_append_right _ _ (le_refl _), Nat.sub_self, List.set_cons_zero, List.nil_append] at hb₃
    exact hb₃
  · have hz : blocksFor ([] : List UInt8).length = 0 := by decide
    have hb : f.reads.flatten.length = f.bytes.length := rfl
    rw [hz, List.length_nil, Nat.zero_add, hb] at hc₃
    omega

def dirents : ℕ → List HostFile → List UInt8
  | _, [] => []
  | i, f :: files => direntBytes (str f.fsName) i ++ dirents (i + 1) files

theorem length_dirents (i : ℕ) (files : List HostFile) : (dirents i files).length = 16 * files.length := by
  induction files generalizing i with
  | nil => rfl
  | cons f files ih =>
    rw [dirents, List.length_append, length_direntBytes, ih, List.length_cons]
    omega

def totalBlocks (files : List HostFile) : ℕ := (files.map (fun f => blocksFor f.bytes.length)).sum

theorem addFiles_spec (h : Built st ((.dir, rb) :: done) s) (hf : ∀ f ∈ files, 47 ∉ f.name)
    (hN : done.length + files.length + 1 < NINODES) (hrb : rb.length + 16 * files.length ≤ MAXFILE * BSIZE)
    (hmax : ∀ f ∈ files, f.bytes.length ≤ MAXFILE * BSIZE)
    (hroom : st.freeblock + blocksFor (rb.length + 16 * files.length) + totalBlocks files ≤ FSSIZE + blocksFor rb.length) :
    ∃ st' u, st.addFiles files = some st' ∧
      Built st' ((.dir, rb ++ dirents (done.length + 2) files) :: (done ++ files.map (fun f => (.file, f.bytes)))) u ∧
      st'.freeblock + blocksFor rb.length = st.freeblock + blocksFor (rb.length + 16 * files.length) + totalBlocks files := by
  induction files generalizing st s rb done with
  | nil =>
    refine ⟨st, s, rfl, ?_, rfl⟩
    rw [dirents, List.append_nil, List.map_nil, List.append_nil]
    exact h
  | cons f files ih =>
    have hsplit : rb.length + 16 * (f :: files).length = rb.length + 16 + 16 * files.length := by
      rw [List.length_cons]
      omega
    have htotal : totalBlocks (f :: files) = blocksFor f.bytes.length + totalBlocks files := by
      rw [totalBlocks, List.map_cons, List.sum_cons]
      rfl
    rw [hsplit, htotal] at hroom
    rw [hsplit] at hrb
    rw [List.length_cons] at hN
    have hmono := blocksFor_mono (Nat.le_add_right (rb.length + 16) (16 * files.length))
    obtain ⟨st₁, u, he, hb, hc⟩ := addFile_spec h (hf f (List.mem_cons_self ..)) (by omega) (by omega)
      (hmax f (List.mem_cons_self ..)) (by omega)
    have hlen : (rb ++ direntBytes (str f.fsName) (done.length + 2)).length = rb.length + 16 := by
      rw [List.length_append, length_direntBytes]
    have hdone : (done ++ [(Ftype.file, f.bytes)]).length = done.length + 1 := by rw [List.length_append, List.length_singleton]
    obtain ⟨st', v, he', hb', hc'⟩ := ih hb (fun g hg => hf g (List.mem_cons_of_mem f hg)) (by rw [hdone]; omega) (by rw [hlen]; omega)
      (fun g hg => hmax g (List.mem_cons_of_mem f hg)) (by rw [hlen]; omega)
    rw [hlen] at hc'
    refine ⟨st', v, ?_, ?_, ?_⟩
    · rw [State.addFiles, he]
      exact he'
    · rw [hdone, List.append_assoc, List.append_assoc] at hb'
      exact hb'
    · rw [hsplit, htotal]
      omega

def rootBytes (files : List HostFile) : List UInt8 :=
  direntBytes dot ROOTINO ++ direntBytes dotdot ROOTINO ++ dirents 2 files

theorem length_rootBytes (files : List HostFile) : (rootBytes files).length = 16 * (files.length + 2) := by
  rw [rootBytes, List.length_append, List.length_append, length_direntBytes, length_direntBytes, length_dirents]
  omega

theorem root_spec : ∃ st s, State.root = some st ∧ Built st [(.dir, direntBytes dot ROOTINO ++ direntBytes dotdot ROOTINO)] s ∧
    st.freeblock = nmeta + 1 := by
  obtain ⟨st₁, u₁, he₁, hb₁, hc₁⟩ := ialloc_spec built_blank (by decide) .dir
  have hfirst : blocksFor ([] : List UInt8).length = 0 ∧ blocksFor (([] : List UInt8).length + 16) = 1 := by decide
  have hsecond : blocksFor (direntBytes dot ROOTINO).length = 1 ∧ blocksFor ((direntBytes dot ROOTINO).length + 16) = 1 := by
    rw [length_direntBytes]
    decide
  have hblank : State.blank.freeblock = 59 ∧ FSSIZE = 1000 := ⟨rfl, rfl⟩
  have hnil : ([] ++ [(Ftype.dir, ([] : List UInt8))])[0]? = some (.dir, []) := rfl
  obtain ⟨st₂, u₂, he₂, hb₂, hc₂⟩ := iappend_spec (n := 16) (p := dirent dot ROOTINO) hb₁ hnil (by decide)
    (by decide) (by decide) (by decide) (by omega)
  have hdot : (([] ++ [(Ftype.dir, ([] : List UInt8))]).set 0 (.dir, [] ++ direntBytes dot ROOTINO))[0]? = some (.dir, direntBytes dot ROOTINO) := rfl
  obtain ⟨st₃, u₃, he₃, hb₃, hc₃⟩ := iappend_spec (n := 16) (p := dirent dotdot ROOTINO) hb₂ hdot (by decide) (by decide) (by decide) (by rw [length_direntBytes]; decide) (by omega)
  refine ⟨st₃, u₃, ?_, hb₃, ?_⟩
  · rw [State.root, he₁]
    change (if 1 = ROOTINO then st₁.iappend 1 (dirent dot 1) 16 >>= fun st => st.iappend 1 (dirent dotdot 1) 16 else none) = _
    have hino : 1 = ROOTINO := rfl
    rw [if_pos hino, show st₁.iappend 1 (dirent dot 1) 16 = some st₂ from he₂]
    exact he₃
  · change st₃.freeblock = 60
    omega

structure Fits (files : List HostFile) : Prop where
  names : ∀ f ∈ files, 47 ∉ f.name
  sizes : ∀ f ∈ files, f.bytes.length ≤ MAXFILE * BSIZE
  inodes : files.length < NINODES - 1
  blocks : nmeta + blocksFor (16 * (files.length + 2)) + totalBlocks files ≤ FSSIZE

def specs (files : List HostFile) : List (Ftype × List UInt8) := (.dir, rootBytes files) :: files.map (fun f => (.file, f.bytes))

theorem files_spec (h : Fits files) : ∃ st s, (State.root >>= fun st => st.addFiles files) = some st ∧ Built st (specs files) s ∧
    st.freeblock = nmeta + blocksFor (16 * (files.length + 2)) + totalBlocks files := by
  have hi : files.length < 199 := h.inodes
  obtain ⟨st₁, s, he, hb, hc⟩ := root_spec
  have hlen : (direntBytes dot ROOTINO ++ direntBytes dotdot ROOTINO).length = 32 := by
    rw [List.length_append, length_direntBytes, length_direntBytes]
  have hsum : 32 + 16 * files.length = 16 * (files.length + 2) := by omega
  have hone : blocksFor 32 = 1 := by decide
  have hblocks := h.blocks
  have hmax : 32 + 16 * files.length ≤ MAXFILE * BSIZE := by
    change _ ≤ 71680
    omega
  obtain ⟨st, u, he', hb', hc'⟩ := addFiles_spec hb h.names (by rw [List.length_nil]; change 0 + files.length + 1 < 200; omega)
    (by rwa [hlen]) h.sizes (by rw [hlen, hsum, hone]; omega)
  rw [hlen, hsum, hone] at hc'
  refine ⟨st, u, ?_, hb', by omega⟩
  rw [he]
  exact he'

def mount (img : ℕ → Mem) (devsw : ℤ → Dev) : Blocks.State where
  block := img
  dinode i := if i < (word (img 1) 2).toNat then dinodeIn (img (iblock (word (img 1) 5).toNat i)) i else {}
  mem _ := none
  devsw := devsw

structure Mounted (files : List HostFile) (st : State) (m : Blocks.State) : Prop where
  label : ∀ j < 7, word (st.img 1) j = superblock j
  mem : ∀ i, m.mem i = none
  sound : Sound sb m
  bitmap : st.img bmapstart = bitmap st.freeblock
  bit : ∀ b < FSSIZE, m.bit sb b = decide (b < st.freeblock)
  freeblock : st.freeblock = nmeta + blocksFor (16 * (files.length + 2)) + totalBlocks files
  free : ∀ i, i = 0 ∨ files.length + 1 < i → (m.cur i).type = .free
  file : ∀ i f, files[i]? = some f → Has m (i + 2) .file f.bytes
  packed : ∀ i ≠ ROOTINO, Packed m i
  rootType : (m.cur ROOTINO).type = .dir ∧ (m.cur ROOTINO).nlink = 1
  rootSize : m.size ROOTINO = (16 * (files.length + 2) / BSIZE + 1) * BSIZE
  rootRefs : ∀ k, m.refs (ROOTINO, k) = none ↔ k ∉ needed (16 * (files.length + 2))
  rootByte : ∀ x, m.byte ROOTINO x = (rootBytes files).getD x 0

theorem refs_of_agree (hcur : ∀ i, (t.cur i).type = (s.cur i).type ∧ (t.cur i).addrs = (s.cur i).addrs)
    (hblock : ∀ i b, s.refs (i, NDIRECT) = some b → t.block b = s.block b) : t.refs = s.refs := by
  funext x
  obtain ⟨i, k⟩ := x
  obtain ⟨htype, haddrs⟩ := hcur i
  by_cases hf : (s.cur i).type = .free
  · unfold State.refs
    dsimp only
    rw [htype, if_pos (.inl hf), if_pos (.inl hf)]
  · apply refs_congr htype
    unfold State.slot Blocks.slot
    rw [haddrs]
    split_ifs with h1 h2
    · rfl
    · rw [hblock i _ (refs_eq_some.mpr ⟨hf, slot_of_le (le_refl _), toNat_ne_zero.mpr h2.2⟩)]
    · rfl

theorem Built.mounted {z : UInt32} (h : Built st (specs files) s) (hst : Stored st ROOTINO { st.table ROOTINO with size := z } st')
    (hz : z.toNat = (16 * (files.length + 2) / BSIZE + 1) * BSIZE)
    (hc : st.freeblock = nmeta + blocksFor (16 * (files.length + 2)) + totalBlocks files) (devsw : ℤ → Dev) :
    Mounted files (st'.wsect bmapstart (bitmap st'.freeblock)) (mount (st'.wsect bmapstart (bitmap st'.freeblock)).img devsw) := by
  have hlabel : (st'.wsect bmapstart (bitmap st'.freeblock)).img 1 = setWords (fun _ => 0) 0 superblock 7 := by
    rw [wsect_of_ne _ _ (by decide), hst.img 1 (.inl (by decide)), h.label, blank_label]
  have hwords : ∀ j < 7, word ((st'.wsect bmapstart (bitmap st'.freeblock)).img 1) j = superblock j := by
    intro j hj
    rw [hlabel, word_setWords, if_pos (by omega), Nat.sub_zero]
  generalize hm : mount (st'.wsect bmapstart (bitmap st'.freeblock)).img devsw = m
  have hcur : ∀ i, m.cur i = st'.table i := by
    intro i
    rw [← hm]
    change (if i < (word ((st'.wsect bmapstart (bitmap st'.freeblock)).img 1) 2).toNat then
      dinodeIn ((st'.wsect bmapstart (bitmap st'.freeblock)).img
        (iblock (word ((st'.wsect bmapstart (bitmap st'.freeblock)).img 1) 5).toNat i)) i else {}) = st'.table i
    rw [hwords 2 (by decide), hwords 5 (by decide)]
    unfold State.table
    by_cases hi : i < NINODES
    · rw [if_pos hi]
      refine (if_pos hi).trans ?_
      rw [wsect_of_ne]
      · rfl
      · exact (iblock_lt hi).2.ne
    · rw [if_neg hi]
      exact if_neg hi
  have hother : ∀ i ≠ ROOTINO, m.cur i = s.cur i := by
    intro i hi
    rw [hcur, hst.table, Function.update_of_ne hi, h.shows.cur]
  have hroot : m.cur ROOTINO = { s.cur ROOTINO with size := z } := by
    rw [hcur, hst.table, Function.update_self, h.shows.cur]
  have hblock : ∀ b, nmeta ≤ b → b < FSSIZE → m.block b = s.block b := by
    intro b hb hb'
    rw [h.shows.block b hb hb', ← hm, ← hst.img b (.inr (le_trans (by decide) hb))]
    apply wsect_of_ne
    rintro rfl
    exact absurd hb (by decide)
  have hrefs : m.refs = s.refs := by
    apply refs_of_agree
    · intro i
      by_cases hi : i = ROOTINO
      · subst hi
        rw [hroot]
        exact ⟨rfl, rfl⟩
      · rw [hother i hi]
        exact ⟨rfl, rfl⟩
    · intro i b hr
      obtain ⟨hlo, hhi⟩ := h.sound.data _ _ hr
      exact hblock b hlo hhi
  have hbyte : ∀ i x, m.byte i x = s.byte i x := by
    intro i x
    unfold State.byte Blocks.State.file
    rw [hrefs]
    cases hr : s.refs (i, State.pos (x / BSIZE)) with
    | none => rfl
    | some b =>
      obtain ⟨hlo, hhi⟩ := h.sound.data _ _ hr
      rw [Option.map_some, Option.map_some, hblock b hlo hhi]
  have hbit : ∀ b < FSSIZE, m.bit sb b = decide (b < st'.freeblock) := by
    intro b hb
    obtain ⟨h1, h2⟩ := bblock_eq hb
    rw [State.bit, h1, h2, ← hm]
    change bit ((st'.wsect bmapstart (bitmap st'.freeblock)).img bmapstart) b = _
    rw [wsect_self, bit_bitmap]
  have hnode := h.node 0 .dir (rootBytes files) rfl
  exact {
    label := hwords
    mem := fun i => by rw [← hm]; rfl
    sound := by
      constructor
      · intro b hb
        rw [hbit b hb, hst.freeblock, ← h.shows.bit b hb, hrefs]
        exact h.sound.bitmap b hb
      · rw [hrefs]
        exact h.sound.once
      · rw [hrefs]
        exact h.sound.data
    bitmap := wsect_self ..
    bit := hbit
    freeblock := hst.freeblock.trans hc
    free := by
      intro i hi
      have hne : i ≠ ROOTINO := by
        change i ≠ 1
        omega
      rw [hother i hne, h.shows.cur, h.empty i]
      rw [specs, List.length_cons, List.length_map]
      exact hi
    file := by
      intro i f hf
      have hn := h.node (i + 1) .file f.bytes (by rw [specs, List.getElem?_cons_succ, List.getElem?_map, hf]; rfl)
      have hne : i + 2 ≠ ROOTINO := by
        change i + 2 ≠ 1
        omega
      exact hn.congr (hother (i + 2) hne) (hbyte (i + 2))
    packed := by
      intro i hi k
      rw [hrefs, State.size, hother i hi]
      exact h.packed i k
    rootType := by
      rw [hroot]
      exact ⟨hnode.type, hnode.nlink⟩
    rootSize := by
      rw [State.size, hroot]
      exact hz
    rootRefs := by
      intro k
      rw [hrefs, ← length_rootBytes, ← hnode.size]
      exact h.packed 1 k
    rootByte := fun x => (hbyte 1 x).trans (hnode.byte x) }

theorem main_spec (h : Fits files) (devsw : ℤ → Dev) : ∃ st, main files = some st ∧ Mounted files st (mount st.img devsw) := by
  obtain ⟨st₀, s, he, hb, hc⟩ := files_spec h
  have hi : files.length < 199 := h.inodes
  have hroot := hb.node 0 .dir (rootBytes files) rfl
  have hcur : s.cur ROOTINO = st₀.table ROOTINO := hb.shows.cur 1
  have hsize : (st₀.table ROOTINO).size.toNat = 16 * (files.length + 2) := by
    have hs := hroot.size
    rw [length_rootBytes] at hs
    rw [← hcur]
    exact hs
  -- the size is fixed
  have hstor := storable_table st₀ ROOTINO
  obtain ⟨st₁, he₁, hst⟩ := winode_spec st₀ ROOTINO
    { st₀.table ROOTINO with size := ((st₀.table ROOTINO).size / UInt32.ofNat BSIZE + 1) * UInt32.ofNat BSIZE } (by decide)
    ⟨hstor.major, hstor.nlink, hstor.addrs⟩
  have hfix : st₀.fixSize = some st₁ := by
    rw [State.fixSize, rinode_eq (by decide)]
    exact he₁
  have hfb : st₁.freeblock < BSIZE * 8 := by
    have hhi : st₀.freeblock ≤ 1000 := hb.shows.hi
    rw [hst.freeblock]
    change _ < 4096
    omega
  refine ⟨st₁.wsect bmapstart (bitmap st₁.freeblock), ?_, ?_⟩
  · obtain ⟨st, hr, ha⟩ := Option.bind_eq_some_iff.mp he
    rw [main, hr]
    change (st.addFiles files >>= fun st => st.fixSize >>= fun st => st.balloc st.freeblock) = _
    rw [ha]
    change (st₀.fixSize >>= fun st => st.balloc st.freeblock) = _
    rw [hfix]
    exact if_pos hfb
  · apply hb.mounted hst _ hc
    have hdiv : (UInt32.ofNat BSIZE).toNat = 512 ∧ (1 : UInt32).toNat = 1 := by decide
    rw [UInt32.toNat_mul, UInt32.toNat_add, UInt32.toNat_div, hdiv.1, hdiv.2, hsize]
    change _ = (16 * (files.length + 2) / 512 + 1) * 512
    omega

end EnhancedXv6.Mkfs
