import EnhancedXv6.FileBytes
import EnhancedXv6.Footprint
import EnhancedXv6.Log

namespace EnhancedXv6.Blocks

open Command Bytes Fs

variable {sb : Superblock} {s t : State} {i k : ℕ}

abbrev IPB : ℕ := BSIZE / 64

def logged (sb : Superblock) (inodestart : ℕ) : (o : Op) → State → Finset ℕ
  | .balloc, s => match s.findFree sb with
    | some b => {sb.bblock b}
    | none => ∅
  | .bzero b, _ => {b.toNat}
  | .bfree b, _ => {sb.bblock b.toNat}
  | .setWord b _ _, _ => {b.toNat}
  | .setBytes b _ _ _, _ => {b.toNat}
  | .iupdate i, _ => {i / IPB + inodestart}
  | .ialloc _, s => match s.freeInode sb with
    | some i => {i / IPB + inodestart}
    | none => ∅
  | _, _ => ∅

def maxChunk : ℤ := ((MAXOPBLOCKS : ℤ) - 1 - 1 - 2) / 2 * 512

structure Write where
  addr : Mem
  n : ℤ
  i : ℤ := 0

namespace Write

def n1 (w : Write) : ℤ := if w.n - w.i > maxChunk then maxChunk else w.n - w.i

def src (w : Write) : Mem := fun k => w.addr (w.i.toNat + k)

def turn (w : Write) (ip : ℕ) (off : UInt32) : Code ℤ := do
  op (.load ip)
  writei ip w.src off (UInt32.ofInt w.n1)

theorem n1_le (w : Write) : w.n1 ≤ 1536 := by
  unfold n1
  split_ifs with h
  · decide
  · change ¬ w.n - w.i > 1536 at h
    omega

theorem n1_pos {w : Write} (h : w.i < w.n) : 0 < w.n1 := by
  unfold n1
  split_ifs
  · decide
  · omega

theorem add_n1_le (w : Write) : w.i + w.n1 ≤ w.n := by
  unfold n1
  split_ifs <;> omega

theorem map_src {w : Write} (h0 : 0 ≤ w.i) (h : w.i < w.n) :
    (List.range w.i.toNat).map w.addr ++ (List.range w.n1.toNat).map w.src = (List.range (w.i + w.n1).toNat).map w.addr := by
  rw [Int.toNat_add h0 (n1_pos h).le, List.range_add, List.map_append, List.map_map]
  rfl

theorem toNat_n1 {w : Write} (h : w.i < w.n) : (UInt32.ofInt w.n1).toNat = w.n1.toNat := by
  have h1 := n1_pos h
  have h2 := n1_le w
  obtain ⟨m, hm⟩ := Int.eq_ofNat_of_zero_le h1.le
  rw [hm] at h2 ⊢
  have hlt : m < 4294967296 := by omega
  have hmod : ((m : ℤ) % 4294967296).toNat = m := by omega
  simp [UInt32.ofInt, hmod, Nat.mod_eq_of_lt hlt]

end Write

section Logged

variable {inodestart N : ℕ} {A : Finset ℕ} {α : Type} {R : α → Finset ℕ → Prop}

abbrev Logs (sb : Superblock) (inodestart : ℕ) (A : Finset ℕ) (N : ℕ) (m : Code α) (s : State) (R : α → Finset ℕ → Prop) : Prop :=
  Spends (exec sb) (logged sb inodestart) A N m s R

theorem logs_op {o : Op} {f : o.Res → Code α} (h : ∀ r t, exec sb o s = .ok (r, t) → logged sb inodestart o s ⊆ A ∧ Logs sb inodestart A N (f r) t R) :
    Logs sb inodestart A N (op o >>= f) s R := .op h

theorem logs_last {o : Op} {R : o.Res → Finset ℕ → Prop} (h : Logs sb inodestart A N (op o >>= pure) s R) : Logs sb inodestart A N (op o) s R := h

theorem logs_balloc (hsize : sb.size ≤ FSSIZE) (hA : sb.bmapstart ∈ A) :
    Logs sb inodestart A 1 balloc s (fun a B => a.toNat ∈ B) := by
  refine logs_op (fun b t he => ⟨?_, ?_⟩)
  · simp only [logged]
    cases hf : s.findFree sb with
    | none => exact Finset.empty_subset A
    | some b =>
      have hlt := (findFree_eq_some hf).1
      have h0 : sb.bblock b = sb.bmapstart := by
        rw [Superblock.bblock, Nat.div_eq_of_lt, Nat.zero_add]
        simp only [FSSIZE, BPB, BSIZE] at hsize ⊢
        omega
      simpa [h0] using hA
  · refine Spends.insert (b : UInt32).toNat ?_
    refine logs_op (fun _ u _ => ⟨by simp [logged], ?_⟩)
    exact .pure (Finset.mem_insert_self _ _)

theorem logs_bmapSlot (hsize : sb.size ≤ FSSIZE) (hA : sb.bmapstart ∈ A) :
    Logs sb inodestart A 1 (bmapSlot i k) s (fun a B => a.toNat ∈ B) := by
  refine logs_op (fun ip _ _ => ⟨Finset.empty_subset A, .ite (fun _ => ?_) (fun _ => ?_)⟩)
  · refine Spends.bind (M := 0) (logs_balloc hsize hA) (fun a t B _ ha => ?_)
    exact logs_op (fun _ _ _ => ⟨Finset.empty_subset B, .pure ha⟩)
  · exact .insert ((ip : Inode).addrs k).toNat (.pure (Finset.mem_insert_self _ _))

theorem logs_bmap (hsize : sb.size ≤ FSSIZE) (hA : sb.bmapstart ∈ A) (bn : ℕ) :
    Logs sb inodestart A 2 (bmap i bn) s (fun a B => a.toNat ∈ B) := by
  refine .ite (fun _ => ?_) (fun _ => .ite (fun _ => ?_) (fun _ => ?_))
  · exact (logs_bmapSlot hsize hA).mono (by omega) (fun _ _ => id)
  · refine Spends.bind (N := 1) (M := 1) (logs_bmapSlot hsize hA) (fun b t B hAB hb => ?_)
    refine logs_op (fun (a : UInt32) u _ => ⟨Finset.empty_subset B, .ite (fun _ => ?_) (fun _ => ?_)⟩)
    · refine Spends.bind (M := 0) (logs_balloc hsize (hAB hA)) (fun a t C hBC ha => ?_)
      exact logs_op (fun _ _ _ => ⟨Finset.singleton_subset_iff.mpr (hBC hb), .pure ha⟩)
    · exact .insert a.toNat (.pure (Finset.mem_insert_self _ _))
  · refine logs_op (fun _ _ he => ?_)
    cases he

def turns (off n : ℕ) : ℕ := if n = 0 then 0 else (off % 512 + n + 511) / 512

theorem turns_chunk {off n : ℕ} (hn : n ≠ 0) : turns (off + chunk off n) (n - chunk off n) + 1 ≤ turns off n := by
  rw [turns, turns, if_neg hn]
  by_cases hle : n ≤ 512 - off % 512
  · have hc : chunk off n = n := Nat.min_eq_left hle
    rw [hc, Nat.sub_self, if_pos rfl]
    omega
  · have hc : chunk off n = 512 - off % 512 := Nat.min_eq_right (Nat.le_of_lt (Nat.lt_of_not_le hle))
    rw [hc]
    split_ifs <;> omega

theorem logs_writeLoop (hsize : sb.size ≤ FSSIZE) (hA : sb.bmapstart ∈ A) {fuel off n : ℕ} {src : Mem} :
    Logs sb inodestart A (2 * turns off n) (writeLoop i fuel off n src) s (fun _ _ => True) := by
  induction fuel generalizing off n src A s with
  | zero => exact .pure trivial
  | succ fuel ih =>
    by_cases hn : n = 0
    · rw [writeLoop, if_pos hn]
      exact .pure trivial
    · rw [writeLoop_succ hn]
      have hturns : turns (off + chunk off n) (n - chunk off n) + 1 ≤ turns off n := turns_chunk hn
      refine Spends.mono (N := 2 + 2 * turns (off + chunk off n) (n - chunk off n)) ?_ (by omega) (fun _ _ => id)
      refine Spends.bind (logs_bmap hsize hA _) (fun b t B hAB hb => ?_)
      exact logs_op (fun _ _ _ => ⟨Finset.singleton_subset_iff.mpr hb, ih (hAB hA)⟩)

theorem logs_writeSize (hi : i / IPB + inodestart ∈ A) {off n : UInt32} : Logs sb inodestart A 0 (writeSize i off n) s (fun _ _ => True) := by
  refine logs_op (fun ip _ _ => ⟨Finset.empty_subset A, .ite (fun _ => ?_) (fun _ => .pure trivial)⟩)
  refine logs_op (fun _ _ _ => ⟨Finset.empty_subset A, ?_⟩)
  exact logs_last (logs_op (fun _ _ _ => ⟨Finset.singleton_subset_iff.mpr hi, .pure trivial⟩))

theorem logs_writei (hsize : sb.size ≤ FSSIZE) (hA : sb.bmapstart ∈ A) (hi : i / IPB + inodestart ∈ A) {src : Mem} {off n : UInt32} :
    Logs sb inodestart A (2 * turns off.toNat n.toNat) (writei i src off n) s (fun _ _ => True) := by
  refine logs_op (fun ip _ _ => ⟨Finset.empty_subset A, .ite (fun _ => ?_) (fun _ => .ite (fun _ => .pure trivial) (fun _ => ?_))⟩)
  · refine logs_op (fun dev _ _ => ⟨Finset.empty_subset A, .ite (fun _ => .pure trivial) (fun _ => ?_)⟩)
    cases (dev : Dev).write <;> exact .pure trivial
  · refine .ite (fun _ => .pure trivial) (fun _ => ?_)
    refine Spends.bind (M := 0) (logs_writeLoop hsize hA) (fun _ t B hAB _ => ?_)
    exact Spends.bind (M := 0) (logs_writeSize (hAB hi)) (fun _ _ _ _ _ => .pure trivial)

end Logged

theorem turn_fits_reservation (sb : Superblock) (hsize : sb.size ≤ FSSIZE) (inodestart : ℕ) (s : State) (ip : ℕ) (off : UInt32)
    (w : Write) (hw : w.i < w.n) : (footprint (exec sb) (logged sb inodestart) (w.turn ip off) s).card ≤ MAXOPBLOCKS := by
  have hmeta : Logs sb inodestart {sb.bmapstart, ip / IPB + inodestart} (2 * turns off.toNat (UInt32.ofInt w.n1).toNat) (w.turn ip off) s
      (fun _ _ => True) :=
    logs_op (fun _ _ _ => ⟨Finset.empty_subset _, logs_writei hsize (by simp) (by simp)⟩)
  obtain ⟨B, -, hB, hfoot, -⟩ := hmeta
  have h2 : ({sb.bmapstart, ip / IPB + inodestart} : Finset ℕ).card ≤ 2 := Finset.card_le_two
  have hlen := Write.toNat_n1 hw
  have hmax := w.n1_le
  -- at most four blocks hold bytes of the chunk, each with an indirect block on the way
  have hturns : turns off.toNat (UInt32.ofInt w.n1).toNat ≤ 4 := by
    rw [hlen, turns]
    split_ifs <;> omega
  have hcard := Finset.card_le_card hfoot
  change _ ≤ 10
  omega

theorem turn_fits_reservation_three :
    (footprint (exec small) (logged small 32) (({ addr := fun _ => 7, n := 600 } : Write).turn 1 2) (single 7 threeBytes)).card ≤ 10 :=
  turn_fits_reservation small (by decide) 32 _ 1 2 _ (by decide)

end EnhancedXv6.Blocks
