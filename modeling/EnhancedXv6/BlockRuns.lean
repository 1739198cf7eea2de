import EnhancedXv6.FileBytes
import EnhancedXv6.Transition

namespace EnhancedXv6.Blocks

open Command Bytes Fs Ownership Transition

variable {sb : Superblock} {s t u : State} {i j k b c : ℕ} {ip : Inode} {E : Stop → Prop}

structure Ledger (sb : Superblock) (s : State) (ref : ℕ × ℕ → Option ℕ) : Prop where
  marked : ∀ b < sb.nmeta, s.bit sb b = true
  exact : Exact {b | sb.nmeta ≤ b ∧ b < sb.size} {b | s.bit sb b = true} ref

theorem Sound.ledger (h : Sound sb s) : Ledger sb s s.refs := ⟨(h.guarded (i := 0)).marked, h.exact⟩

theorem Ledger.sound (h : Ledger sb s s.refs) : Sound sb s := .of_exact h.exact h.marked

section Free

def State.unmark (s : State) (sb : Superblock) (b : ℕ) : State :=
  s.setBlock (sb.bblock b) (clearBit (s.block (sb.bblock b)) (b % BPB))

variable {ref : ℕ × ℕ → Option ℕ} {x : ℕ × ℕ}

theorem Ledger.bit_eq (h : Ledger sb s ref) (hx : ref x = some b) : s.bit sb b = true := h.exact.used_of_ref hx

theorem Ledger.unmark (h : Ledger sb s ref) (hx : ref x = some b) : Ledger sb (s.unmark sb b) (Function.update ref x none) where
  marked c hc := by
    have hle : sb.nmeta ≤ b := (h.exact.mem hx).1
    have hne : b ≠ c := by omega
    rw [State.unmark, bit_unmark, h.marked c hc]
    simpa using hne
  exact := by
    refine h.exact.give hx (fun c _ => ?_) (fun _ => rfl)
    change (s.unmark sb b).bit sb c = true ↔ s.bit sb c = true ∧ c ≠ b
    rw [State.unmark, bit_unmark, Bool.and_eq_true, decide_eq_true_eq, ne_comm]

theorem unmark_block (hb : b < sb.size) (hc : sb.nmeta ≤ c) : (s.unmark sb b).block c = s.block c := by
  have hlt := sb.bblock_lt hb
  exact State.setBlock_of_ne _ _ (by omega)

theorem unmark_refs (hdata : ∀ x c, s.refs x = some c → sb.nmeta ≤ c) (hb : b < sb.size) : (s.unmark sb b).refs = s.refs := by
  apply refs_setBlock
  intro j hj
  have hle := hdata _ _ hj
  have hlt := sb.bblock_lt hb
  omega

variable {α : Type} {Q : α → State → Prop}

theorem wp_bfree {w : UInt32} {f : Unit → Code α} (hb : s.bit sb w.toNat = true) (h : wp (safe sb E) (f ()) (s.unmark sb w.toNat) Q) :
    wp (safe sb E) ((op (.bfree w) : Code Unit) >>= f) s Q :=
  wp_op (o := .bfree w) (r := ()) (t := s.unmark sb w.toNat) (by simp only [exec, hb, if_true]; rfl) (by rintro ⟨⟩) h

theorem wp_forEach {f : ℕ → Code Unit} {R : Unit → State → Prop} {I : ℕ → State → Prop} (n : ℕ) (h : I k s)
    (hstep : ∀ l, k ≤ l → l < k + n → ∀ t, I l t → wp (safe sb E) (f l) t (fun _ u => I (l + 1) u)) (hR : ∀ t, I (k + n) t → R () t) :
    wp (safe sb E) (forEach f (List.range' k n)) s R := by
  induction n generalizing k s with
  | zero => exact hR s h
  | succ n ih =>
    rw [List.range'_succ, forEach, wp_bind]
    refine wp_mono (safe_mono sb E) _ (fun _ u hu => ih hu (fun l hl hn => ?_) (fun t ht => hR t ?_)) (hstep k (le_refl _) (by omega) s h)
    · exact hstep l (by omega) (by omega)
    · rwa [show k + (n + 1) = k + 1 + n by omega]

theorem wp_forRange {f : ℕ → Code Unit} {R : Unit → State → Prop} (I : ℕ → State → Prop) {n : ℕ} (h : I 0 s)
    (hstep : ∀ l < n, ∀ t, I l t → wp (safe sb E) (f l) t (fun _ u => I (l + 1) u)) (hR : ∀ t, I n t → R () t) :
    wp (safe sb E) (forEach f (List.range n)) s R := by
  rw [List.range_eq_range']
  refine wp_forEach n h (fun l _ hl => hstep l (by omega)) (fun t ht => hR t ?_)
  rwa [Nat.zero_add] at ht

end Free

structure Shrunk (sb : Superblock) (i : ℕ) (ip : Inode) (k : ℕ) (s t : State) : Prop where
  sound : Sound sb t
  mem : ∀ j ≠ i, t.mem j = s.mem j
  dinode : t.dinode = s.dinode
  inode : ∃ a, t.mem i = some { ip with addrs := a } ∧ ∀ l < k, a l = 0

section Itrunc

theorem setAddr_self (ip : Inode) (k : ℕ) (a : UInt32) : (ip.setAddr k a).addrs k = a := by
  unfold Inode.setAddr
  exact Function.update_self ..

theorem setAddr_of_ne (ip : Inode) (a : UInt32) (h : j ≠ k) : (ip.setAddr k a).addrs j = ip.addrs j := by
  unfold Inode.setAddr
  exact Function.update_of_ne h ..

theorem refs_clearAddr (hm : s.mem i = some ip) (hk : k < NDIRECT) (x : ℕ × ℕ) :
    (s.setMem i (some (ip.setAddr k 0))).refs x = Function.update s.refs (i, k) none x := by
  obtain ⟨j, l⟩ := x
  by_cases hj : j = i
  · subst hj
    have hcur := cur_of_mem hm
    have hnew := cur_setMem_self s j (ip.setAddr k 0)
    by_cases hl : l = k
    · subst hl
      rw [Function.update_self, State.refs]
      dsimp only
      rw [if_pos]
      refine .inr ?_
      rw [slot_of_le hk.le, hnew, setAddr_self]
      rfl
    · rw [Function.update_of_ne (by simp [hl])]
      apply refs_congr
      · rw [hnew, hcur]
        rfl
      · unfold State.slot slot
        rw [hnew, hcur, setAddr_of_ne _ _ hl, setAddr_of_ne _ _ (by omega : NDIRECT ≠ k)]
        rfl
  · rw [Function.update_of_ne (by simp [hj])]
    exact refs_setMem_of_ne s _ hj l

theorem Shrunk.slot (h : Shrunk sb i ip k s t) (ht : ip.type ≠ .free) (hk : k < NDIRECT) :
    wp (safe sb E) (itruncSlot i k) t (fun _ u => Shrunk sb i ip (k + 1) s u) := by
  obtain ⟨a, hm, ha⟩ := h.inode
  have hcur := cur_of_mem hm
  unfold itruncSlot
  refine wp_inode hm (wp_cond (fun h0 => ?_) (fun h0 => ?_))
  · have hx : t.refs (i, k) = some (a k).toNat :=
      refs_eq_some.mpr ⟨by rwa [hcur], by rw [slot_of_le hk.le, hcur], toNat_ne_zero.mpr h0⟩
    have hlt : (a k).toNat < sb.size := (h.sound.data _ _ hx).2
    refine wp_bfree (h.sound.ledger.bit_eq hx) ?_
    have hm' : (t.unmark sb (a k).toNat).mem i = some { ip with addrs := a } := hm
    refine wp_last (wp_edit hm' ?_)
    refine ⟨?_, fun j hj => (State.setMem_of_ne _ _ hj).trans (h.mem j hj), h.dinode, ⟨_, State.setMem_self _ _ _, ?_⟩⟩
    · apply Ledger.sound
      have hrefs : ((t.unmark sb (a k).toNat).setMem i (some (Inode.setAddr { ip with addrs := a } k 0))).refs =
          Function.update t.refs (i, k) none := by
        funext x
        rw [refs_clearAddr hm' hk, unmark_refs (fun x c hc => (h.sound.data x c hc).1) hlt]
      rw [hrefs]
      have hl := h.sound.ledger.unmark hx
      exact ⟨hl.marked, hl.exact⟩
    · intro l hl
      by_cases he : l = k
      · subst he
        exact setAddr_self ..
      · exact (setAddr_of_ne _ _ he).trans (ha l (by omega))
  · refine ⟨h.sound, h.mem, h.dinode, a, hm, fun l hl => ?_⟩
    by_cases he : l = k
    · subst he
      exact not_not.mp h0
    · exact ha l (by omega)

def State.refsFrom (s : State) (i n : ℕ) (x : ℕ × ℕ) : Option ℕ :=
  if x.1 = i ∧ NDIRECT < x.2 ∧ x.2 < NDIRECT + 1 + n then none else s.refs x

theorem refsFrom_zero (s : State) (i : ℕ) : s.refsFrom i 0 = s.refs := by
  funext x
  exact if_neg (by omega)

theorem refsFrom_succ (s : State) (i n : ℕ) : s.refsFrom i (n + 1) = Function.update (s.refsFrom i n) (i, NDIRECT + 1 + n) none := by
  funext ⟨j, l⟩
  rw [Function.update_apply]
  unfold State.refsFrom
  dsimp only
  by_cases h : (j, l) = (i, NDIRECT + 1 + n)
  · rw [if_pos h]
    obtain ⟨rfl, rfl⟩ := Prod.mk.inj h
    exact if_pos ⟨rfl, by omega, by omega⟩
  · rw [if_neg h]
    have hiff : (j = i ∧ NDIRECT < l ∧ l < NDIRECT + 1 + (n + 1)) ↔ (j = i ∧ NDIRECT < l ∧ l < NDIRECT + 1 + n) := by
      rw [Prod.mk.injEq] at h
      omega
    simp only [hiff]

structure Emptied (sb : Superblock) (i n : ℕ) (s t : State) : Prop where
  ledger : Ledger sb t (s.refsFrom i n)
  refs : t.refs = s.refs
  block : ∀ c, sb.nmeta ≤ c → t.block c = s.block c
  mem : t.mem = s.mem
  dinode : t.dinode = s.dinode

theorem Emptied.unmark {n : ℕ} (h : Emptied sb i n s t) (hs : Sound sb s) {x : ℕ × ℕ} (hx : s.refsFrom i n x = some b) :
    Ledger sb (t.unmark sb b) (Function.update (s.refsFrom i n) x none) ∧ (t.unmark sb b).refs = s.refs ∧
      ∀ c, sb.nmeta ≤ c → (t.unmark sb b).block c = s.block c := by
  have hb : b < sb.size := (h.ledger.exact.mem hx).2
  refine ⟨h.ledger.unmark hx, ?_, fun c hc => (unmark_block hb hc).trans (h.block c hc)⟩
  rw [unmark_refs (fun x c hc => ?_) hb, h.refs]
  rw [h.refs] at hc
  exact (hs.data x c hc).1

theorem Emptied.word {n : ℕ} {w : UInt32} (h : Emptied sb i n s t) (hs : Sound sb s) (hw : s.refs (i, NDIRECT) = some w.toNat)
    (hn : n < NINDIRECT) : wp (safe sb E) (itruncWord w n) t (fun _ u => Emptied sb i (n + 1) s u) := by
  obtain ⟨ht, hslot, hw0⟩ := refs_eq_some.mp hw
  rw [slot_of_le (le_refl _)] at hslot
  have haddr : (s.cur i).addrs NDIRECT ≠ 0 := toNat_ne_zero.mp (by rw [hslot]; exact hw0)
  have hword : s.slot i (NDIRECT + 1 + n) = (Bytes.word (s.block w.toNat) n).toNat := by
    rw [slot_word hn haddr, hslot]
  have hfrom : s.refsFrom i n (i, NDIRECT + 1 + n) = s.refs (i, NDIRECT + 1 + n) := if_neg (by dsimp only; omega)
  unfold itruncWord
  refine wp_word ?_
  rw [h.block _ (hs.data _ _ hw).1]
  refine wp_cond (fun h0 => ?_) (fun h0 => ?_)
  · have hx : s.refsFrom i n (i, NDIRECT + 1 + n) = some (Bytes.word (s.block w.toNat) n).toNat := by
      rw [hfrom]
      exact refs_eq_some.mpr ⟨ht, hword, toNat_ne_zero.mpr h0⟩
    refine wp_last (wp_bfree (h.ledger.bit_eq hx) ?_)
    obtain ⟨hl, hr, hb⟩ := h.unmark hs hx
    rw [← refsFrom_succ] at hl
    exact ⟨hl, hr, hb, h.mem, h.dinode⟩
  · have hnone : s.refsFrom i (n + 1) = s.refsFrom i n := by
      rw [refsFrom_succ, Function.update_eq_self_iff, hfrom]
      exact ((refs_eq_none ht).mpr (by rw [hword, not_not.mp h0]; rfl)).symm
    exact ⟨by rw [hnone]; exact h.ledger, h.refs, h.block, h.mem, h.dinode⟩

theorem refs_clearIndirect (hm : s.mem i = some ip) (x : ℕ × ℕ) :
    (s.setMem i (some (ip.setAddr NDIRECT 0))).refs x = Function.update (s.refsFrom i NINDIRECT) (i, NDIRECT) none x := by
  obtain ⟨j, l⟩ := x
  rw [Function.update_apply]
  by_cases hj : j = i
  · subst hj
    have hcur := cur_of_mem hm
    have hnew := cur_setMem_self s j (ip.setAddr NDIRECT 0)
    have h0 := setAddr_self ip NDIRECT 0
    have hnone : ∀ l, (s.setMem j (some (ip.setAddr NDIRECT 0))).slot j l = 0 →
        (s.setMem j (some (ip.setAddr NDIRECT 0))).refs (j, l) = none := fun l hl => if_pos (.inr hl)
    rcases Nat.lt_trichotomy l NDIRECT with hl | rfl | hl
    · rw [if_neg (by simp; omega), State.refsFrom, if_neg (by dsimp only; omega)]
      apply refs_congr
      · rw [hnew, hcur]
        rfl
      · rw [slot_of_le hl.le, slot_of_le hl.le, hnew, hcur]
        rw [setAddr_of_ne _ _ (by omega : l ≠ NDIRECT)]
    · rw [if_pos rfl, hnone]
      rw [slot_of_le (le_refl _), hnew, h0]
      rfl
    · have hslot : (s.setMem j (some (ip.setAddr NDIRECT 0))).slot j l = 0 := by
        unfold State.slot Blocks.slot
        rw [hnew, h0, if_neg (by omega), if_neg (by simp)]
      rw [hnone l hslot, if_neg (by simp; omega), State.refsFrom]
      by_cases hmax : l < NDIRECT + 1 + NINDIRECT
      · rw [if_pos ⟨rfl, hl, hmax⟩]
      · rw [if_neg (by dsimp only; omega)]
        refine (if_pos (.inr ?_)).symm
        unfold State.slot Blocks.slot
        dsimp only
        rw [if_neg (by omega), if_neg (by simp only [MAXFILE]; omega)]
  · rw [if_neg (by simp [hj]), State.refsFrom, if_neg (by simp [hj])]
    exact refs_setMem_of_ne s _ hj l

theorem Shrunk.indirect (h : Shrunk sb i ip NDIRECT s t) (ht : ip.type ≠ .free) :
    wp (safe sb E) (itruncIndirect i) t (fun _ u => Shrunk sb i ip (NDIRECT + 1) s u) := by
  obtain ⟨a, hm, ha⟩ := h.inode
  have hcur := cur_of_mem hm
  unfold itruncIndirect
  refine wp_inode hm (wp_cond (fun h0 => ?_) (fun h0 => ?_))
  · have hw : t.refs (i, NDIRECT) = some (a NDIRECT).toNat :=
      refs_eq_some.mpr ⟨by rwa [hcur], by rw [slot_of_le (le_refl _), hcur], toNat_ne_zero.mpr h0⟩
    have hstart : Emptied sb i 0 t t := ⟨by rw [refsFrom_zero]; exact h.sound.ledger, rfl, fun _ _ => rfl, rfl, rfl⟩
    refine wp_seq (wp_forRange (fun l v => Emptied sb i l t v) hstart (fun l hl v hv => hv.word h.sound hw hl) (fun v hv => ?_))
    have hx : t.refsFrom i NINDIRECT (i, NDIRECT) = some (a NDIRECT).toNat := by
      rw [State.refsFrom, if_neg (by dsimp only; omega), hw]
    refine wp_bfree (hv.ledger.bit_eq hx) ?_
    obtain ⟨hl, hr, hb⟩ := hv.unmark h.sound hx
    have hm' : (v.unmark sb (a NDIRECT).toNat).mem i = some { ip with addrs := a } := (congrFun hv.mem i).trans hm
    refine wp_last (wp_edit hm' ?_)
    have hmem : ∀ j ≠ i, v.mem j = s.mem j := fun j hj => (congrFun hv.mem j).trans (h.mem j hj)
    refine ⟨?_, fun j hj => (State.setMem_of_ne _ _ hj).trans (hmem j hj), hv.dinode.trans h.dinode, ⟨_, State.setMem_self _ _ _, ?_⟩⟩
    · apply Ledger.sound
      have hfrom : (v.unmark sb (a NDIRECT).toNat).refsFrom i NINDIRECT = t.refsFrom i NINDIRECT := by
        funext x
        unfold State.refsFrom
        rw [hr]
      have hrefs : ((v.unmark sb (a NDIRECT).toNat).setMem i (some (Inode.setAddr { ip with addrs := a } NDIRECT 0))).refs =
          Function.update (t.refsFrom i NINDIRECT) (i, NDIRECT) none := by
        funext x
        rw [refs_clearIndirect hm', hfrom]
      rw [hrefs]
      exact ⟨hl.marked, hl.exact⟩
    · intro l hl
      by_cases he : l = NDIRECT
      · subst he
        exact setAddr_self { ip with addrs := a } NDIRECT 0
      · exact (setAddr_of_ne _ _ he).trans (ha l (by omega))
  · refine ⟨h.sound, h.mem, h.dinode, a, hm, fun l hl => ?_⟩
    by_cases he : l = NDIRECT
    · subst he
      exact not_not.mp h0
    · exact ha l (by omega)

theorem refs_empty (h : ∀ l < NDIRECT + 1, (s.cur i).addrs l = 0) : s.refs (i, k) = none := by
  refine if_pos (.inr ?_)
  unfold State.slot slot
  dsimp only
  split_ifs with h1 h2
  · rw [h k (by omega)]
    rfl
  · exact absurd (h NDIRECT (by omega)) h2.2
  · rfl

theorem wp_itrunc {Q : Unit → State → Prop} (h : Sound sb s) (hm : s.mem i = some ip) (ht : ip.type ≠ .free)
    (hQ : ∀ t a, Shrunk sb i ip (NDIRECT + 1) s t → t.mem i = some { ip with addrs := a } → (∀ l < NDIRECT + 1, a l = 0) →
      Q () (t.store i { ip with size := 0, addrs := a })) : wp (safe sb E) (itrunc i) s Q := by
  have hstart : Shrunk sb i ip 0 s s := ⟨h, fun _ _ => rfl, rfl, ip.addrs, hm, fun l hl => absurd hl (Nat.not_lt_zero l)⟩
  unfold itrunc
  refine wp_seq (wp_forRange (fun l v => Shrunk sb i ip l s v) hstart (fun l hl v hv => hv.slot ht hl) (fun v hv => ?_))
  refine wp_seq (wp_mono (safe_mono sb E) _ (fun _ u hu => ?_) (hv.indirect ht))
  obtain ⟨a, hmu, ha⟩ := hu.inode
  refine wp_edit hmu ?_
  exact wp_last (wp_iupdate (State.setMem_self _ _ _) (hQ u a hu hmu ha))

end Itrunc

def State.Synced (s : State) : Prop := ∀ i ip, s.mem i = some ip → s.dinode i = ip ∧ ip.type ≠ .free

structure Orderly (sb : Superblock) (s : State) : Prop where
  sound : Sound sb s
  synced : s.Synced

def Whole (s : State) : Call → Prop
  | .readi i _ _ => s.Filled i
  | .writei i _ _ _ => s.Filled i
  | _ => True

def machine (sb : Superblock) : Machine State Call where
  initial := Orderly sb
  next s c := (run (exec sb) c.code s).toOption.map Prod.snd

theorem next_of_run {c : Call} {r : Unit} (h : run (exec sb) c.code s = .ok (r, t)) : (machine sb).next s c = some t := by
  unfold machine
  dsimp only
  rw [h]
  rfl

def Allowed (e : Stop) : Prop := e ≠ .panic "freeing free block"

theorem allowed_blocked : Allowed .blocked := by
  intro h
  cases h

theorem allowed_panic {msg : String} (h : msg ≠ "freeing free block") : Allowed (.panic msg) := fun e => h (Stop.panic.inj e)

section Calls

variable {off n : UInt32} {src : Mem}

theorem Orderly.congr (h : Orderly sb s) (hblock : t.block = s.block)
    (hcur : ∀ j, (t.cur j).type = (s.cur j).type ∧ (t.cur j).addrs = (s.cur j).addrs) (hs : t.Synced) : Orderly sb t :=
  ⟨h.sound.congr hblock (refs_of_cur hblock hcur), hs⟩

theorem Orderly.ialloc (h : Orderly sb s) (type : Ftype) :
    wp (safe sb Allowed) (Call.code (.ialloc type)) s (fun _ t => Orderly sb t) := by
  cases hf : s.freeInode sb with
  | none => exact wp_error (o := .ialloc type) (e := .panic "ialloc: no inodes") (by rw [exec, hf]) (by rintro ⟨⟩) (allowed_panic (by decide))
  | some i =>
    refine wp_op (o := .ialloc type) (r := i) (t := s.setDinode i { type := type }) (by rw [exec, hf]) (by rintro ⟨⟩) ?_
    have hfree : (s.dinode i).type = .free := by
      have hp := List.find?_some hf
      simp only [Bool.and_eq_true, decide_eq_true_eq] at hp
      exact hp.2
    have hnone : s.mem i = none := by
      cases hm : s.mem i with
      | none => rfl
      | some ip =>
        obtain ⟨hd, ht⟩ := h.synced i ip hm
        rw [hd] at hfree
        exact absurd hfree ht
    have hdin : ∀ j ≠ i, (s.setDinode i { type := type }).dinode j = s.dinode j := fun j hj => Function.update_of_ne hj ..
    change Orderly sb (s.setDinode i { type := type })
    refine ⟨h.sound.congr rfl ?_, fun j ip hm => ?_⟩
    · funext x
      obtain ⟨j, k⟩ := x
      by_cases hj : j = i
      · subst hj
        have hnew : (s.setDinode j { type := type }).cur j = { type := type } := by
          change (s.mem j).getD ((Function.update s.dinode j { type := type }) j) = _
          rw [hnone, Function.update_self]
          rfl
        rw [refs_empty (fun l _ => by rw [hnew])]
        refine (if_pos (.inl ?_)).symm
        rw [State.cur, hnone]
        exact hfree
      · have hcur : (s.setDinode i { type := type }).cur j = s.cur j := by
          unfold State.cur
          rw [hdin j hj]
          rfl
        apply refs_congr (by rw [hcur])
        unfold State.slot
        rw [hcur]
        rfl
    · have hji : j ≠ i := by
        rintro rfl
        change s.mem j = some ip at hm
        rw [hnone] at hm
        cases hm
      rw [hdin j hji]
      exact h.synced j ip hm

theorem Orderly.ilock (h : Orderly sb s) (i : ℕ) : wp (safe sb Allowed) (Call.code (.ilock i)) s (fun _ t => Orderly sb t) := by
  cases hm : s.mem i with
  | some ip => exact wp_last (wp_op (o := .load i) (r := ()) (t := s) (by simp only [exec, hm]) (by rintro ⟨⟩) h)
  | none =>
    by_cases hf : (s.dinode i).type = .free
    · exact wp_last (wp_error (o := .load i) (e := .panic "ilock: no type") (by simp only [exec, hm, hf, if_true]) (by rintro ⟨⟩) (allowed_panic (by decide)))
    · refine wp_last (wp_op (o := .load i) (r := ()) (t := s.setMem i (some (s.dinode i))) (by simp only [exec, hm, hf, if_false])
        (by rintro ⟨⟩) ?_)
      refine h.congr rfl (fun j => ?_) (fun j ip hj => ?_)
      · by_cases hji : j = i
        · subst hji
          rw [cur_setMem_self, State.cur, hm]
          exact ⟨rfl, rfl⟩
        · rw [cur_setMem_of_ne _ _ hji]
          exact ⟨rfl, rfl⟩
      · by_cases hji : j = i
        · subst hji
          rw [State.setMem_self] at hj
          cases hj
          exact ⟨rfl, hf⟩
        · rw [State.setMem_of_ne _ _ hji] at hj
          exact h.synced j ip hj

theorem Orderly.recycle (h : Orderly sb s) (i : ℕ) : wp (safe sb Allowed) (Call.code (.recycle i)) s (fun _ t => Orderly sb t) := by
  refine wp_last (wp_op (o := .invalidate i) (r := ()) (t := s.setMem i none) rfl (by rintro ⟨⟩) ?_)
  refine h.congr rfl (fun j => ?_) (fun j ip hj => ?_)
  · by_cases hji : j = i
    · subst hji
      have hcur : (s.setMem j none).cur j = s.dinode j := by
        rw [State.cur, State.setMem_self]
        rfl
      have hold : s.cur j = s.dinode j := by
        cases hm : s.mem j with
        | none => rw [State.cur, hm]; rfl
        | some ip => rw [cur_of_mem hm, (h.synced j ip hm).1]
      rw [hcur, hold]
      exact ⟨rfl, rfl⟩
    · rw [cur_setMem_of_ne _ _ hji]
      exact ⟨rfl, rfl⟩
  · by_cases hji : j = i
    · subst hji
      rw [State.setMem_self] at hj
      cases hj
    · rw [State.setMem_of_ne _ _ hji] at hj
      exact h.synced j ip hj

theorem Orderly.store (h : Orderly sb s) (hm : s.mem i = some ip) {ip' : Inode} (ht : ip'.type = ip.type) (ha : ip'.addrs = ip.addrs) :
    Orderly sb (s.store i ip') := by
  refine ⟨h.sound.congr rfl (store_refs hm ht ha), fun j ip₁ hj => ?_⟩
  by_cases hji : j = i
  · subst hji
    rw [store_mem] at hj
    cases hj
    refine ⟨store_dinode .., ?_⟩
    rw [ht]
    exact (h.synced j ip hm).2
  · rw [store_mem_of_ne _ _ hji] at hj
    rw [store_dinode_of_ne _ _ hji]
    exact h.synced j ip₁ hj

theorem Orderly.update (h : Orderly sb s) (i : ℕ) (major : ℤ) (nlink : ℕ) :
    wp (safe sb Allowed) (Call.code (.update i major nlink)) s (fun _ t => Orderly sb t) := by
  cases hm : s.mem i with
  | none =>
    exact wp_error (o := .edit i (fun ip => { ip with major := major, nlink := nlink })) (e := .blocked)
      (by simp only [exec, hm]) (by rintro ⟨⟩) allowed_blocked
  | some ip =>
    change wp (safe sb Allowed) (Blocks.update i major nlink) s _
    unfold Blocks.update
    refine wp_edit hm ?_
    exact wp_last (wp_iupdate (State.setMem_self _ _ _) (h.store hm rfl rfl))

theorem Orderly.of_saved (h : Orderly sb s) (hm : s.mem i = some ip) (hfull : s.Filled i)
    (hu : Saved sb i off.toNat n.toNat src ip s u) : Orderly sb u := by
  obtain ⟨hd, ht⟩ := h.synced i ip hm
  refine ⟨hu.sound h.sound, fun j ip₁ hj => ?_⟩
  by_cases hji : j = i
  · subst hji
    have hsync := hu.synced hfull (.inl hd)
    obtain ⟨a, z, hmu, -⟩ := hu.inode
    have hsame : u.dinode j = ip₁ := Option.some.inj (hsync.symm.trans hj)
    rw [hmu] at hj
    cases hj
    exact ⟨hsame, ht⟩
  · rw [hu.mem j hji] at hj
    rw [hu.dinode j hji]
    exact h.synced j ip₁ hj

theorem Orderly.writei (h : Orderly sb s) (hfull : s.Filled i) :
    wp (safe sb Allowed) (Call.code (.writei i src off n)) s (fun _ t => Orderly sb t) := by
  change wp (safe sb Allowed) (Blocks.writei i src off n >>= fun _ => pure ()) s _
  cases hm : s.mem i with
  | none => exact wp_seq (wp_error (o := .inode i) (e := .blocked) (by simp only [exec, hm]) (by rintro ⟨⟩) allowed_blocked)
  | some ip =>
    obtain ⟨-, ht⟩ := h.synced i ip hm
    by_cases hd : ip.type = .dev
    · unfold Blocks.writei
      refine wp_seq (wp_inode hm ?_)
      rw [if_pos hd]
      refine wp_op (o := .devsw ip.major) (r := s.devsw ip.major) (t := s) rfl (by rintro ⟨⟩) ?_
      refine wp_cond (fun _ => h) (fun _ => ?_)
      cases (s.devsw ip.major).write <;> exact h
    · refine wp_seq (wp_writei h.sound.guarded hm ht hd (fun _ => h) (fun _ _ => allowed_panic (by decide)) (fun _ u hu => ?_))
      exact h.of_saved hm hfull hu

theorem Orderly.readi (h : Orderly sb s) (hfull : s.Filled i) :
    wp (safe sb Allowed) (Call.code (.readi i off n)) s (fun _ t => Orderly sb t) := by
  change wp (safe sb Allowed) (Blocks.readi i off n >>= fun _ => pure ()) s _
  cases hm : s.mem i with
  | none => exact wp_seq (wp_error (o := .inode i) (e := .blocked) (by simp only [exec, hm]) (by rintro ⟨⟩) allowed_blocked)
  | some ip =>
    obtain ⟨-, ht⟩ := h.synced i ip hm
    by_cases hd : ip.type = .dev
    · unfold Blocks.readi
      refine wp_seq (wp_inode hm ?_)
      rw [if_pos hd]
      refine wp_op (o := .devsw ip.major) (r := s.devsw ip.major) (t := s) rfl (by rintro ⟨⟩) ?_
      refine wp_cond (fun _ => h) (fun _ => ?_)
      cases (s.devsw ip.major).read <;> exact h
    · exact wp_seq (wp_readi h.sound.guarded hm ht hd hfull (fun _ => h) (fun _ _ _ _ => h))

theorem Orderly.of_shrunk {a : ℕ → UInt32} (h : Orderly sb s) (ht : Shrunk sb i ip (NDIRECT + 1) s t)
    (hm : t.mem i = some { ip with addrs := a }) (ha : ∀ l < NDIRECT + 1, a l = 0) {ip' : Inode} (hfree : ip'.type = .free) :
    Orderly sb (((t.store i { ip with size := 0, addrs := a }).store i ip').setMem i none) := by
  have hdin : (((t.store i { ip with size := 0, addrs := a }).store i ip').setMem i none).dinode i = ip' := store_dinode ..
  have hmem : ∀ j ≠ i, (((t.store i { ip with size := 0, addrs := a }).store i ip').setMem i none).mem j = s.mem j := by
    intro j hj
    rw [State.setMem_of_ne _ _ hj, store_mem_of_ne _ _ hj, store_mem_of_ne _ _ hj, ht.mem j hj]
  have hdinj : ∀ j ≠ i, (((t.store i { ip with size := 0, addrs := a }).store i ip').setMem i none).dinode j = s.dinode j := by
    intro j hj
    exact (store_dinode_of_ne _ _ hj).trans ((store_dinode_of_ne _ _ hj).trans (congrFun ht.dinode j))
  refine ⟨ht.sound.congr rfl ?_, fun j ip₁ hj => ?_⟩
  · funext x
    obtain ⟨j, k⟩ := x
    by_cases hj : j = i
    · subst hj
      rw [refs_empty (s := t) (fun l hl => by rw [cur_of_mem hm]; exact ha l hl)]
      refine if_pos (.inl ?_)
      rw [State.cur, State.setMem_self, Option.getD_none, hdin, hfree]
    · have hcur : (((t.store i { ip with size := 0, addrs := a }).store i ip').setMem i none).cur j = t.cur j := by
        rw [cur_setMem_of_ne _ _ hj, store_cur_of_ne _ _ hj, store_cur_of_ne _ _ hj]
      apply refs_congr (by rw [hcur])
      unfold State.slot
      rw [hcur]
      rfl
  · by_cases hji : j = i
    · subst hji
      rw [State.setMem_self] at hj
      cases hj
    · rw [hmem j hji] at hj
      rw [hdinj j hji]
      exact h.synced j ip₁ hj

theorem Orderly.iput (h : Orderly sb s) (i : ℕ) (last : Bool) :
    wp (safe sb Allowed) (Call.code (.iput i last)) s (fun _ t => Orderly sb t) := by
  change wp (safe sb Allowed) (Blocks.iput i last) s _
  unfold Blocks.iput
  refine wp_op (o := .valid i) (r := (s.mem i).isSome) (t := s) rfl (by rintro ⟨⟩) ?_
  cases hm : s.mem i with
  | none => exact h
  | some ip =>
    obtain ⟨-, ht⟩ := h.synced i ip hm
    refine wp_inode hm (wp_cond (fun _ => ?_) (fun _ => h))
    refine wp_seq (wp_itrunc h.sound hm ht (fun t a hs hmt ha => ?_))
    refine wp_edit (store_mem ..) ?_
    refine wp_iupdate (State.setMem_self _ _ _) ?_
    refine wp_last (wp_op (o := .invalidate i) (r := ()) rfl (by rintro ⟨⟩) ?_)
    exact h.of_shrunk hs hmt ha rfl

end Calls

theorem Orderly.call (h : Orderly sb s) (c : Call) (hc : Whole s c) : wp (safe sb Allowed) c.code s (fun _ t => Orderly sb t) := by
  cases c with
  | ialloc type => exact h.ialloc type
  | ilock i => exact h.ilock i
  | update i major nlink => exact h.update i major nlink
  | readi i off n => exact h.readi hc
  | writei i src off n => exact h.writei hc
  | iput i last => exact h.iput i last
  | recycle i => exact h.recycle i

theorem Orderly.next (h : Orderly sb s) {c : Call} (hc : Whole s c) (hn : (machine sb).next s c = some t) : Orderly sb t := by
  have hrun := (wp_execSpec (exec sb) Allowed c.code s _).mp (wp_weaken (safe_mono sb _) (fun _ _ _ => And.left) _ (h.call c hc))
  obtain ⟨⟨r, t'⟩, hr, rfl⟩ := Option.map_eq_some_iff.mp hn
  cases hx : run (exec sb) c.code s with
  | error e =>
    rw [hx] at hr
    cases hr
  | ok x =>
    rw [hx] at hrun hr
    cases hr
    exact hrun

theorem blocks_never_shared (sb : Superblock) (s : State) (h : (machine sb).ReachableWhere Whole s) :
    Sound sb s ∧ ∀ c, Whole s c → wp (safe sb (fun e => e ≠ .panic "freeing free block")) c.code s (fun _ t => Sound sb t) := by
  have ho : Orderly sb s := h.invariant (fun _ => id) (fun _ _ _ _ hp hc hn => hp.next hc hn)
  exact ⟨ho.sound, fun c hc => wp_mono (safe_mono sb _) _ (fun _ _ ht => ht.sound) (ho.call c hc)⟩

theorem refs_none_of_empty (h : ∀ j l, (s.cur j).addrs l = 0) (x : ℕ × ℕ) : s.refs x = none := refs_empty (fun l _ => h x.1 l)

def holed : Inode := { type := .file, nlink := 1, size := 512 }

theorem holed_empty (j l : ℕ) : ((single 3 holed).cur j).addrs l = 0 := by
  by_cases hj : j = 1 <;> simp [State.cur, single, holed, hj]

theorem single_synced {bits : UInt8} (ht : ip.type ≠ .free) : (single bits ip).Synced := by
  intro j ip' hm
  by_cases hj : j = 1
  · subst hj
    cases hm
    exact ⟨rfl, ht⟩
  · simp [single, hj] at hm

theorem holed_sound : Sound small (single 3 holed) := by
  have hnone := refs_none_of_empty holed_empty
  refine ⟨fun b hb => ?_, fun x y b hx => ?_, fun x b hx => ?_⟩
  · simp only [hnone, reduceCtorEq, exists_false, or_false]
    change b < 10 at hb
    interval_cases b <;> decide
  · rw [hnone] at hx
    cases hx
  · rw [hnone] at hx
    cases hx

theorem hole_leaks_block : ∃ s, (machine small).Reachable s ∧ ¬ Sound small s := by
  have hsound := holed_sound
  have hm : (single 3 holed).mem 1 = some holed := rfl
  have hnot : ¬ Refused holed 0 1 := by
    unfold Refused
    decide
  have hwrite : wp (safe small (fun _ => False)) (Call.code (.writei 1 (fun _ => 7) 0 1)) (single 3 holed)
      (fun _ u => Saved small 1 0 1 (fun _ => 7) holed (single 3 holed) u) :=
    wp_seq (wp_writei hsound.guarded hm (by decide) (by decide) (fun h => absurd h hnot) (fun _ h => absurd h (by decide +kernel))
      (fun _ u hu => hu))
  obtain ⟨r, u, hrun, hu⟩ := run_of_safe hwrite
  have hdin : u.dinode = (single 3 holed).dinode := hu.kept (by decide)
  have hnext : (machine small).next (single 3 holed) (.writei 1 (fun _ => 7) 0 1) = some u := next_of_run hrun
  have hreach : (machine small).Reachable (u.setMem 1 none) :=
    Machine.Reachable.next (l := .recycle 1) (Machine.Reachable.next (.initial ⟨hsound, single_synced (by decide)⟩) hnext) rfl
  refine ⟨u.setMem 1 none, hreach, fun h => ?_⟩
  -- block 0 of the file is there in `u`, and its bit is set
  have hsome := (hu.has 0).mpr (.inr (mem_blocks.mpr ⟨0, le_refl _, by decide, rfl⟩))
  rw [State.file, Option.isSome_map] at hsome
  obtain ⟨b, hb⟩ := Option.isSome_iff_exists.mp hsome
  have hbit : (u.setMem 1 none).bit small b = true := hu.guarded.owned.used hb
  obtain ⟨hle, hlt⟩ := hu.guarded.owned.mem hb
  have hempty : ∀ j l, ((u.setMem 1 none).cur j).addrs l = 0 := by
    intro j l
    have hmem : (u.setMem 1 none).mem j = none := by
      by_cases hj : j = 1
      · subst hj
        exact State.setMem_self ..
      · rw [State.setMem_of_ne _ _ hj, hu.mem j hj]
        simp [single, hj]
    have hcur : (u.setMem 1 none).cur j = (single 3 holed).dinode j := by
      rw [State.cur, hmem]
      exact congrFun hdin j
    rw [hcur]
    by_cases hj : j = 1 <;> simp [single, holed, hj]
  rcases (h.bitmap b hlt).mp hbit with hm | ⟨x, hx⟩
  · omega
  · rw [refs_none_of_empty hempty] at hx
    cases hx

theorem threeBytes_sound : Sound small (single 7 threeBytes) := by
  refine ⟨fun b hb => ?_, fun x y b hx hy => ?_, fun x b hx => ?_⟩
  · change b < 10 at hb
    have hiff : (∃ x, (single 7 threeBytes).refs x = some b) ↔ b = 2 :=
      ⟨fun ⟨x, hx⟩ => (threeBytes_refs hx).2, fun e => ⟨(1, 0), by subst e; rfl⟩⟩
    rw [hiff]
    interval_cases b <;> decide
  · rw [(threeBytes_refs hx).1, (threeBytes_refs hy).1]
  · rw [(threeBytes_refs hx).2]
    exact ⟨by decide, by decide⟩

theorem blocks_never_shared_three : ∃ s, (machine small).next (single 7 threeBytes) (.writei 1 (fun _ => 7) 2 3) = some s ∧ Sound small s := by
  have hfull : (single 7 threeBytes).Filled 1 := threeBytes_holeFree.filled
  obtain ⟨s, hs⟩ := Option.isSome_iff_exists.mp
    (by decide +kernel : ((machine small).next (single 7 threeBytes) (.writei 1 (fun _ => 7) 2 3)).isSome)
  exact ⟨s, hs, (blocks_never_shared small s (.step (l := .writei 1 (fun _ => 7) 2 3) (.initial ⟨threeBytes_sound, single_synced (by decide)⟩) hfull hs)).1⟩

end EnhancedXv6.Blocks
