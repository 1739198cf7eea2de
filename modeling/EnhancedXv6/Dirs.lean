import EnhancedXv6.Names

namespace EnhancedXv6.Names

open Bytes Fs

abbrev MAXSIZE : ℕ := 71680

def strncpy (t : Mem) : ℕ → ℕ → List UInt8
  | 0, _ => []
  | n + 1, p => t p :: if t p = 0 then List.replicate n 0 else strncpy t n (p + 1)

def dot : Mem := fun k => if k = 0 then 46 else 0

def dotdot : Mem := fun k => if k < 2 then 46 else 0

def dirent (name : Mem) (inum : ℕ) : Mem := fun k =>
  if k = 0 then UInt8.ofNat inum else if k = 1 then UInt8.ofNat (inum / 256) else (strncpy name DIRSIZ 0).getD (k - 2) 0

namespace Node

def writei (dp : Node) (off n : ℕ) (src : Mem) : Option Node :=
  if dp.size < off ∨ MAXSIZE < off + n then none else some { dp with data := splice dp.data off n src, size := max dp.size (off + n) }

def freeEntry (dp : Node) : ℕ → ℕ → Except Stop ℕ
  | 0, _ => .error .blocked
  | n + 1, off =>
    if dp.size ≤ off then .ok off
    else if dp.size < off + 16 then .error (.panic "dirlink read")
    else if dp.inum off = 0 then .ok off
    else dp.freeEntry n (off + 16)

def dirlink (self : ℕ) (dp : Node) (name : Mem) (inum : ℕ) : Except Stop (ℤ × Node) := match dp.dirlookup name with
  | .error e => .error e
  | .ok (some (i, _)) => if i = self then .error .blocked else .ok (-1, dp)
  | .ok none => match dp.freeEntry (dp.size / 16 + 1) 0 with
    | .error e => .error e
    | .ok off => match dp.writei off 16 (dirent name inum) with
      | none => .error (.panic "dirlink")
      | some dp => .ok (0, dp)

def unlink (self : ℕ) (dp : Node) (name : Mem) (busy : Bool) : Except Stop (ℤ × Node) :=
  if namecmp name dot 0 = 0 ∨ namecmp name dotdot 0 = 0 then .ok (-1, dp)
  else match dp.dirlookup name with
    | .error e => .error e
    | .ok none => .ok (-1, dp)
    | .ok (some (i, off)) =>
      -- `ilock(ip)`
      if i = self then .error .blocked
      else if busy then .ok (-1, dp)
      else match dp.writei off 16 (fun _ => 0) with
        | none => .error (.panic "unlink: writei")
        | some dp => .ok (0, dp)

structure Dir (dp : Node) : Prop where
  type : dp.type = .dir
  whole : dp.size % 16 = 0
  size_le : dp.size ≤ MAXSIZE
  distinct : SlotMap.Distinct dp.slots

def find (dp : Node) (k : List UInt8) : Option (ℕ × ℕ) := (SlotMap.find dp.slots k).map (fun e => (e.1, 16 * e.2))

section Slots

variable {dp dq : Node} {i j : ℕ}

theorem slot_congr (h : ∀ k < 16, dq.data (16 * j + k) = dp.data (16 * i + k)) : dq.slot j = dp.slot i := by
  have hinum : dq.inum (16 * j) = dp.inum (16 * i) := by
    rw [inum, inum, h 1 (by decide), show dq.data (16 * j) = dp.data (16 * i) from h 0 (by decide)]
  have hkey : key dq.data (16 * j + 2) = key dp.data (16 * i + 2) := by
    apply cString_congr
    intro k hk
    change k < 14 at hk
    rw [Nat.add_assoc, Nat.add_assoc]
    exact h (2 + k) (by omega)
  rw [slot, slot, hinum, hkey]

theorem length_slots (dp : Node) : dp.slots.length = dp.size / 16 := by
  rw [slots, List.length_map, List.length_range']

theorem getElem?_slots (dp : Node) (i : ℕ) : dp.slots[i]? = if i < dp.size / 16 then some (dp.slot i) else none := by
  by_cases hi : i < dp.size / 16
  · rw [if_pos hi, slots, List.getElem?_map, List.getElem?_range' hi, Nat.zero_add, Nat.one_mul]
    rfl
  · rw [if_neg hi]
    exact List.getElem?_eq_none (by rw [length_slots]; omega)

theorem writei_slots (hw : dp.size % 16 = 0) (hj : j ≤ dp.size / 16) (hmax : 16 * j + 16 ≤ MAXSIZE) (src : Mem) :
    ∃ dq, dp.writei (16 * j) 16 src = some dq ∧ dq.type = dp.type ∧ dq.size = max dp.size (16 * j + 16) ∧
      dq.slots = SlotMap.put dp.slots j ((⟨.dir, 16, src⟩ : Node).slot 0) := by
  refine ⟨{ dp with data := splice dp.data (16 * j) 16 src, size := max dp.size (16 * j + 16) }, if_neg (by omega), rfl, rfl, ?_⟩
  apply List.ext_getElem?
  intro i
  have hsize : max dp.size (16 * j + 16) / 16 = max (dp.size / 16) (j + 1) := by omega
  rw [SlotMap.getElem?_put (by rwa [length_slots]), getElem?_slots, getElem?_slots, hsize]
  split_ifs with h1 h2 h3 h3
  · subst h2
    congr 1
    apply slot_congr
    intro k hk
    change splice dp.data (16 * i) 16 src (16 * i + k) = src (16 * 0 + k)
    rw [splice, if_pos (by omega)]
    congr 1
    omega
  · congr 1
    apply slot_congr
    intro k hk
    exact if_neg (by omega)
  · omega
  · omega
  · omega
  · rfl

theorem freeEntry_eq (hw : dp.size % 16 = 0) (n : ℕ) (h : i + n = dp.size / 16) :
    dp.freeEntry (n + 1) (16 * i) = .ok (16 * (i + ((List.range' i n).map dp.slot).findIdx Option.isNone)) := by
  induction n generalizing i with
  | zero =>
    rw [freeEntry, if_pos (by omega)]
    rfl
  | succ n ih =>
    have hnext := ih (i := i + 1) (by omega)
    rw [Nat.mul_succ] at hnext
    rw [freeEntry, if_neg (by omega), if_neg (by omega), hnext, List.range'_succ, List.map_cons, List.findIdx_cons, slot]
    by_cases hz : dp.inum (16 * i) = 0
    · rw [if_pos hz, if_pos hz]
      rfl
    · rw [if_neg hz, if_neg hz]
      change Except.ok (16 * (i + 1 + _)) = Except.ok (16 * (i + (_ + 1)))
      congr 2
      omega

theorem freeEntry_slots (hw : dp.size % 16 = 0) : dp.freeEntry (dp.size / 16 + 1) 0 = .ok (16 * SlotMap.firstFree dp.slots) := by
  have h := freeEntry_eq hw (i := 0) (dp.size / 16) (Nat.zero_add _)
  rwa [Nat.zero_add] at h

end Slots

section Entries

theorem cString_strncpy (t : Mem) (n p : ℕ) : cString (fun k => (strncpy t n p).getD k 0) n 0 = cString t n p := by
  induction n generalizing p with
  | zero => rfl
  | succ n ih =>
    rw [cString, cString, strncpy]
    by_cases h0 : t p = 0
    · rw [if_pos h0, if_pos h0]
      exact if_pos h0
    · rw [if_neg h0, if_neg h0, ← ih]
      have htail : cString (fun k => (t p :: strncpy t n (p + 1)).getD k 0) n (0 + 1) = cString (fun k => (strncpy t n (p + 1)).getD k 0) n 0 := by
        apply cString_congr
        intro k _
        rw [Nat.zero_add, Nat.zero_add, Nat.add_comm 1 k]
        rfl
      rw [htail]
      exact if_neg h0

theorem slot_dirent (name : Mem) {inum : ℕ} (h : 1 ≤ inum) (h' : inum ≤ 65535) :
    (⟨.dir, 16, dirent name inum⟩ : Node).slot 0 = some (key name 0, inum) := by
  have hinum : (⟨.dir, 16, dirent name inum⟩ : Node).inum (16 * 0) = inum := by
    change (UInt8.ofNat inum).toNat + 256 * (UInt8.ofNat (inum / 256)).toNat = inum
    rw [UInt8.toNat_ofNat', UInt8.toNat_ofNat']
    omega
  have hkey : key (dirent name inum) 2 = key name 0 := by
    unfold key
    rw [← cString_strncpy name]
    apply cString_congr
    intro k hk
    unfold dirent
    rw [if_neg (by omega), if_neg (by omega), Nat.zero_add]
    congr 1
    omega
  rw [slot, hinum, if_neg (by omega)]
  exact congrArg (fun k => some (k, inum)) hkey

theorem slot_zero : (⟨.dir, 16, fun _ => 0⟩ : Node).slot 0 = none := rfl

end Entries

section Map

variable {dp : Node} {self : ℕ}

theorem Dir.dirlookup_eq_find (h : dp.Dir) (name : Mem) : dp.dirlookup name = .ok (dp.find (key name 0)) := by
  rw [dp.dirlookup_eq h.type, lookup, find]
  cases SlotMap.find dp.slots (key name 0) with
  | none => exact if_pos h.whole
  | some e => rfl

theorem Dir.dirlink_bound (h : dp.Dir) {name : Mem} {i off : ℕ} (hf : dp.find (key name 0) = some (i, off)) (hi : i ≠ self) (inum : ℕ) :
    dp.dirlink self name inum = .ok (-1, dp) := by
  rw [dirlink, h.dirlookup_eq_find, hf]
  exact if_neg hi

structure Linked (dp dq : Node) (k : List UInt8) (inum : ℕ) : Prop where
  dir : dq.Dir
  find : ∃ off, dq.find k = some (inum, off) ∧
    -- an entry that is not in use is taken if there is one
    ((∃ j < dp.size / 16, dp.slot j = none) → off < dp.size ∧ dq.size = dp.size) ∧
    ((∀ j < dp.size / 16, dp.slot j ≠ none) → off = dp.size ∧ dq.size = dp.size + 16)
  other : ∀ l, l ≠ k → dq.find l = dp.find l

structure Unlinked (dp dq : Node) (k : List UInt8) : Prop where
  dir : dq.Dir
  size : dq.size = dp.size
  find : dq.find k = none
  other : ∀ l, l ≠ k → dq.find l = dp.find l

theorem find_eq_none {k : List UInt8} : dp.find k = none ↔ SlotMap.find dp.slots k = none := Option.map_eq_none_iff

theorem Dir.dirlink_free (h : dp.Dir) (self : ℕ) {name : Mem} {inum : ℕ} (hf : dp.find (key name 0) = none) (hi : 1 ≤ inum) (hi' : inum ≤ 65535)
    (hmax : dp.size < MAXSIZE) : ∃ dq, dp.dirlink self name inum = .ok (0, dq) ∧ Linked dp dq (key name 0) inum := by
  have hw := h.whole
  have hle := SlotMap.firstFree_le dp.slots
  have hlen := length_slots dp
  rw [hlen] at hle
  change dp.size < 71680 at hmax
  obtain ⟨dq, hdq, htype, hsize, hslots⟩ := writei_slots hw hle (by change _ ≤ 71680; omega) (dirent name inum)
  rw [slot_dirent name hi hi'] at hslots
  have hnone := find_eq_none.mp hf
  have hfree : SlotMap.firstFree dp.slots = dp.slots.length ∨ dp.slots[SlotMap.firstFree dp.slots]? = some none := by
    by_cases hlt : SlotMap.firstFree dp.slots < dp.slots.length
    · exact .inr (SlotMap.firstFree_lt hlt)
    · left
      omega
  refine ⟨dq, ?_, ?_, ⟨16 * SlotMap.firstFree dp.slots, ?_, ?_, ?_⟩, ?_⟩
  · rw [dirlink, h.dirlookup_eq_find, hf]
    dsimp only
    rw [freeEntry_slots hw]
    dsimp only
    rw [hdq]
  · refine ⟨htype.trans h.type, by omega, by change _ ≤ 71680; omega, ?_⟩
    rw [hslots]
    exact h.distinct.insert hnone (by omega)
  · rw [find, hslots, h.distinct.find_insert hnone hfree, if_pos rfl]
    rfl
  · rintro ⟨j, hj, hnone⟩
    have hlt : SlotMap.firstFree dp.slots < dp.slots.length := by
      apply List.findIdx_lt_length_of_exists
      refine ⟨none, List.mem_of_getElem? (i := j) ?_, rfl⟩
      rw [getElem?_slots, if_pos hj, hnone]
    omega
  · intro hfull
    have heq : SlotMap.firstFree dp.slots = dp.slots.length := by
      refine hfree.resolve_right (fun hnone => ?_)
      rw [getElem?_slots] at hnone
      split_ifs at hnone with hlt
      exact hfull _ hlt (Option.some.inj hnone)
    omega
  · intro l hl
    rw [find, find, hslots, h.distinct.find_insert hnone hfree, if_neg hl]

theorem Dir.unlink_bound (h : dp.Dir) {name : Mem} {i off : ℕ} (hf : dp.find (key name 0) = some (i, off)) (hi : i ≠ self)
    (hdot : key name 0 ≠ key dot 0) (hdotdot : key name 0 ≠ key dotdot 0) :
    ∃ dq, dp.unlink self name false = .ok (0, dq) ∧ Unlinked dp dq (key name 0) := by
  have hw := h.whole
  have hmax := h.size_le
  obtain ⟨⟨i', j⟩, hslot, he⟩ := Option.map_eq_some_iff.mp hf
  cases he
  have hget := h.distinct.find_eq_some.mp hslot
  have hlt : j < dp.size / 16 := by
    rw [← length_slots]
    exact (List.getElem?_eq_some_iff.mp hget).1
  obtain ⟨dq, hdq, htype, hsize, hslots⟩ := writei_slots hw hlt.le (by omega) (fun _ => 0)
  rw [slot_zero] at hslots
  have hfind (l : List UInt8) : dq.find l = if l = key name 0 then none else dp.find l := by
    rw [find, hslots, h.distinct.find_erase hget]
    split_ifs
    · rfl
    · rfl
  refine ⟨dq, ?_, ⟨htype.trans h.type, by omega, by omega, ?_⟩, by omega, ?_, ?_⟩
  · have hnot : ¬ (namecmp name dot 0 = 0 ∨ namecmp name dotdot 0 = 0) := by
      rw [namecmp_eq_zero, namecmp_eq_zero]
      exact fun hc => hc.elim hdot hdotdot
    rw [unlink, if_neg hnot, h.dirlookup_eq_find, hf]
    dsimp only
    rw [if_neg hi, if_neg Bool.false_ne_true, hdq]
  · rw [hslots]
    exact h.distinct.erase (by rw [length_slots]; omega)
  · rw [hfind, if_pos rfl]
  · intro l hl
    rw [hfind, if_neg hl]

end Map

end Node

end EnhancedXv6.Names
