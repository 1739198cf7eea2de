import EnhancedXv6.Fs
import EnhancedXv6.SlotMap
import EnhancedXv6.Strings

namespace EnhancedXv6.Names

open Bytes Fs

abbrev DIRSIZ : ℕ := 14

def strncmp (d e : Mem) : ℕ → ℕ → ℕ → ℤ
  | 0, _, _ => 0
  | n + 1, p, q => if d p ≠ 0 ∧ d p = e q then strncmp d e n (p + 1) (q + 1) else (d p).toNat - (e q).toNat

def namecmp (s d : Mem) (q : ℕ) : ℤ := strncmp s d DIRSIZ 0 q

structure Node where
  type : Ftype
  size : ℕ
  data : Mem

def Node.inum (dp : Node) (off : ℕ) : ℕ := (dp.data off).toNat + 256 * (dp.data (off + 1)).toNat

def Node.search (dp : Node) (name : Mem) : ℕ → ℕ → Except Stop (Option (ℕ × ℕ))
  | 0, _ => .error .blocked
  | n + 1, off =>
    if dp.size ≤ off then .ok none
    -- `readi` has returned less than an entry
    else if dp.size < off + 16 then .error (.panic "dirlookup read")
    else if dp.inum off = 0 then dp.search name n (off + 16)
    else if namecmp name dp.data (off + 2) = 0 then .ok (some (dp.inum off, off))
    else dp.search name n (off + 16)

def Node.dirlookup (dp : Node) (name : Mem) : Except Stop (Option (ℕ × ℕ)) :=
  if dp.type ≠ .dir then .error (.panic "dirlookup not DIR") else dp.search name (dp.size / 16 + 1) 0

def key (d : Mem) (p : ℕ) : List UInt8 := cString d DIRSIZ p

def Node.slot (dp : Node) (j : ℕ) : Option (List UInt8 × ℕ) :=
  if dp.inum (16 * j) = 0 then none else some (key dp.data (16 * j + 2), dp.inum (16 * j))

def Node.slots (dp : Node) : SlotMap.Table (List UInt8) ℕ := (List.range' 0 (dp.size / 16)).map dp.slot

def Node.lookup (dp : Node) (k : List UInt8) : Except Stop (Option (ℕ × ℕ)) := match SlotMap.find dp.slots k with
  | some (i, j) => .ok (some (i, 16 * j))
  | none => if dp.size % 16 = 0 then .ok none else .error (.panic "dirlookup read")

theorem strncmp_eq_zero (d e : Mem) (n p q : ℕ) : strncmp d e n p q = 0 ↔ cString d n p = cString e n q := by
  induction n generalizing p q with
  | zero => exact ⟨fun _ => rfl, fun _ => rfl⟩
  | succ n ih =>
    rw [strncmp, cString, cString]
    by_cases h0 : d p = 0
    · rw [if_neg (fun h => h.1 h0), if_pos h0, h0]
      by_cases hq : e q = 0
      · rw [if_pos hq, hq]
        exact ⟨fun _ => rfl, fun _ => rfl⟩
      · rw [if_neg hq]
        constructor
        · intro h
          have hz : (e q).toNat = (0 : UInt8).toNat := by omega
          exact absurd (UInt8.toNat_inj.mp hz) hq
        · intro h
          cases h
    · rw [if_neg h0]
      by_cases hpq : d p = e q
      · have hq : e q ≠ 0 := by rwa [← hpq]
        rw [if_pos ⟨h0, hpq⟩, if_neg hq, ih, hpq, List.cons.injEq]
        exact ⟨fun h => ⟨rfl, h⟩, fun h => h.2⟩
      · rw [if_neg (fun h => hpq h.2)]
        constructor
        · intro h
          have he : (d p).toNat = (e q).toNat := by omega
          exact absurd (UInt8.toNat_inj.mp he) hpq
        · intro h
          split_ifs at h
          exact absurd (List.cons.inj h).1 hpq

theorem namecmp_eq_zero (s d : Mem) (q : ℕ) : namecmp s d q = 0 ↔ key s 0 = key d q := strncmp_eq_zero s d DIRSIZ 0 q

namespace Node

variable (dp : Node)

theorem search_eq (name : Mem) (i n : ℕ) (h : i + n = dp.size / 16) : dp.search name (n + 1) (16 * i) =
    match SlotMap.findFrom (key name 0) i ((List.range' i n).map dp.slot) with
    | some (v, j) => .ok (some (v, 16 * j))
    | none => if dp.size % 16 = 0 then .ok none else .error (.panic "dirlookup read") := by
  induction n generalizing i with
  | zero =>
    rw [search]
    by_cases hz : dp.size % 16 = 0
    · rw [if_pos (by omega)]
      exact (if_pos hz).symm
    · rw [if_neg (by omega), if_pos (by omega)]
      exact (if_neg hz).symm
  | succ n ih =>
    have hnext := ih (i + 1) (by omega)
    rw [Nat.mul_succ] at hnext
    rw [search, if_neg (by omega), if_neg (by omega), hnext, List.range'_succ, List.map_cons, slot]
    by_cases hz : dp.inum (16 * i) = 0
    · rw [if_pos hz, if_pos hz]
      rfl
    · rw [if_neg hz, if_neg hz, SlotMap.findFrom]
      by_cases hk : namecmp name dp.data (16 * i + 2) = 0
      · rw [if_pos hk, if_pos ((namecmp_eq_zero _ _ _).mp hk)]
      · rw [if_neg hk, if_neg (fun he => hk ((namecmp_eq_zero _ _ _).mpr he))]

theorem dirlookup_eq (hdir : dp.type = .dir) (name : Mem) : dp.dirlookup name = dp.lookup (key name 0) := by
  rw [dirlookup, if_neg (not_not.mpr hdir)]
  exact dp.search_eq name 0 (dp.size / 16) (Nat.zero_add _)

end Node

end EnhancedXv6.Names
