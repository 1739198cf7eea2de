import EnhancedXv6.Patterns
import EnhancedXv6.Strings

namespace EnhancedXv6.Grep

open Patterns Segments Bytes

section Matcher

def accepts (c x : UInt8) : Bool := c = 46 || c = x

def matchstar (matchhere : List UInt8 → Bool) (c : UInt8) : List UInt8 → Bool
  | [] => matchhere []
  | x :: text => matchhere (x :: text) || (accepts c x && matchstar matchhere c text)

def matchhere : List UInt8 → List UInt8 → Bool
  | [], _ => true
  | [c], text =>
    if c = 36 then text.isEmpty
    else match text with
      | [] => false
      | x :: text => accepts c x && matchhere [] text
  | c :: d :: re, text =>
    if d = 42 then matchstar (matchhere re) c text
    else match text with
      | [] => false
      | x :: text => accepts c x && matchhere (d :: re) text

def search (re : List UInt8) : List UInt8 → Bool
  | [] => matchhere re []
  | x :: text => matchhere re (x :: text) || search re text

def matchText (re text : List UInt8) : Bool := match re with
  | 94 :: re => matchhere re text
  | re => search re text

def Letter (c x : UInt8) : Prop := x = c ∨ c = 46

def items : List UInt8 → List (Piece UInt8) × Bool
  | [] => ([], false)
  | [c] => if c = 36 then ([], true) else ([.one (Letter c)], false)
  | c :: d :: re =>
    if d = 42 then (.star (Letter c) :: (items re).1, (items re).2)
    else (.one (Letter c) :: (items (d :: re)).1, (items (d :: re)).2)

def readPattern (re : List UInt8) : Pattern UInt8 := match re with
  | 94 :: re => ⟨true, (items re).1, (items re).2⟩
  | re => ⟨false, (items re).1, (items re).2⟩

theorem accepts_iff (c x : UInt8) : accepts c x ↔ Letter c x := by
  unfold accepts Letter
  rw [Bool.or_eq_true, decide_eq_true_iff, decide_eq_true_iff, eq_comm (a := c) (b := x)]
  exact or_comm

theorem matchstar_iff {here : List UInt8 → Bool} {ps : List (Piece UInt8)} {stop : Bool} (h : ∀ text, here text ↔ Starts ps stop text)
    (c : UInt8) (text : List UInt8) : matchstar here c text ↔ Starts (.star (Letter c) :: ps) stop text := by
  induction text with
  | nil => rw [starts_star_nil, matchstar, h]
  | cons x text ih => rw [starts_star_cons, matchstar, Bool.or_eq_true, Bool.and_eq_true, accepts_iff, h, ih]

theorem matchhere_iff (re text : List UInt8) : matchhere re text ↔ Starts (items re).1 (items re).2 text := by
  fun_induction items re generalizing text with
  | case1 =>
    rw [starts_nil, matchhere]
    simp
  | case2 =>
    rw [starts_nil]
    unfold matchhere
    simp
  | case3 c hc =>
    unfold matchhere
    rw [if_neg hc]
    cases text with
    | nil => simp [starts_one_nil]
    | cons x text => simp [starts_one_cons, starts_nil, matchhere, accepts_iff]
  | case4 c re ih =>
    unfold matchhere
    rw [if_pos rfl]
    exact matchstar_iff ih c text
  | case5 c d re hd ih =>
    unfold matchhere
    rw [if_neg hd]
    cases text with
    | nil => simp [starts_one_nil]
    | cons x text => rw [starts_one_cons, ← ih, Bool.and_eq_true, accepts_iff]

theorem search_iff (re text : List UInt8) : search re text ↔ Pattern.Finds ⟨false, (items re).1, (items re).2⟩ text := by
  induction text with
  | nil => rw [finds_nil, search, matchhere_iff]
  | cons x text ih => rw [finds_cons, search, Bool.or_eq_true, matchhere_iff, ih]

theorem matchText_iff (re text : List UInt8) : matchText re text ↔ (readPattern re).Finds text := by
  unfold matchText readPattern
  split
  · rw [finds_of_start, matchhere_iff]
  · exact search_iff re text

end Matcher

section Loop

def strchr (d : Mem) (c : UInt8) : ℕ → ℕ → Option ℕ
  | 0, _ => none
  | n + 1, s => if d s = 0 then none else if d s = c then some s else strchr d c n (s + 1)

abbrev BUFSIZE : ℕ := 1024

def scanLines (re : List UInt8) : ℕ → Mem → ℕ → Mem × ℕ × List UInt8
  | 0, buf, p => (buf, p, [])
  | n + 1, buf, p => match strchr buf 10 BUFSIZE p with
    | none => (buf, p, [])
    | some q =>
      let buf := Function.update buf q 0
      if matchText re (cString buf BUFSIZE p) then
        let buf := Function.update buf q 10
        let r := scanLines re n buf (q + 1)
        (r.1, r.2.1, slice buf p (q + 1 - p) ++ r.2.2)
      else scanLines re n buf (q + 1)

/-- What is written when the calls of `read` return `chunks`, one after the other, and then 0. There is no such
run if a chunk is longer than what was asked for. -/
def grep (re : List UInt8) : List (List UInt8) → ℕ → Mem → Option (List UInt8)
  | [], _, _ => some []
  | chunk :: chunks, m, buf =>
    if BUFSIZE - m - 1 < chunk.length then none
    else if chunk = [] then some []
    else
      let buf := splice buf m chunk.length (fun i => chunk.getD i 0)
      let m := m + chunk.length
      let buf := Function.update buf m 0
      let r := scanLines re BUFSIZE buf 0
      let m := if r.2.1 = 0 then 0 else m
      if 0 < m then
        let m := m - r.2.1
        (grep re chunks m (splice r.1 0 m (fun i => r.1 (r.2.1 + i)))).map (r.2.2 ++ ·)
      else (grep re chunks m r.1).map (r.2.2 ++ ·)

def matching (re xs : List UInt8) : List UInt8 := ((ended 10 xs).filter (fun l => matchText re l)).flatMap (fun l => l ++ [10])

def Reads : ℕ → List (List UInt8) → Prop
  | _, [] => True
  | m, chunk :: chunks => chunk ≠ [] ∧ chunk.length ≤ BUFSIZE - m - 1 ∧ Reads (if 10 ∈ chunk then (rest 10 chunk).length else 0) chunks

def Steady : List (List UInt8) → Prop
  | [] => True
  | chunk :: chunks => (10 ∈ chunk ∧ Steady chunks) ∨ 10 ∉ (chunk :: chunks).flatten

section Scan

variable {d : Mem} {p n : ℕ} {xs ys : List UInt8} {c : UInt8}

theorem strchr_of_holds (h : Holds d p (xs ++ c :: ys)) (hc : c ∉ xs) (h0 : 0 ∉ xs) (hc0 : c ≠ 0) (hn : xs.length < n) :
    strchr d c n p = some (p + xs.length) := by
  induction xs generalizing p n with
  | nil =>
    cases n with
    | zero => exact absurd hn (Nat.not_lt_zero _)
    | succ n => rw [strchr, h.1, if_neg hc0, if_pos rfl, List.length_nil, Nat.add_zero]
  | cons x xs ih =>
    obtain ⟨hx0, h0⟩ := List.ne_and_not_mem_of_not_mem_cons h0
    obtain ⟨hxc, hc⟩ := List.ne_and_not_mem_of_not_mem_cons hc
    cases n with
    | zero => exact absurd hn (Nat.not_lt_zero _)
    | succ n =>
      rw [strchr, h.1, if_neg (Ne.symm hx0), if_neg (Ne.symm hxc), ih h.2 hc h0 (Nat.lt_of_succ_lt_succ hn), List.length_cons]
      congr 1
      omega

theorem strchr_eq_none (h : Holds d p (xs ++ [0])) (hc : c ∉ xs) (n : ℕ) : strchr d c n p = none := by
  induction xs generalizing p n with
  | nil =>
    cases n with
    | zero => rfl
    | succ n => exact if_pos h.1
  | cons x xs ih =>
    obtain ⟨hxc, hc⟩ := List.ne_and_not_mem_of_not_mem_cons hc
    cases n with
    | zero => rfl
    | succ n =>
      rw [strchr, h.1, if_neg (Ne.symm hxc), ih h.2 hc]
      split_ifs <;> rfl

theorem matching_of_notMem {re : List UInt8} (h : 10 ∉ xs) : matching re xs = [] := by
  rw [matching, ended_of_notMem h]
  rfl

theorem matching_append_cons {re : List UInt8} (h : 10 ∉ xs) (ys : List UInt8) :
    matching re (xs ++ 10 :: ys) = (if matchText re xs then xs ++ [10] else []) ++ matching re ys := by
  rw [matching, ended_append_cons h, List.filter_cons]
  split_ifs
  · rw [List.flatMap_cons]
    rfl
  · rfl

theorem matching_append {re : List UInt8} (xs ys : List UInt8) :
    matching re (xs ++ ys) = matching re xs ++ matching re (rest 10 xs ++ ys) := by
  rw [matching, ended_append, List.filter_append, List.flatMap_append]
  rfl

theorem scanLines_line (re : List UInt8) (h : Holds d p (xs ++ 10 :: ys)) (h10 : 10 ∉ xs) (h0 : 0 ∉ xs) (hlen : xs.length < BUFSIZE) :
    ∃ d' out, scanLines re (n + 1) d p = ((scanLines re n d' (p + xs.length + 1)).1, (scanLines re n d' (p + xs.length + 1)).2.1,
        out ++ (scanLines re n d' (p + xs.length + 1)).2.2) ∧
      out = (if matchText re xs then xs ++ [10] else []) ∧ Holds d' (p + xs.length + 1) ys := by
  obtain ⟨hxs, h1, hys⟩ := holds_append.mp h
  have hq := strchr_of_holds h h10 h0 (by decide) hlen
  have hzero : Holds (Function.update d (p + xs.length) 0) p (xs ++ [0]) := by
    apply holds_append.mpr
    constructor
    · exact hxs.update (.inr le_rfl) 0
    · exact ⟨Function.update_self _ _ _, trivial⟩
  have hline := hzero.cString_eq h0 hlen
  have hys0 := hys.update (q := p + xs.length) (.inl (Nat.lt_succ_self _)) 0
  by_cases hm : matchText re xs
  · have hnl : Holds (Function.update (Function.update d (p + xs.length) 0) (p + xs.length) 10) p (xs ++ [10]) := by
      apply holds_append.mpr
      constructor
      · exact (hxs.update (.inr le_rfl) 0).update (.inr le_rfl) 10
      · exact ⟨Function.update_self _ _ _, trivial⟩
    have hout := hnl.slice_eq
    rw [List.length_append, List.length_singleton] at hout
    refine ⟨_, xs ++ [10], ?_, (if_pos hm).symm, hys0.update (.inl (Nat.lt_succ_self _)) 10⟩
    rw [scanLines, hq]
    dsimp only
    rw [hline, if_pos hm, show p + xs.length + 1 - p = xs.length + 1 by omega, hout]
  · refine ⟨_, [], ?_, (if_neg hm).symm, hys0⟩
    rw [scanLines, hq]
    dsimp only
    rw [hline, if_neg hm]
    rfl

theorem scanLines_spec (re : List UInt8) (h : Holds d p (xs ++ [0])) (h0 : 0 ∉ xs) (hn : xs.length < n) (hlen : xs.length < BUFSIZE) :
    ∃ d', scanLines re n d p = (d', p + xs.length - (rest 10 xs).length, matching re xs) ∧
      Holds d' (p + xs.length - (rest 10 xs).length) (rest 10 xs) := by
  induction xs using separator_induction (10 : UInt8) generalizing n d p with
  | last xs h10 =>
    have he : p + xs.length - xs.length = p := Nat.add_sub_cancel _ _
    rw [rest_of_notMem h10, matching_of_notMem h10, he]
    refine ⟨d, ?_, (holds_append.mp h).1⟩
    cases n with
    | zero => rfl
    | succ n => rw [scanLines, strchr_eq_none h h10]
  | next l ys h10 ih =>
    rw [List.length_append, List.length_cons] at hn hlen
    cases n with
    | zero => exact absurd hn (Nat.not_lt_zero _)
    | succ n =>
      rw [List.append_assoc] at h
      obtain ⟨d', out, he, rfl, hys⟩ := scanLines_line (n := n) re h h10 (fun hm => h0 (List.mem_append_left _ hm)) (by omega)
      obtain ⟨d'', he', hrest⟩ := ih (n := n) hys (fun hm => h0 (List.mem_append_right _ (List.mem_cons_of_mem _ hm))) (by omega) (by omega)
      have hp : p + (l ++ 10 :: ys).length = p + l.length + 1 + ys.length := by
        rw [List.length_append, List.length_cons]
        omega
      rw [rest_append_cons h10, matching_append_cons h10, hp]
      refine ⟨d'', ?_, hrest⟩
      rw [he, he']

end Scan

variable (re : List UInt8)

theorem grep_turn {d : Mem} {carry chunk : List UInt8} (chunks : List (List UInt8)) (h : Holds d 0 carry) (h0 : 0 ∉ carry ++ chunk)
    (hne : chunk ≠ []) (hlen : chunk.length ≤ BUFSIZE - carry.length - 1) (h10 : 10 ∉ carry) :
    ∃ d' left, grep re (chunk :: chunks) carry.length d = (grep re chunks left.length d').map (matching re (carry ++ chunk) ++ ·) ∧
      Holds d' 0 left ∧ left = if 10 ∈ chunk then rest 10 chunk else [] := by
  have hpos : 0 < chunk.length := List.length_pos_iff.mpr hne
  have hfill : Holds (Function.update (splice d carry.length chunk.length (fun i => chunk.getD i 0)) (carry.length + chunk.length) 0) 0
      (carry ++ chunk ++ [0]) := by
    apply holds_append.mpr
    rw [Nat.zero_add, List.length_append]
    refine ⟨Holds.update ?_ (.inr ?_) 0, Function.update_self _ _ _, trivial⟩
    · apply holds_append.mpr
      rw [Nat.zero_add]
      constructor
      · apply h.congr
        intro k _ hk
        exact if_neg (by omega)
      · have hs := holds_splice d carry.length chunk le_rfl
        rwa [List.take_length] at hs
    · rw [Nat.zero_add, List.length_append]
  change chunk.length ≤ 1024 - carry.length - 1 at hlen
  have hfit : (carry ++ chunk).length < BUFSIZE := by
    rw [List.length_append]
    change carry.length + chunk.length < 1024
    omega
  obtain ⟨d', hscan, hrest⟩ := scanLines_spec re hfill h0 hfit hfit
  rw [Nat.zero_add, List.length_append] at hscan hrest
  have hle := (rest_suffix 10 (carry ++ chunk)).length_le
  rw [List.length_append] at hle
  rw [grep, if_neg (Nat.not_lt.mpr hlen), if_neg hne]
  dsimp only
  rw [hscan]
  dsimp only
  by_cases hnl : 10 ∈ chunk
  · have hr : rest 10 (carry ++ chunk) = rest 10 chunk := rest_append_of_mem hnl carry
    rw [hr] at hrest hle ⊢
    have hshort := length_rest_lt hnl
    have hm : (if carry.length + chunk.length - (rest 10 chunk).length = 0 then 0 else carry.length + chunk.length) =
        carry.length + chunk.length := if_neg (by omega)
    have hleft : carry.length + chunk.length - (carry.length + chunk.length - (rest 10 chunk).length) = (rest 10 chunk).length := by omega
    rw [hm, if_pos (by omega), hleft]
    refine ⟨_, rest 10 chunk, rfl, ?_, (if_pos hnl).symm⟩
    apply hrest.move
    intro i hi
    unfold splice
    rw [if_pos (by omega), Nat.sub_zero, Nat.zero_add]
  · have hr : rest 10 (carry ++ chunk) = carry ++ chunk := rest_of_notMem (fun hm => (List.mem_append.mp hm).elim h10 hnl)
    rw [hr, List.length_append, Nat.sub_self, if_pos rfl, if_neg (Nat.lt_irrefl 0)]
    exact ⟨d', [], rfl, trivial, (if_neg hnl).symm⟩

theorem steady_of_notMem {chunks : List (List UInt8)} (h : 10 ∉ chunks.flatten) : Steady chunks := by
  cases chunks with
  | nil => trivial
  | cons chunk chunks => exact .inr h

theorem grep_matching {d : Mem} {carry : List UInt8} {chunks : List (List UInt8)} (h : Holds d 0 carry) (h0 : 0 ∉ carry ++ chunks.flatten)
    (h10 : 10 ∉ carry) (hr : Reads carry.length chunks) (hs : Steady chunks) :
    grep re chunks carry.length d = some (matching re (carry ++ chunks.flatten)) := by
  induction chunks generalizing d carry with
  | nil =>
    rw [List.flatten_nil, List.append_nil, matching_of_notMem h10]
    rfl
  | cons chunk chunks ih =>
    obtain ⟨hne, hlen, hr⟩ := hr
    rw [List.flatten_cons, ← List.append_assoc] at h0 ⊢
    have h0c : 0 ∉ carry ++ chunk := fun hm => h0 (List.mem_append_left _ hm)
    have h0r : 0 ∉ chunks.flatten := fun hm => h0 (List.mem_append_right _ hm)
    obtain ⟨d', left, he, hleft, hl⟩ := grep_turn re chunks h h0c hne hlen h10
    rw [he]
    by_cases hnl : 10 ∈ chunk
    · rw [if_pos hnl] at hl hr
      subst hl
      obtain ⟨-, hs⟩ | hs := hs
      · have h0l : 0 ∉ rest 10 chunk ++ chunks.flatten := by
          intro hm
          obtain hm | hm := List.mem_append.mp hm
          · exact h0c (List.mem_append_right _ ((rest_suffix 10 chunk).subset hm))
          · exact h0r hm
        rw [ih hleft h0l (notMem_rest 10 chunk) hr hs, matching_append (carry ++ chunk), rest_append_of_mem hnl]
        rfl
      · exact absurd (List.mem_append_left _ hnl) hs
    · rw [if_neg hnl] at hl hr
      subst hl
      obtain ⟨hs, -⟩ | hs := hs
      · exact absurd hs hnl
      · have hc : 10 ∉ carry ++ chunk := fun hm => (List.mem_append.mp hm).elim h10 hnl
        have hrest : 10 ∉ chunks.flatten := fun hm => hs (List.mem_append_right _ hm)
        have hall : 10 ∉ carry ++ chunk ++ chunks.flatten := fun hm => (List.mem_append.mp hm).elim hc hrest
        rw [ih hleft h0r (List.not_mem_nil) hr (steady_of_notMem hrest), matching_of_notMem hc, matching_of_notMem hall, List.nil_append,
          matching_of_notMem hrest]
        rfl

theorem matchText_nil (text : List UInt8) : matchText [] text := by
  cases text <;> rfl

theorem matching_nil_append {xs ys : List UInt8} (hx : 10 ∉ xs) (hy : 10 ∈ ys) :
    matching [] (xs ++ ys) = xs ++ matching [] ys := by
  obtain ⟨l, zs, rfl, hl⟩ := List.eq_append_cons_of_mem hy
  have hxl : 10 ∉ xs ++ l := fun hm => (List.mem_append.mp hm).elim hx hl
  rw [← List.append_assoc, matching_append_cons hxl, matching_append_cons hl, if_pos (matchText_nil _),
    if_pos (matchText_nil _)]
  simp only [List.append_assoc]

theorem grep_nil_le {d : Mem} {carry out : List UInt8} {chunks : List (List UInt8)} (h : Holds d 0 carry)
    (h0 : 0 ∉ carry ++ chunks.flatten) (h10 : 10 ∉ carry) (hr : Reads carry.length chunks)
    (hout : grep [] chunks carry.length d = some out) : out.length ≤ (matching [] (carry ++ chunks.flatten)).length := by
  induction chunks generalizing d carry out with
  | nil =>
    cases hout
    exact Nat.zero_le _
  | cons chunk chunks ih =>
    obtain ⟨hne, hlen, hr⟩ := hr
    rw [List.flatten_cons, ← List.append_assoc] at h0 ⊢
    have h0c : 0 ∉ carry ++ chunk := fun hm => h0 (List.mem_append_left _ hm)
    have h0r : 0 ∉ chunks.flatten := fun hm => h0 (List.mem_append_right _ hm)
    obtain ⟨d', left, he, hleft, hl⟩ := grep_turn [] chunks h h0c hne hlen h10
    rw [he, Option.map_eq_some_iff] at hout
    obtain ⟨out', hout', rfl⟩ := hout
    by_cases hnl : 10 ∈ chunk
    · rw [if_pos hnl] at hl hr
      subst hl
      have h0l : 0 ∉ rest 10 chunk ++ chunks.flatten := by
        intro hm
        obtain hm | hm := List.mem_append.mp hm
        · exact h0c (List.mem_append_right _ ((rest_suffix 10 chunk).subset hm))
        · exact h0r hm
      have hle := ih hleft h0l (notMem_rest 10 chunk) hr hout'
      rw [matching_append (carry ++ chunk), rest_append_of_mem hnl, List.length_append, List.length_append]
      omega
    · rw [if_neg hnl] at hl hr
      subst hl
      have hle := ih hleft h0r List.not_mem_nil hr hout'
      have hc : 10 ∉ carry ++ chunk := fun hm => (List.mem_append.mp hm).elim h10 hnl
      rw [List.nil_append] at hle
      rw [matching_of_notMem hc, List.nil_append]
      by_cases hrest : 10 ∈ chunks.flatten
      · rw [matching_nil_append hc hrest, List.length_append]
        omega
      · rw [matching_of_notMem hrest] at hle
        exact hle.trans (Nat.zero_le _)

theorem steady_of_grep_nil {d : Mem} {carry : List UInt8} {chunks : List (List UInt8)} (h : Holds d 0 carry)
    (h0 : 0 ∉ carry ++ chunks.flatten) (h10 : 10 ∉ carry) (hr : Reads carry.length chunks)
    (hout : grep [] chunks carry.length d = some (matching [] (carry ++ chunks.flatten))) : Steady chunks := by
  induction chunks generalizing d carry with
  | nil => trivial
  | cons chunk chunks ih =>
    obtain ⟨hne, hlen, hr⟩ := hr
    rw [List.flatten_cons, ← List.append_assoc] at h0 hout
    have h0c : 0 ∉ carry ++ chunk := fun hm => h0 (List.mem_append_left _ hm)
    have h0r : 0 ∉ chunks.flatten := fun hm => h0 (List.mem_append_right _ hm)
    obtain ⟨d', left, he, hleft, hl⟩ := grep_turn [] chunks h h0c hne hlen h10
    rw [he, Option.map_eq_some_iff] at hout
    obtain ⟨out', hout', hsame⟩ := hout
    by_cases hnl : 10 ∈ chunk
    · rw [if_pos hnl] at hl hr
      subst hl
      have h0l : 0 ∉ rest 10 chunk ++ chunks.flatten := by
        intro hm
        obtain hm | hm := List.mem_append.mp hm
        · exact h0c (List.mem_append_right _ ((rest_suffix 10 chunk).subset hm))
        · exact h0r hm
      rw [matching_append (carry ++ chunk), rest_append_of_mem hnl] at hsame
      obtain rfl := List.append_cancel_left hsame
      exact .inl ⟨hnl, ih hleft h0l (notMem_rest 10 chunk) hr hout'⟩
    · rw [if_neg hnl] at hl hr
      subst hl
      right
      rw [List.flatten_cons, List.mem_append, not_or]
      refine ⟨hnl, fun hrest => ?_⟩
      -- the chunk is dropped, so that at least its bytes are missing in what is written
      have hc : 10 ∉ carry ++ chunk := fun hm => (List.mem_append.mp hm).elim h10 hnl
      have hle := grep_nil_le hleft h0r List.not_mem_nil hr hout'
      rw [matching_of_notMem hc, List.nil_append, matching_nil_append hc hrest] at hsame
      rw [hsame, List.nil_append, List.length_append, List.length_append] at hle
      have hpos := List.length_pos_iff.mpr hne
      omega

theorem grep_iff_steady (buf : Mem) (chunks : List (List UInt8)) (h0 : 0 ∉ chunks.flatten) (hr : Reads 0 chunks) :
    (∀ re, grep re chunks 0 buf = some (matching re chunks.flatten)) ↔ Steady chunks := by
  have hnil : Holds buf 0 [] := trivial
  constructor
  · intro h
    exact steady_of_grep_nil hnil h0 List.not_mem_nil hr (h [])
  · intro hs re
    exact grep_matching re hnil h0 List.not_mem_nil hr hs

theorem grep_iff_steady_two : grep [97] [[98, 97, 10, 97], [98, 10, 99, 10]] 0 (fun _ => 0) =
    some (matching [97] [98, 97, 10, 97, 98, 10, 99, 10]) := by
  refine (grep_iff_steady (fun _ => 0) [[98, 97, 10, 97], [98, 10, 99, 10]] (by decide) ?_).mpr ?_ [97]
  · exact ⟨by decide, by decide, by decide, by decide, trivial⟩
  · exact .inl ⟨by decide, .inl ⟨by decide, trivial⟩⟩

theorem grep_split : ([[97, 98, 10]] : List (List UInt8)).flatten = [[97], [98, 10]].flatten ∧
    Reads 0 [[97, 98, 10]] ∧ Reads 0 [[97], [98, 10]] ∧
    grep [97] [[97, 98, 10]] 0 (fun _ => 0) = some [97, 98, 10] ∧ grep [97] [[97], [98, 10]] 0 (fun _ => 0) = some [] := by
  refine ⟨rfl, ⟨by decide, by decide, trivial⟩, ⟨by decide, by decide, by decide, by decide, trivial⟩, by decide, by decide⟩

end Loop

end EnhancedXv6.Grep
