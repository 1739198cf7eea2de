import EnhancedXv6.Shell

namespace EnhancedXv6.Shell

open Bytes

inductive Symbol
  | bar
  | lpar
  | rpar
  | semi
  | amp
  | lt
  | gt
  | gtgt
  deriving DecidableEq, Repr

inductive Tok
  | sym (σ : Symbol)
  | word (q eq : ℕ)
  deriving DecidableEq, Repr

def symbolOf (c : UInt8) : Option Symbol :=
  if c = 124 then some .bar else if c = 40 then some .lpar else if c = 41 then some .rpar else if c = 59 then some .semi
  else if c = 38 then some .amp else if c = 60 then some .lt else none

def tokenOf (i : ℕ) (c : UInt8) (r : List UInt8) : Tok × ℕ :=
  if c = 62 then if r.head? = some 62 then (.sym .gtgt, 2) else (.sym .gt, 1)
  else match symbolOf c with
    | some σ => (.sym σ, 1)
    | none => (.word i (i + 1 + (r.takeWhile wordChar).length), 1 + (r.takeWhile wordChar).length)

theorem tokenOf_pos (i : ℕ) (c : UInt8) (r : List UInt8) : 1 ≤ (tokenOf i c r).2 := by
  unfold tokenOf
  split_ifs
  · exact Nat.le_succ 1
  · exact le_rfl
  · split
    · exact le_rfl
    · exact Nat.le_add_right 1 _

def lex (i : ℕ) : List UInt8 → List Tok
  | [] => []
  | c :: r =>
    if c ∈ whitespace then lex (i + 1) r
    else (tokenOf i c r).1 :: lex (i + (tokenOf i c r).2) ((c :: r).drop (tokenOf i c r).2)
termination_by cs => cs.length
decreasing_by
  · exact Nat.lt_succ_self _
  · have h := tokenOf_pos i c r
    rw [List.length_drop, List.length_cons]
    omega

def Symbol.ret : Symbol → UInt8
  | .bar => 124
  | .lpar => 40
  | .rpar => 41
  | .semi => 59
  | .amp => 38
  | .lt => 60
  | .gt => 62
  | .gtgt => 43

def Tok.ret : Tok → UInt8
  | .sym σ => σ.ret
  | .word _ _ => 97

def Symbol.first : Symbol → UInt8
  | .gtgt => 62
  | σ => σ.ret

section Primitives

variable {text : List UInt8} {s : ℕ} {ts : List Tok}

structure At (text : List UInt8) (s : ℕ) (ts : List Tok) : Prop where
  le : s ≤ text.length
  tokens : lex s (text.drop s) = ts

theorem lex_nil (i : ℕ) : lex i [] = [] := by
  rw [lex]

theorem lex_white {i : ℕ} {c : UInt8} (h : c ∈ whitespace) (r : List UInt8) : lex i (c :: r) = lex (i + 1) r := by
  rw [lex, if_pos h]

theorem lex_token {i : ℕ} {c : UInt8} (h : c ∉ whitespace) (r : List UInt8) :
    lex i (c :: r) = (tokenOf i c r).1 :: lex (i + (tokenOf i c r).2) ((c :: r).drop (tokenOf i c r).2) := by
  rw [lex, if_neg h]

theorem drop_cons (text : List UInt8) {s : ℕ} (h : s < text.length) : ∃ c, text.drop s = c :: text.drop (s + 1) ∧ chars text s = c ∧ c ∈ text := by
  refine ⟨text[s], List.drop_eq_getElem_cons h, ?_, List.getElem_mem h⟩
  exact List.getD_eq_getElem text 0 h

theorem scan_eq (P : UInt8 → Bool) (text : List UInt8) (s : ℕ) :
    scan (chars text) P (text.length - s) s = s + ((text.drop s).takeWhile P).length := by
  generalize hn : text.length - s = n
  induction n generalizing s with
  | zero =>
    rw [List.drop_eq_nil_of_le (by omega)]
    rfl
  | succ n ih =>
    obtain ⟨c, hd, hc, -⟩ := drop_cons text (s := s) (by omega)
    rw [scan, hd, hc, List.takeWhile_cons]
    split_ifs
    · rw [ih (s + 1) (by omega), List.length_cons]
      omega
    · rfl

def Front (text : List UInt8) (s : ℕ) (ts : List Tok) : Prop := At text s ts ∧
  ((s = text.length ∧ ts = []) ∨ ∃ c r, text.drop s = c :: r ∧ c ∉ whitespace ∧ c ∈ text ∧ chars text s = c)

theorem front_skipWhite (h : At text s ts) : Front text (skipWhite (chars text) text.length s) ts := by
  unfold skipWhite
  generalize hn : text.length - s = n
  induction n generalizing s with
  | zero =>
    have hs : s = text.length := by
      have hle := h.le
      omega
    refine ⟨h, .inl ⟨hs, ?_⟩⟩
    rw [← h.tokens, hs, List.drop_length, lex_nil]
  | succ n ih =>
    obtain ⟨c, hd, hc, hmem⟩ := drop_cons text (s := s) (by omega)
    rw [scan, hc]
    by_cases hw : c ∈ whitespace
    · rw [if_pos (decide_eq_true hw)]
      apply ih
      · refine ⟨by omega, ?_⟩
        rw [← h.tokens, hd, lex_white hw]
      · omega
    · rw [if_neg (by simpa using hw)]
      exact ⟨h, .inr ⟨c, _, hd, hw, hmem, hc⟩⟩

theorem chars_end (text : List UInt8) : chars text text.length = 0 := List.getD_eq_default _ _ le_rfl

theorem symbol_cases (c : UInt8) :
    c = 62 ∨ (c ≠ 62 ∧ c ∈ [124, 40, 41, 59, 38, 60] ∧ ∃ σ, symbolOf c = some σ ∧ σ.ret = c ∧ σ.first = c) ∨
      (c ≠ 62 ∧ c ∉ [124, 40, 41, 59, 38, 60] ∧ symbolOf c = none ∧ c ∉ symbols) := by
  by_cases hgt : c = 62
  · exact .inl hgt
  · right
    by_cases hm : c ∈ [124, 40, 41, 59, 38, 60]
    · left
      refine ⟨hgt, hm, ?_⟩
      simp only [List.mem_cons, List.not_mem_nil, or_false] at hm
      rcases hm with rfl | rfl | rfl | rfl | rfl | rfl
      all_goals exact ⟨_, rfl, rfl, rfl⟩
    · right
      refine ⟨hgt, hm, ?_⟩
      simp only [List.mem_cons, List.not_mem_nil, or_false, not_or] at hm
      simp [symbolOf, symbols, hm, hgt]

theorem tokenOf_le (i : ℕ) (c : UInt8) (r : List UInt8) : (tokenOf i c r).2 ≤ (c :: r).length := by
  have hw := (List.takeWhile_prefix (l := r) wordChar).length_le
  unfold tokenOf
  rw [List.length_cons]
  split_ifs with _ hr
  · cases r with
    | nil => cases hr
    | cons c' r =>
      rw [List.length_cons]
      omega
  · omega
  · split
    · omega
    · dsimp only
      omega

theorem chars_succ {c : UInt8} {r : List UInt8} (hd : text.drop s = c :: r) : chars text (s + 1) = 62 ↔ r.head? = some 62 := by
  have hr : r = text.drop (s + 1) := by rw [← List.drop_drop, hd, List.drop_one, List.tail_cons]
  rw [hr, List.head?_drop, chars, List.getD_eq_getElem?_getD]
  cases text[s + 1]? with
  | none => decide
  | some x => rw [Option.getD_some, Option.some.injEq]

theorem front_token (h0 : 0 ∉ text) {t : Tok} (h : Front text s (t :: ts)) : ∃ eq,
    (if chars text s = 0 then (0, s)
      else if chars text s ∈ [124, 40, 41, 59, 38, 60] then (chars text s, s + 1)
      else if chars text s = 62 then if chars text (s + 1) = 62 then (43, s + 2) else (62, s + 1)
      else (97, scan (chars text) wordChar (text.length - s) s)) = (t.ret, eq) ∧ At text eq ts ∧ ∀ q e, t = .word q e → q = s ∧ e = eq := by
  obtain ⟨hat, ⟨-, hnil⟩ | ⟨c, r, hd, hw, hmem, hc⟩⟩ := h
  · cases hnil
  · have hlen : (c :: r).length = text.length - s := by rw [← hd, List.length_drop]
    have hle := tokenOf_le s c r
    have hlex := hat.tokens
    have hs := hat.le
    rw [hd, lex_token hw] at hlex
    obtain ⟨ht, hts⟩ := List.cons.inj hlex
    have hrest : At text (s + (tokenOf s c r).2) ts := by
      refine ⟨by omega, ?_⟩
      rw [← List.drop_drop, hd, hts]
    have hc0 : c ≠ 0 := fun he => h0 (he ▸ hmem)
    have hnext := chars_succ hd
    rw [hc, if_neg hc0, scan_eq, hd]
    obtain rfl | ⟨hgt, hin, σ, hσ, hret, -⟩ | ⟨hgt, hin, hσ, hsym⟩ := symbol_cases c
    · rw [if_neg (by decide), if_pos rfl]
      unfold tokenOf at ht hrest
      rw [if_pos rfl] at ht hrest
      by_cases hr : r.head? = some 62
      · rw [if_pos hr] at ht hrest
        subst ht
        exact ⟨s + 2, if_pos (hnext.mpr hr), hrest, fun _ _ he => Tok.noConfusion he⟩
      · rw [if_neg hr] at ht hrest
        subst ht
        exact ⟨s + 1, if_neg (fun hn => hr (hnext.mp hn)), hrest, fun _ _ he => Tok.noConfusion he⟩
    · rw [if_pos hin]
      unfold tokenOf at ht hrest
      rw [if_neg hgt, hσ] at ht hrest
      subst ht
      refine ⟨s + 1, ?_, hrest, fun _ _ he => Tok.noConfusion he⟩
      rw [← hret]
      rfl
    · have hword : wordChar c := decide_eq_true ⟨hw, hsym⟩
      rw [if_neg hin, if_neg hgt, List.takeWhile_cons_of_pos hword, List.length_cons]
      unfold tokenOf at ht hrest
      rw [if_neg hgt, hσ] at ht hrest
      subst ht
      refine ⟨_, rfl, ?_, fun q e he => ?_⟩
      · rwa [Nat.add_comm _ 1]
      · cases he
        exact ⟨rfl, by omega⟩

theorem gettoken_nil (h : At text s []) : (gettoken (chars text) text.length s).ret = 0 ∧ At text (gettoken (chars text) text.length s).s [] := by
  obtain ⟨hat, ⟨he, -⟩ | ⟨c, r, hd, hw, -, -⟩⟩ := front_skipWhite h
  · have hz : chars text (skipWhite (chars text) text.length s) = 0 := by rw [he, chars_end]
    unfold gettoken
    dsimp only
    rw [if_pos hz]
    exact ⟨rfl, (front_skipWhite hat).1⟩
  · have hlex := hat.tokens
    rw [hd, lex_token hw] at hlex
    cases hlex

theorem gettoken_cons (h0 : 0 ∉ text) {t : Tok} (h : At text s (t :: ts)) : (gettoken (chars text) text.length s).ret = t.ret ∧
    At text (gettoken (chars text) text.length s).s ts ∧
    ∀ q e, t = .word q e → (gettoken (chars text) text.length s).q = q ∧ (gettoken (chars text) text.length s).eq = e := by
  obtain ⟨eq, he, hat, hword⟩ := front_token h0 (front_skipWhite h)
  unfold gettoken
  dsimp only
  rw [he]
  refine ⟨rfl, (front_skipWhite hat).1, fun q e ht => ?_⟩
  obtain ⟨hq, he⟩ := hword q e ht
  exact ⟨hq.symm, he.symm⟩

theorem at_peek (h : At text s ts) (toks : List UInt8) : At text (peek (chars text) text.length s toks).2 ts := (front_skipWhite h).1

theorem peek_iff (h0 : 0 ∉ text) (h : At text s ts) (toks : List UInt8) (hsub : toks ⊆ symbols) :
    (peek (chars text) text.length s toks).1 = true ↔ ∃ σ us, ts = .sym σ :: us ∧ σ.first ∈ toks := by
  unfold peek
  rw [decide_eq_true_iff]
  obtain ⟨hat, ⟨he, rfl⟩ | ⟨c, r, hd, hw, hmem, hc⟩⟩ := front_skipWhite h
  · rw [he, chars_end]
    constructor
    · rintro ⟨hz, -⟩
      exact absurd rfl hz
    · rintro ⟨σ, us, hnil, -⟩
      cases hnil
  · have hlex := hat.tokens
    rw [hd, lex_token hw] at hlex
    have hc0 : c ≠ 0 := fun he => h0 (he ▸ hmem)
    have hfirst : (∃ σ, (tokenOf (skipWhite (chars text) text.length s) c r).1 = .sym σ ∧ σ.first = c) ∨
        (∃ q e, (tokenOf (skipWhite (chars text) text.length s) c r).1 = .word q e) ∧ c ∉ symbols := by
      unfold tokenOf
      obtain rfl | ⟨hgt, hin, σ, hσ, hret, hf⟩ | ⟨hgt, hin, hσ, hsym⟩ := symbol_cases c
      · left
        rw [if_pos rfl]
        split_ifs
        · exact ⟨_, rfl, rfl⟩
        · exact ⟨_, rfl, rfl⟩
      · left
        rw [if_neg hgt, hσ]
        exact ⟨σ, rfl, hf⟩
      · right
        rw [if_neg hgt, hσ]
        exact ⟨⟨_, _, rfl⟩, hsym⟩
    rw [hc, ← hlex]
    constructor
    · rintro ⟨-, hin⟩
      obtain ⟨σ, hσ, hf⟩ | ⟨-, hsym⟩ := hfirst
      · exact ⟨σ, _, by rw [hσ], hf ▸ hin⟩
      · exact absurd (hsub hin) hsym
    · rintro ⟨σ, us, he, hin⟩
      obtain ⟨ht, -⟩ := List.cons.inj he
      obtain ⟨σ', hσ, hf⟩ | ⟨⟨q, e, hword⟩, -⟩ := hfirst
      · rw [hσ] at ht
        cases ht
        exact ⟨hc0, hf ▸ hin⟩
      · rw [hword] at ht
        cases ht

end Primitives

end EnhancedXv6.Shell
