import EnhancedXv6.Console

namespace EnhancedXv6.Console

open Transition Machine

def Reader.Going : Reader → Prop
  | .read target n dst => dst.length + n = target
  | .sleep target n dst => dst.length + n = target
  | .out _ _ => True

structure Line where
  unread : List UInt8 := []
  edit : List UInt8 := []

namespace Line

def key (l : Line) (c : UInt8) : Line :=
  if c = C 'P' then l
  else if c = C 'U' then { l with edit := [] }
  else if c = C 'H' ∨ c = 127 then { l with edit := l.edit.dropLast }
  else if c ≠ 0 ∧ l.unread.length + l.edit.length < 128 then
    let c := if c = 13 then 10 else c
    if c = 10 ∨ c = C 'D' ∨ l.unread.length + l.edit.length + 1 = 128 then { unread := l.unread ++ (l.edit ++ [c]), edit := [] }
    else { l with edit := l.edit ++ [c] }
  else l

def read (killed : Bool) (target : ℕ) : ℕ → List UInt8 → List UInt8 → List UInt8 × Reader
  | 0, dst, q => (q, .out target dst)
  | n + 1, dst, [] => ([], if killed then .out (-1) dst else .sleep target (n + 1) dst)
  | n + 1, dst, c :: q =>
    if c = C 'D' then (if n + 1 < target then c :: q else q, .out ((target : ℤ) - (n + 1 : ℕ)) dst)
    else if c = 10 then (q, .out ((target : ℤ) - n) (dst ++ [c]))
    else read killed target n (dst ++ [c]) q

def Plain (new : List UInt8) : Prop := ∀ c ∈ new, c ≠ C 'D' ∧ c ≠ 10

inductive Took (killed : Bool) (target n : ℕ) (dst q : List UInt8) : List UInt8 → List UInt8 → Reader → Prop
  | full {new rest : List UInt8} (hq : q = new ++ rest) (hp : Plain new) (hn : new.length = n) :
    Took killed target n dst q new rest (.out target (dst ++ new))
  | newline {new rest : List UInt8} {ret : ℤ} (hq : q = new ++ 10 :: rest) (hp : Plain new) (hn : new.length < n)
    (hr : ret = target - n + new.length + 1) : Took killed target n dst q (new ++ [10]) rest (.out ret (dst ++ (new ++ [10])))
  | eof {rest : List UInt8} (hq : q = C 'D' :: rest) (hn : n = target) (h0 : 0 < n) : Took killed target n dst q [] rest (.out 0 dst)
  | held {new rest : List UInt8} {ret : ℤ} (hq : q = new ++ C 'D' :: rest) (hp : Plain new) (hn : new.length < n)
    (hr : ret = target - n + new.length) (h0 : 0 < ret) : Took killed target n dst q new (C 'D' :: rest) (.out ret (dst ++ new))
  | wait {m : ℕ} (hp : Plain q) (hn : m + q.length = n) (h0 : 0 < m) (hk : killed = false) :
    Took killed target n dst q q [] (.sleep target m (dst ++ q))
  | kill (hp : Plain q) (hn : q.length < n) (hk : killed = true) : Took killed target n dst q q [] (.out (-1) (dst ++ q))

theorem Plain.cons {c : UInt8} {new : List UInt8} (h : Plain new) (hD : c ≠ C 'D') (h10 : c ≠ 10) : Plain (c :: new) := by
  intro d hd
  rcases List.mem_cons.mp hd with rfl | hd
  · exact ⟨hD, h10⟩
  · exact h d hd

theorem plain_nil : Plain [] := fun _ h => absurd h List.not_mem_nil

theorem Took.split {killed : Bool} {target n : ℕ} {dst q new rest : List UInt8} {x : Reader} (h : Took killed target n dst q new rest x) :
    q = new ++ rest ∨ new = [] ∧ x = .out 0 dst ∧ q = [C 'D'] ++ rest := by
  cases h with
  | full hq hp hl => exact .inl hq
  | newline hq hp hl hr =>
    rw [List.append_assoc]
    exact .inl hq
  | eof hq hl h0 => exact .inr ⟨rfl, rfl, hq⟩
  | held hq hp hl hr h0 => exact .inl hq
  | wait hp hl h0 hk => exact .inl (List.append_nil q).symm
  | kill hp hl hk => exact .inl (List.append_nil q).symm

theorem Took.going {killed : Bool} {target n : ℕ} {dst q new rest : List UInt8} {x : Reader} (h : Took killed target n dst q new rest x)
    (hn : dst.length + n = target) : x.Going := by
  cases h with
  | wait hp hl h0 hk =>
    change (dst ++ q).length + _ = target
    rw [List.length_append]
    omega
  | _ => trivial

theorem Plain.eq_nil {new l rest : List UInt8} (h : Plain new) (he : C 'D' :: rest = new ++ l) : new = [] := by
  cases new with
  | nil => rfl
  | cons c new =>
    rw [List.cons_append] at he
    exact absurd (List.cons.inj he).1.symm (h c (by simp)).1

theorem Took.of_eof {killed : Bool} {target : ℕ} {q new rest : List UInt8} {x : Reader} (h0 : 0 < target)
    (h : Took killed target target [] (C 'D' :: q) new rest x) : x = .out 0 [] ∧ rest = q := by
  cases h with
  | full hq hp hl =>
    rw [hp.eq_nil hq] at hl
    exact absurd hl h0.ne
  | newline hq hp hl hr =>
    rw [hp.eq_nil hq] at hq
    exact absurd (List.cons.inj hq).1 (by decide)
  | eof hq hl h0 => exact ⟨rfl, (List.cons.inj hq).2.symm⟩
  | held hq hp hl hr h0 =>
    rw [hp.eq_nil hq, List.length_nil] at hr
    omega
  | wait hp hl h0 hk => exact absurd rfl (hp (C 'D') (by simp)).1
  | kill hp hl hk => exact absurd rfl (hp (C 'D') (by simp)).1

theorem Took.cons {killed : Bool} {target n : ℕ} {dst q new rest : List UInt8} {x : Reader} {c : UInt8} (hn : n < target)
    (h : Took killed target n (dst ++ [c]) q new rest x) (hD : c ≠ C 'D') (h10 : c ≠ 10) :
    Took killed target (n + 1) dst (c :: q) (c :: new) rest x := by
  have happ : ∀ l : List UInt8, dst ++ [c] ++ l = dst ++ c :: l := fun l => by simp
  cases h with
  | full hq hp hl =>
    rw [happ]
    exact .full (by rw [hq]; rfl) (hp.cons hD h10) (by rw [List.length_cons, hl])
  | @newline new _ _ hq hp hl hr =>
    rw [happ]
    exact @Took.newline _ _ _ _ _ (c :: new) _ _ (by rw [hq]; rfl) (hp.cons hD h10) (Nat.succ_lt_succ hl) (by rw [List.length_cons]; omega)
  | eof hq hl h0 => exact absurd hl hn.ne
  | @held new _ _ hq hp hl hr h0 =>
    rw [happ]
    exact .held (by rw [hq]; rfl) (hp.cons hD h10) (Nat.succ_lt_succ hl) (by rw [List.length_cons]; omega) h0
  | wait hp hl h0 hk =>
    rw [happ]
    exact .wait (hp.cons hD h10) (by rw [List.length_cons]; omega) h0 hk
  | kill hp hl hk =>
    rw [happ]
    exact .kill (hp.cons hD h10) (by rw [List.length_cons]; omega) hk

theorem read_took (killed : Bool) {target n : ℕ} (hn : n ≤ target) (dst q : List UInt8) :
    ∃ new, Took killed target n dst q new (read killed target n dst q).1 (read killed target n dst q).2 := by
  have hnil : dst ++ [] = dst := List.append_nil dst
  induction n generalizing dst q with
  | zero =>
    have h : Took killed target 0 dst q [] q (.out target (dst ++ [])) := .full rfl plain_nil rfl
    rw [hnil] at h
    exact ⟨[], h⟩
  | succ n ih =>
    cases q with
    | nil =>
      refine ⟨[], ?_⟩
      rw [read]
      split_ifs with hk
      · have h : Took killed target (n + 1) dst [] [] [] (.out (-1) (dst ++ [])) := .kill plain_nil (Nat.succ_pos n) hk
        rwa [hnil] at h
      · have h : Took killed target (n + 1) dst [] [] [] (.sleep target (n + 1) (dst ++ [])) :=
          .wait plain_nil rfl (Nat.succ_pos n) (Bool.not_eq_true _ ▸ hk)
        rwa [hnil] at h
    | cons c q =>
      rw [read]
      split_ifs with hD hlt h10
      · have h : Took killed target (n + 1) dst (c :: q) [] (C 'D' :: q) (.out ((target : ℤ) - (n + 1 : ℕ)) (dst ++ [])) :=
          .held (by rw [hD]; rfl) plain_nil (Nat.succ_pos n) (by simp) (by omega)
        rw [hnil, ← hD] at h
        exact ⟨[], h⟩
      · have hr : (target : ℤ) - (n + 1 : ℕ) = 0 := by omega
        rw [hr]
        exact ⟨[], .eof (by rw [hD]) (by omega) (Nat.succ_pos n)⟩
      · rw [h10]
        exact ⟨[10], @Took.newline _ _ _ _ _ [] _ _ rfl plain_nil (Nat.succ_pos n) (by simp; omega)⟩
      · obtain ⟨new, hnew⟩ := ih (by omega) (dst ++ [c]) q (List.append_nil _)
        exact ⟨c :: new, hnew.cons (by omega) hD h10⟩

end Line

namespace Input

def unread (i : Input) : List UInt8 := Ring.view i.buf i.r.toNat (i.w - i.r).toNat

def edit (i : Input) : List UInt8 := Ring.view i.buf i.w.toNat (i.e - i.w).toNat

def line (i : Input) : Line := ⟨i.unread, i.edit⟩

structure Sane (i : Input) : Prop where
  count : (i.w - i.r).toNat + (i.e - i.w).toNat ≤ 128
  unended : 10 ∉ i.edit

variable {i : Input} {c : UInt8}

theorem modEq_sub (a b : UInt32) : b.toNat ≡ a.toNat + (b - a).toNat [MOD INPUT_BUF.toNat] := by
  have h1 := a.toNat_lt
  have h2 := b.toNat_lt
  rw [UInt32.toNat_sub, Nat.ModEq, toNat_INPUT_BUF]
  omega

theorem modEq_succ (a : UInt32) : a.toNat + 1 ≡ (a + 1).toNat [MOD INPUT_BUF.toNat] := by
  have h1 := a.toNat_lt
  rw [UInt32.toNat_add, UInt32.toNat_one, Nat.ModEq, toNat_INPUT_BUF]
  omega

theorem toNat_sub_add {a b c : UInt32} (h : (b - a).toNat + (c - b).toNat ≤ 128) : (c - a).toNat = (b - a).toNat + (c - b).toNat := by
  have h1 := a.toNat_lt
  have h2 := b.toNat_lt
  have h3 := c.toNat_lt
  simp only [UInt32.toNat_sub] at h ⊢
  omega

theorem toNat_succ_sub {a b : UInt32} (h : (b - a).toNat < 128) : (b + 1 - a).toNat = (b - a).toNat + 1 := by
  have h1 := a.toNat_lt
  have h2 := b.toNat_lt
  simp only [UInt32.toNat_sub, UInt32.toNat_add, UInt32.toNat_one] at h ⊢
  omega

theorem toNat_sub_succ {a b : UInt32} (h : b ≠ a) : (b - (a + 1)).toNat + 1 = (b - a).toNat := by
  have h0 : b.toNat ≠ a.toNat := fun e => h (UInt32.toNat_inj.mp e)
  have h1 := a.toNat_lt
  have h2 := b.toNat_lt
  simp only [UInt32.toNat_sub, UInt32.toNat_add, UInt32.toNat_one]
  omega

theorem toNat_pred_sub {a b : UInt32} (h : b ≠ a) : (b - 1 - a).toNat + 1 = (b - a).toNat := by
  have h0 : b.toNat ≠ a.toNat := fun e => h (UInt32.toNat_inj.mp e)
  have h1 := a.toNat_lt
  have h2 := b.toNat_lt
  simp only [UInt32.toNat_sub, UInt32.toNat_one]
  omega

theorem view_split (buf : Fin INPUT_BUF.toNat → UInt8) {a b c : UInt32} (h : (b - a).toNat + (c - b).toNat ≤ 128) :
    Ring.view buf a.toNat (c - a).toNat = Ring.view buf a.toNat (b - a).toNat ++ Ring.view buf b.toNat (c - b).toNat := by
  rw [toNat_sub_add h, Ring.view_add, Ring.view_congr buf (modEq_sub a b)]

theorem put_whole (h : (i.e - i.r).toNat < 128) (c : UInt8) :
    Ring.view (i.put c).buf i.r.toNat (i.e + 1 - i.r).toNat = Ring.view i.buf i.r.toNat (i.e - i.r).toNat ++ [c] := by
  have hcell : cell i.e = Fin.ofNat INPUT_BUF.toNat (i.r.toNat + (i.e - i.r).toNat) := Ring.ofNat_eq_iff.mpr (modEq_sub i.r i.e)
  rw [toNat_succ_sub h, put, hcell]
  exact Ring.view_push i.buf i.r.toNat h c

theorem length_unread (i : Input) : i.unread.length = (i.w - i.r).toNat := Ring.view_length ..

theorem length_edit (i : Input) : i.edit.length = (i.e - i.w).toNat := Ring.view_length ..

theorem line_put (h : (i.w - i.r).toNat + (i.e - i.w).toNat < 128) (c : UInt8) :
    (i.put c).unread = i.unread ∧ (i.put c).edit = i.edit ++ [c] := by
  have hsum := toNat_sub_add h.le
  have hsucc : (i.e + 1 - i.w).toNat = (i.e - i.w).toNat + 1 := toNat_succ_sub (by omega)
  have hwhole := put_whole (i := i) (by omega) c
  rw [view_split _ h.le, view_split _ (b := i.w) (by omega), List.append_assoc] at hwhole
  refine List.append_inj hwhole ?_
  rw [length_unread, length_unread]
  rfl

theorem edit_concat (h : i.e ≠ i.w) : i.edit = ({ i with e := i.e - 1 } : Input).edit ++ [i.buf (cell (i.e - 1))] := by
  have hcell : cell (i.e - 1) = Fin.ofNat INPUT_BUF.toNat (i.w.toNat + (i.e - 1 - i.w).toNat) := Ring.ofNat_eq_iff.mpr (modEq_sub i.w (i.e - 1))
  rw [edit, edit, ← toNat_pred_sub h, Ring.view_succ, hcell]

theorem edit_eq_nil (h : i.e = i.w) : i.edit = [] := by
  apply List.eq_nil_of_length_eq_zero
  rw [length_edit, h, UInt32.sub_self]
  rfl

theorem sane_pred (h : i.Sane) (he : i.e ≠ i.w) : ({ i with e := i.e - 1 } : Input).Sane where
  count := by
    have := toNat_pred_sub he
    have := h.count
    dsimp only
    omega
  unended hm := h.unended (by rw [edit_concat he]; exact List.mem_append_left _ hm)

theorem killLine_spec {n : ℕ} (h : i.Sane) (hn : (i.e - i.w).toNat ≤ n) :
    (i.killLine n).line = { i.line with edit := [] } ∧ (i.killLine n).Sane := by
  induction n generalizing i with
  | zero =>
    have hnil : i.edit = [] := List.eq_nil_of_length_eq_zero (by rw [length_edit]; omega)
    refine ⟨?_, h⟩
    rw [killLine, line, hnil]
  | succ n ih =>
    rw [killLine]
    split_ifs with hc
    · have hpred := toNat_pred_sub hc.1
      exact ih (sane_pred h hc.1) (by dsimp only; omega)
    · have he : i.e = i.w := by
        by_contra he
        refine hc ⟨he, fun h10 => h.unended ?_⟩
        rw [edit_concat he, h10]
        simp
      refine ⟨?_, h⟩
      rw [line, edit_eq_nil he]

theorem sane_put (h : i.Sane) (hlt : (i.w - i.r).toNat + (i.e - i.w).toNat < 128) (hc : c ≠ 10) : (i.put c).Sane where
  count := by
    have hsucc : (i.e + 1 - i.w).toNat = (i.e - i.w).toNat + 1 := toNat_succ_sub (by omega)
    change (i.w - i.r).toNat + (i.e + 1 - i.w).toNat ≤ 128
    omega
  unended := by
    rw [(line_put hlt c).2, List.mem_append, List.mem_singleton]
    exact not_or.mpr ⟨h.unended, hc.symm⟩

theorem commit_spec (h : (i.w - i.r).toNat + (i.e - i.w).toNat ≤ 128) :
    ({ i with w := i.e } : Input).line = ⟨i.unread ++ i.edit, []⟩ ∧ ({ i with w := i.e } : Input).Sane := by
  have hnil : ({ i with w := i.e } : Input).edit = [] := edit_eq_nil rfl
  refine ⟨?_, ?_, ?_⟩
  · rw [line, hnil]
    congr 1
    exact view_split i.buf h
  · dsimp only
    rw [UInt32.sub_self, toNat_sub_add h]
    exact h
  · rw [hnil]
    exact List.not_mem_nil

theorem consoleintr_line (h : i.Sane) (c : UInt8) : (i.consoleintr c).1.line = i.line.key c ∧ (i.consoleintr c).1.Sane := by
  have hcount := h.count
  have hsum := toNat_sub_add hcount
  have hlen : i.line.unread.length + i.line.edit.length = (i.e - i.r).toNat := by
    rw [hsum, ← length_unread, ← length_edit]
    rfl
  have hfree : i.e - i.r < INPUT_BUF ↔ i.line.unread.length + i.line.edit.length < 128 := by
    rw [UInt32.lt_iff_toNat_lt, hlen]
    rfl
  have hfull : ∀ c, (i.put c).e = (i.put c).r + INPUT_BUF ↔ i.line.unread.length + i.line.edit.length + 1 = 128 := by
    intro c
    rw [hlen, ← UInt32.toNat_inj]
    change (i.e + 1).toNat = (i.r + 128).toNat ↔ _
    have h1 := i.e.toNat_lt
    have h2 := i.r.toNat_lt
    simp only [UInt32.toNat_sub, UInt32.toNat_add, UInt32.toNat_one] at hsum ⊢
    have h128 : (128 : UInt32).toNat = 128 := rfl
    rw [h128]
    omega
  unfold consoleintr Line.key
  by_cases hP : c = C 'P'
  · rw [if_pos hP, if_pos hP]
    exact ⟨rfl, h⟩
  rw [if_neg hP, if_neg hP]
  by_cases hU : c = C 'U'
  · rw [if_pos hU, if_pos hU]
    exact killLine_spec h (le_refl _)
  rw [if_neg hU, if_neg hU]
  by_cases hH : c = C 'H' ∨ c = 127
  · rw [if_pos hH, if_pos hH]
    by_cases he : i.e = i.w
    · rw [if_neg (not_not.mpr he), line, edit_eq_nil he]
      exact ⟨rfl, h⟩
    · rw [if_pos he, line, line, edit_concat he, List.dropLast_concat]
      exact ⟨rfl, sane_pred h he⟩
  rw [if_neg hH, if_neg hH]
  by_cases hroom : c ≠ 0 ∧ i.e - i.r < INPUT_BUF
  · have hlt : (i.w - i.r).toNat + (i.e - i.w).toNat < 128 := by
      have := hfree.mp hroom.2
      rwa [hlen, hsum] at this
    have hroom' : c ≠ 0 ∧ i.line.unread.length + i.line.edit.length < 128 := by rwa [← hfree]
    rw [if_pos hroom, if_pos hroom']
    dsimp only
    generalize (if c = 13 then (10 : UInt8) else c) = d
    obtain ⟨hunread, hedit⟩ := line_put hlt d
    by_cases hend : d = 10 ∨ d = C 'D' ∨ i.line.unread.length + i.line.edit.length + 1 = 128
    · have hend' : d = 10 ∨ d = C 'D' ∨ (i.put d).e = (i.put d).r + INPUT_BUF := by rwa [hfull d]
      have hsucc : (i.e + 1 - i.w).toNat = (i.e - i.w).toNat + 1 := toNat_succ_sub (by omega)
      have hcommit := commit_spec (i := i.put d) (by change (i.w - i.r).toNat + (i.e + 1 - i.w).toNat ≤ 128; omega)
      rw [hunread, hedit] at hcommit
      rw [if_pos hend', if_pos hend]
      exact hcommit
    · have hend' : ¬ (d = 10 ∨ d = C 'D' ∨ (i.put d).e = (i.put d).r + INPUT_BUF) := by rwa [hfull d]
      rw [if_neg hend', if_neg hend, line, hunread, hedit]
      exact ⟨rfl, sane_put h hlt (fun e => hend (.inl e))⟩
  · rw [if_neg hroom, if_neg (by rwa [hfree] at hroom)]
    exact ⟨rfl, h⟩

theorem unread_cons (h : i.r ≠ i.w) : i.unread = i.buf (cell i.r) :: ({ i with r := i.r + 1 } : Input).unread := by
  rw [unread, ← toNat_sub_succ h.symm, Ring.view_cons, Ring.view_congr i.buf (modEq_succ i.r)]
  rfl

theorem unread_eq_nil (h : i.r = i.w) : i.unread = [] := by
  apply List.eq_nil_of_length_eq_zero
  rw [length_unread, h, UInt32.sub_self]
  rfl

theorem sane_succ (h : i.Sane) (hr : i.r ≠ i.w) : ({ i with r := i.r + 1 } : Input).Sane where
  count := by
    have := toNat_sub_succ hr.symm
    have := h.count
    dsimp only
    omega
  unended := h.unended

theorem consoleread_line (h : i.Sane) (killed : Bool) (target n : ℕ) (dst : List UInt8) :
    (i.consoleread killed target n dst).1.unread = (Line.read killed target n dst i.unread).1 ∧
    (i.consoleread killed target n dst).2 = (Line.read killed target n dst i.unread).2 ∧
    (i.consoleread killed target n dst).1.Sane ∧ (i.consoleread killed target n dst).1.buf = i.buf ∧
    (i.consoleread killed target n dst).1.w = i.w ∧ (i.consoleread killed target n dst).1.e = i.e := by
  induction n generalizing i dst with
  | zero => exact ⟨rfl, rfl, h, rfl, rfl, rfl⟩
  | succ n ih =>
    by_cases hr : i.r = i.w
    · rw [consoleread, if_pos hr, unread_eq_nil hr]
      exact ⟨rfl, rfl, h, rfl, rfl, rfl⟩
    · have hsane := sane_succ h hr
      rw [consoleread, if_neg hr, unread_cons hr, Line.read]
      dsimp only
      by_cases hD : i.buf (cell i.r) = C 'D'
      · rw [if_pos hD, if_pos hD]
        by_cases hn : n + 1 < target
        · have hback : ({ i with r := i.r + 1 - 1 } : Input) = i := by
            rw [UInt32.add_sub_cancel]
          rw [if_pos hn, if_pos hn, hback]
          exact ⟨unread_cons hr, rfl, h, rfl, rfl, rfl⟩
        · rw [if_neg hn, if_neg hn]
          exact ⟨rfl, rfl, hsane, rfl, rfl, rfl⟩
      · rw [if_neg hD, if_neg hD]
        by_cases h10 : i.buf (cell i.r) = 10
        · rw [if_pos h10, if_pos h10]
          exact ⟨rfl, rfl, hsane, rfl, rfl, rfl⟩
        · rw [if_neg h10, if_neg h10]
          exact ih hsane _

theorem killLine_same (n : ℕ) : (i.killLine n).buf = i.buf ∧ (i.killLine n).r = i.r ∧ (i.killLine n).w = i.w := by
  induction n generalizing i with
  | zero => exact ⟨rfl, rfl, rfl⟩
  | succ n ih =>
    rw [killLine]
    split_ifs
    · exact ih
    · exact ⟨rfl, rfl, rfl⟩

theorem consoleintr_edit (hc : c = C 'U' ∨ c = C 'H' ∨ c = 127) :
    (i.consoleintr c).1.buf = i.buf ∧ (i.consoleintr c).1.r = i.r ∧ (i.consoleintr c).1.w = i.w := by
  unfold consoleintr
  have hP : c ≠ C 'P' := by rcases hc with rfl | rfl | rfl <;> decide
  rw [if_neg hP]
  split_ifs with hU hH he
  · exact killLine_same _
  · exact ⟨rfl, rfl, rfl⟩
  · exact ⟨rfl, rfl, rfl⟩
  · exact absurd hc (not_or.mpr ⟨hU, hH⟩)
  · exact absurd hc (not_or.mpr ⟨hU, hH⟩)
  · exact absurd hc (not_or.mpr ⟨hU, hH⟩)

theorem unread_consoleintr (h : i.Sane) (c : UInt8) :
    (i.consoleintr c).1.unread = i.unread ++ Ring.view (i.consoleintr c).1.buf i.w.toNat ((i.consoleintr c).1.w - i.w).toNat := by
  have hsame : ∀ j : Input, j.buf = i.buf → j.r = i.r → j.w = i.w → j.unread = i.unread ++ Ring.view j.buf i.w.toNat (j.w - i.w).toNat := by
    intro j hb hr hw
    rw [unread, hb, hr, hw, UInt32.sub_self]
    exact (List.append_nil _).symm
  by_cases hc : c = C 'U' ∨ c = C 'H' ∨ c = 127
  · obtain ⟨hb, hr, hw⟩ := consoleintr_edit (i := i) hc
    exact hsame _ hb hr hw
  obtain ⟨hU, hH⟩ := not_or.mp hc
  unfold consoleintr
  rw [if_neg hU, if_neg hH]
  by_cases hP : c = C 'P'
  · rw [if_pos hP]
    exact hsame _ rfl rfl rfl
  rw [if_neg hP]
  by_cases hroom : c ≠ 0 ∧ i.e - i.r < INPUT_BUF
  · have hsum := toNat_sub_add h.count
    have hlt : (i.w - i.r).toNat + (i.e - i.w).toNat < 128 := by
      have := UInt32.lt_iff_toNat_lt.mp hroom.2
      rwa [hsum] at this
    rw [if_pos hroom]
    dsimp only
    generalize (if c = 13 then (10 : UInt8) else c) = d
    have hput := (line_put hlt d).1
    split_ifs
    · have hsucc : (i.e + 1 - i.w).toNat = (i.e - i.w).toNat + 1 := toNat_succ_sub (by omega)
      rw [← hput]
      exact view_split (i.put d).buf (a := i.r) (b := i.w) (c := i.e + 1) (by omega)
    · change (i.put d).unread = i.unread ++ Ring.view _ i.w.toNat (i.w - i.w).toNat
      rw [hput, UInt32.sub_self]
      exact (List.append_nil _).symm
  · rw [if_neg hroom]
    exact hsame _ rfl rfl rfl

end Input

structure Tape where
  committed : List UInt8 := []
  consumed : List UInt8 := []

variable {P : Type*} [DecidableEq P]

def Tape.record (g : Tape) (s : State P) : Label P → State P → Tape
  | .key _, t => { g with committed := g.committed ++ Ring.view t.input.buf s.input.w.toNat (t.input.w - s.input.w).toNat }
  | .run _ _, t => { g with consumed := g.consumed ++ Ring.view s.input.buf s.input.r.toNat (t.input.r - s.input.r).toNat }
  | _, _ => g

def tapeMachine (P : Type*) [DecidableEq P] : Machine (State P × Tape) (Label P) := (machine P).history {} Tape.record

structure InOrder (s : State P) (g : Tape) : Prop where
  sane : s.input.Sane
  order : g.consumed ++ s.input.unread = g.committed
  going : ∀ p, (s.reader p).Going

namespace InOrder

variable {s t : State P} {g : Tape} {p : P}

theorem Going.wakeup {x : Reader} (h : x.Going) : x.wakeup.Going := by
  cases x <;> exact h

theorem going_set (h : ∀ p, (s.reader p).Going) {x : Reader} (hx : x.Going) (q : P) : ((s.setReader p x).reader q).Going := by
  by_cases e : q = p
  · rw [e, State.setReader_self]
    exact hx
  · rw [State.setReader_of_ne _ _ e]
    exact h q

theorem key (h : InOrder s g) {c : UInt8} (hs : s.step (.key c) = some t) : InOrder t (g.record s (.key c) t) := by
  cases hs
  refine ⟨(Input.consoleintr_line h.sane c).2, ?_, fun p => ?_⟩
  · change g.consumed ++ (s.input.consoleintr c).1.unread = g.committed ++ _
    rw [Input.unread_consoleintr h.sane, ← h.order, List.append_assoc]
  · dsimp only
    split_ifs
    · exact Going.wakeup (h.going p)
    · exact h.going p

theorem run (h : InOrder s g) {target n : ℕ} {dst : List UInt8} (hp : s.reader p = .read target n dst) (killed : Bool) :
    ∃ t new, s.step (.run p killed) = some t ∧ InOrder t (g.record s (.run p killed) t) ∧
      Line.Took killed target n dst s.input.unread new t.input.unread (t.reader p) ∧
      ((g.record s (.run p killed) t).consumed = g.consumed ++ new ∨
        new = [] ∧ t.reader p = .out 0 dst ∧ (g.record s (.run p killed) t).consumed = g.consumed ++ [C 'D']) := by
  have hgoing : dst.length + n = target := by
    have := h.going p
    rwa [hp] at this
  obtain ⟨hunread, hreader, hsane, hbuf, hw, -⟩ := Input.consoleread_line h.sane killed target n dst
  obtain ⟨new, htook⟩ := Line.read_took killed (by omega : n ≤ target) dst s.input.unread
  rw [← hunread, ← hreader] at htook
  generalize hx : s.input.consoleread killed target n dst = x at hunread hreader hsane hbuf hw htook
  obtain ⟨j, y⟩ := x
  -- what `r` has moved over is what the queue has lost
  have hlen : (s.input.w - j.r).toNat ≤ (s.input.w - s.input.r).toNat := by
    have hle : j.unread.length ≤ s.input.unread.length := by
      obtain hq | ⟨-, -, hq⟩ := htook.split <;>
      · rw [hq, List.length_append]
        exact Nat.le_add_left _ _
    rw [Input.length_unread, Input.length_unread] at hle
    rwa [hw] at hle
  have hmoved : s.input.unread = Ring.view s.input.buf s.input.r.toNat (j.r - s.input.r).toNat ++ j.unread := by
    have hcount := h.sane.count
    have h1 := s.input.r.toNat_lt
    have h2 := j.r.toNat_lt
    have h3 := s.input.w.toNat_lt
    have hsplit := Input.view_split s.input.buf (a := s.input.r) (b := j.r) (c := s.input.w) (by
      simp only [UInt32.toNat_sub] at hlen hcount ⊢
      omega)
    rw [Input.unread, Input.unread, hbuf, hw]
    exact hsplit
  have hstep : s.step (.run p killed) = some ({ s with input := j }.setReader p y) := by
    simp only [State.step, hp, hx]
  refine ⟨_, new, hstep, ⟨hsane, ?_, going_set h.going (htook.going hgoing)⟩, ?_, ?_⟩
  · change g.consumed ++ Ring.view s.input.buf s.input.r.toNat (j.r - s.input.r).toNat ++ j.unread = g.committed
    rw [List.append_assoc, ← hmoved]
    exact h.order
  · rw [State.setReader_self]
    exact htook
  · rw [State.setReader_self]
    change g.consumed ++ Ring.view s.input.buf s.input.r.toNat (j.r - s.input.r).toNat = _ ∨ _ ∧ _ ∧
      g.consumed ++ Ring.view s.input.buf s.input.r.toNat (j.r - s.input.r).toNat = _
    obtain hq | ⟨hnew, hy, hq⟩ := htook.split
    · left
      rw [List.append_cancel_right (hmoved.symm.trans hq)]
    · right
      refine ⟨hnew, hy, ?_⟩
      rw [List.append_cancel_right (hmoved.symm.trans hq)]

theorem step (h : InOrder s g) {l : Label P} (hs : s.step l = some t) : InOrder t (g.record s l t) := by
  cases l with
  | key c => exact h.key hs
  | call p n =>
    rw [State.step] at hs
    split at hs
    · cases hs
      exact ⟨h.sane, h.order, going_set h.going (Nat.zero_add n)⟩
    · cases hs
  | run p killed =>
    cases hp : s.reader p with
    | read target n dst =>
      obtain ⟨u, new, hu, ho, -⟩ := h.run hp killed
      rw [hu] at hs
      cases hs
      exact ho
    | out ret dst => simp [State.step, hp] at hs
    | sleep target n dst => simp [State.step, hp] at hs
  | wake p =>
    cases hs
    exact ⟨h.sane, h.order, going_set h.going (Going.wakeup (h.going p))⟩

end InOrder

theorem reachable_inOrder {x : State P × Tape} (h : (tapeMachine P).Reachable x) : InOrder x.1 x.2 := by
  refine Reachable.invariant (P := fun x => InOrder x.1 x.2) h ?_ ?_
  · rintro ⟨s, g⟩ ⟨hs, hg⟩
    obtain rfl : s = {} := hs
    obtain rfl : g = {} := hg
    have hempty : ({} : Input).Sane := ⟨by decide, List.not_mem_nil⟩
    exact ⟨hempty, Input.unread_eq_nil rfl, fun _ => trivial⟩
  · intro x l y ho hn
    obtain ⟨hs, hg⟩ := history_next (M := machine P) hn
    rw [hg]
    exact ho.step hs

theorem console_line_discipline (x : State P × Tape) (h : (tapeMachine P).Reachable x) :
    x.1.input.w - x.1.input.r ≤ x.1.input.e - x.1.input.r ∧ x.1.input.e - x.1.input.r ≤ INPUT_BUF ∧
    x.2.consumed ++ x.1.input.unread = x.2.committed ∧
    (∀ c, c = C 'U' ∨ c = C 'H' ∨ c = 127 → (x.1.input.consoleintr c).1.r = x.1.input.r ∧ (x.1.input.consoleintr c).1.w = x.1.input.w ∧
      (x.1.input.consoleintr c).1.unread = x.1.input.unread) ∧
    (∀ p killed target n dst, x.1.reader p = .read target n dst → ∃ y new, (tapeMachine P).next x (.run p killed) = some y ∧
      Line.Took killed target n dst x.1.input.unread new y.1.input.unread (y.1.reader p) ∧
      (y.2.consumed = x.2.consumed ++ new ∨ new = [] ∧ y.1.reader p = .out 0 dst ∧ y.2.consumed = x.2.consumed ++ [C 'D'])) ∧
    ∀ p killed target rest, x.1.reader p = .read target target [] → 0 < target → x.1.input.unread = C 'D' :: rest →
      ∃ y, (tapeMachine P).next x (.run p killed) = some y ∧ y.1.reader p = .out 0 [] ∧ y.1.input.unread = rest := by
  have ho := reachable_inOrder h
  have hsum := Input.toNat_sub_add ho.sane.count
  refine ⟨?_, ?_, ho.order, fun c hc => ?_, fun p killed target n dst hp => ?_, fun p killed target rest hp h0 hD => ?_⟩
  · rw [UInt32.le_iff_toNat_le, hsum]
    exact Nat.le_add_right _ _
  · rw [UInt32.le_iff_toNat_le, hsum]
    exact ho.sane.count
  · obtain ⟨hb, hr, hw⟩ := Input.consoleintr_edit (i := x.1.input) hc
    refine ⟨hr, hw, ?_⟩
    rw [Input.unread, Input.unread, hb, hr, hw]
  · obtain ⟨t, new, ht, -, htook, hcons⟩ := ho.run hp killed
    exact ⟨(t, x.2.record x.1 (.run p killed) t), new, congrArg (Option.map _) ht, htook, hcons⟩
  · obtain ⟨t, new, ht, -, htook, -⟩ := ho.run hp killed
    refine ⟨(t, x.2.record x.1 (.run p killed) t), congrArg (Option.map _) ht, ?_⟩
    rw [hD] at htook
    exact htook.of_eof h0

theorem console_line_discipline_eof : ∃ x : State (Fin 1) × Tape, x.1.reader 0 = .out 0 [] ∧ x.2.consumed = [97, 4] ∧
    x.2.consumed ++ x.1.input.unread = [97, 4, 98, 10] := by
  obtain ⟨x, hx, hP⟩ := exists_reachable (M := tapeMachine (Fin 1)) (s := ({}, {}))
    (w := [.key 97, .key 99, .key 8, .key 4, .call 0 9, .run 0 false, .key 98, .key 13, .call 0 9, .run 0 false])
    (P := fun x => decide (x.1.reader 0 = .out 0 [] ∧ x.2.consumed = [97, 4] ∧ x.2.committed = [97, 4, 98, 10]))
    ⟨rfl, rfl⟩ (by decide +kernel)
  obtain ⟨h0, h1, h2⟩ := of_decide_eq_true hP
  exact ⟨x, h0, h1, (console_line_discipline x hx).2.2.1.trans h2⟩

end EnhancedXv6.Console
