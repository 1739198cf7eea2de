import EnhancedXv6.ShellParse

namespace EnhancedXv6.Shell

open Bytes

section Grammar

structure Redirection where
  file : ℕ
  efile : ℕ
  mode : ℕ
  fd : ℕ

def wrap (c : Cmd) (x : Redirection) : Cmd := .redir c x.file x.efile x.mode x.fd

inductive Redirs : List Tok → List Redirection → Prop
  | nil : Redirs [] []
  | cons {σ : Symbol} {m : ℕ × ℕ} {q e : ℕ} {ts : List Tok} {xs : List Redirection} (hσ : Tokens.mode σ = some m) (h : Redirs ts xs) :
    Redirs (.sym σ :: .word q e :: ts) (⟨q, e, m.1, m.2⟩ :: xs)

inductive Args : List Tok → List (ℕ × ℕ) → List Redirection → Prop
  | nil : Args [] [] []
  | cons {q e : ℕ} {ts us : List Tok} {ws : List (ℕ × ℕ)} {xs ys : List Redirection} (h : Redirs ts xs) (h' : Args us ws ys) :
    Args (.word q e :: (ts ++ us)) ((q, e) :: ws) (xs ++ ys)

def pointers (ps : List ℕ) : List (Option ℕ) := ps.map some ++ List.replicate (MAXARGS - ps.length) none

def execOf (ws : List (ℕ × ℕ)) : Cmd := .exec (pointers (ws.map Prod.fst)) (pointers (ws.map Prod.snd))

inductive Nonterminal
  | line
  | pipe
  | exec

inductive Derives : Nonterminal → List Tok → Cmd → Prop
  | last {ts : List Tok} {c : Cmd} (n : ℕ) (h : Derives .pipe ts c) :
    Derives .line (ts ++ List.replicate n (.sym .amp)) (Cmd.back^[n] c)
  | seq {ts us : List Tok} {c d : Cmd} (n : ℕ) (h : Derives .pipe ts c) (h' : Derives .line us d) :
    Derives .line (ts ++ (List.replicate n (.sym .amp) ++ .sym .semi :: us)) (.list (Cmd.back^[n] c) d)
  | one {ts : List Tok} {c : Cmd} (h : Derives .exec ts c) : Derives .pipe ts c
  | bar {ts us : List Tok} {c d : Cmd} (h : Derives .exec ts c) (h' : Derives .pipe us d) :
    Derives .pipe (ts ++ .sym .bar :: us) (.pipe c d)
  | block {ts us : List Tok} {c : Cmd} {xs : List Redirection} (h : Derives .line ts c) (h' : Redirs us xs) :
    Derives .exec (.sym .lpar :: (ts ++ .sym .rpar :: us)) (xs.foldl wrap c)
  | simple {ts us : List Tok} {ws : List (ℕ × ℕ)} {xs ys : List Redirection} (h : Redirs ts xs) (h' : Args us ws ys)
    (hn : ws.length ≤ MAXARGS - 1) : Derives .exec (ts ++ us) ((xs ++ ys).foldl wrap (execOf ws))

end Grammar

section Store

variable {ws : List (ℕ × ℕ)}

theorem store_wrap (xs : List Redirection) (c : Cmd) (argc : ℕ) (q e : Option ℕ) :
    (xs.foldl wrap c).store argc q e = xs.foldl wrap (c.store argc q e) := by
  induction xs generalizing c with
  | nil => rfl
  | cons x xs ih => exact ih (wrap c x)

theorem pointers_snoc (ps : List ℕ) (h : ps.length < MAXARGS) (x : ℕ) : (pointers ps).set ps.length (some x) = pointers (ps ++ [x]) := by
  obtain ⟨k, hk⟩ : ∃ k, MAXARGS - ps.length = k + 1 := ⟨MAXARGS - ps.length - 1, by omega⟩
  have hk' : MAXARGS - (ps ++ [x]).length = k := by
    rw [List.length_append, List.length_singleton]
    omega
  unfold pointers
  rw [hk, hk', List.set_append_right _ _ (by rw [List.length_map]), List.length_map, Nat.sub_self, List.map_append, List.append_assoc]
  rfl

theorem pointers_null (ps : List ℕ) (h : ps.length < MAXARGS) : (pointers ps).set ps.length none = pointers ps := by
  obtain ⟨k, hk⟩ : ∃ k, MAXARGS - ps.length = k + 1 := ⟨MAXARGS - ps.length - 1, by omega⟩
  unfold pointers
  rw [hk, List.set_append_right _ _ (by rw [List.length_map]), List.length_map, Nat.sub_self]
  rfl

theorem store_word (h : ws.length < MAXARGS) (q e : ℕ) : (execOf ws).store ws.length (some q) (some e) = execOf (ws ++ [(q, e)]) := by
  have h1 := pointers_snoc (ws.map Prod.fst) (by rwa [List.length_map]) q
  have h2 := pointers_snoc (ws.map Prod.snd) (by rwa [List.length_map]) e
  rw [List.length_map] at h1 h2
  rw [execOf, Cmd.store, h1, h2, execOf, List.map_append, List.map_append]
  rfl

theorem store_null (h : ws.length < MAXARGS) : (execOf ws).store ws.length none none = execOf ws := by
  have h1 := pointers_null (ws.map Prod.fst) (by rwa [List.length_map])
  have h2 := pointers_null (ws.map Prod.snd) (by rwa [List.length_map])
  rw [List.length_map] at h1 h2
  rw [execOf, Cmd.store, h1, h2]

end Store

section Soundness

variable (ts : List Tok) {n : ℕ}

def Meets (r : Tokens.Parse) (Q : Cmd → List Tok → Prop) : Prop := match r with
  | .ok (c, ts) => Q c ts
  | .error e => ∃ msg, e = .panic msg

theorem Meets.bind {r : Tokens.Parse} {f : Cmd × List Tok → Tokens.Parse} {Q R : Cmd → List Tok → Prop} (h : Meets r Q)
    (hf : ∀ c ts, Q c ts → Meets (f (c, ts)) R) : Meets (r >>= f) R := by
  cases r with
  | error e => exact h
  | ok r => exact hf r.1 r.2 h

theorem Meets.mono {r : Tokens.Parse} {Q R : Cmd → List Tok → Prop} (h : Meets r Q) (hf : ∀ c ts, Q c ts → R c ts) : Meets r R := by
  cases r with
  | error e => exact h
  | ok r => exact hf r.1 r.2 h

theorem redirs_sound (hn : ts.length < n) (cmd : Cmd) :
    Meets (Tokens.redirs n cmd ts) (fun c us => ∃ vs xs, ts = vs ++ us ∧ Redirs vs xs ∧ c = xs.foldl wrap cmd) := by
  induction n generalizing ts cmd with
  | zero => exact absurd hn (Nat.not_lt_zero _)
  | succ n ih =>
    cases ts with
    | nil => exact ⟨[], [], rfl, .nil, rfl⟩
    | cons t ts =>
      cases t with
      | word q e => exact ⟨[], [], rfl, .nil, rfl⟩
      | sym σ =>
        rw [Tokens.redirs]
        cases hm : Tokens.mode σ with
        | none => exact ⟨[], [], rfl, .nil, rfl⟩
        | some m =>
          dsimp only
          split
          · next q e ts =>
            rw [List.length_cons, List.length_cons] at hn
            apply (ih ts (by omega) _).mono
            rintro c us ⟨vs, xs, rfl, hvs, rfl⟩
            exact ⟨.sym σ :: .word q e :: vs, _, rfl, .cons hm hvs, rfl⟩
          · exact ⟨_, rfl⟩

theorem closeArgs_eq {ws : List (ℕ × ℕ)} (hws : ws.length < MAXARGS) (xs : List Redirection) (us : List Tok) :
    closeArgs ws.length (xs.foldl wrap (execOf ws)) us = .ok (xs.foldl wrap (execOf ws), us) := by
  rw [closeArgs, if_neg (Nat.not_le.mpr hws), store_wrap, store_null hws]

theorem args_sound (hn : ts.length < n) (ws : List (ℕ × ℕ)) (hws : ws.length < MAXARGS) (xs : List Redirection) :
    Meets (Tokens.args n ws.length (xs.foldl wrap (execOf ws)) ts) (fun c us => ∃ vs ws' ys, ts = vs ++ us ∧ Args vs ws' ys ∧
      (ws ++ ws').length ≤ MAXARGS - 1 ∧ c = (xs ++ ys).foldl wrap (execOf (ws ++ ws'))) := by
  induction n generalizing ts ws xs with
  | zero => exact absurd hn (Nat.not_lt_zero _)
  | succ n ih =>
    have hstop (us : List Tok) : Meets (closeArgs ws.length (xs.foldl wrap (execOf ws)) us) (fun c us' => ∃ vs ws' ys, us = vs ++ us' ∧
        Args vs ws' ys ∧ (ws ++ ws').length ≤ MAXARGS - 1 ∧ c = (xs ++ ys).foldl wrap (execOf (ws ++ ws'))) := by
      rw [closeArgs_eq hws]
      refine ⟨[], [], [], rfl, .nil, ?_, ?_⟩
      · rw [List.append_nil]
        omega
      · rw [List.append_nil, List.append_nil]
    cases ts with
    | nil => exact hstop []
    | cons t ts =>
      rw [List.length_cons] at hn
      cases t with
      | sym σ =>
        rw [Tokens.args]
        split_ifs
        · exact hstop _
        · exact ⟨_, rfl⟩
      | word q e =>
        rw [Tokens.args, if_neg (Nat.not_le.mpr hws), store_wrap, store_word hws]
        split_ifs with hmany
        · exact ⟨_, rfl⟩
        · apply (redirs_sound ts (by omega) _).bind
          rintro c us ⟨vs, ys, rfl, hvs, rfl⟩
          rw [List.length_append] at hn
          have hlen : (ws ++ [(q, e)]).length = ws.length + 1 := by rw [List.length_append, List.length_singleton]
          have h := ih us (by omega) (ws ++ [(q, e)]) (by omega) (xs ++ ys)
          rw [hlen, List.foldl_append] at h
          apply h.mono
          rintro c us ⟨vs', ws', zs, rfl, hargs, hle, rfl⟩
          refine ⟨.word q e :: (vs ++ vs'), (q, e) :: ws', ys ++ zs, ?_, .cons hvs hargs, ?_, ?_⟩
          · rw [List.cons_append, List.append_assoc]
          · rwa [List.append_cons]
          · rw [List.append_cons ws (q, e) ws', List.append_assoc xs ys zs]

theorem exec_sound {f : List Tok → Tokens.Parse} (hn : ts.length < n)
    (hf : ∀ us, us.length < ts.length → Meets (f us) (fun c vs => ∃ ws, us = ws ++ vs ∧ Derives .line ws c)) :
    Meets (Tokens.exec f n ts) (fun c us => ∃ vs, ts = vs ++ us ∧ Derives .exec vs c) := by
  unfold Tokens.exec
  cases he : Tokens.expect .lpar ts with
  | some us =>
    obtain rfl := expect_eq_some.mp he
    rw [List.length_cons] at hn hf
    dsimp only
    rw [Tokens.block, he]
    apply (hf us (Nat.lt_succ_self _)).bind
    rintro c vs ⟨ws, rfl, hline⟩
    dsimp only
    cases he' : Tokens.expect .rpar vs with
    | none => exact ⟨_, rfl⟩
    | some us =>
      obtain rfl := expect_eq_some.mp he'
      rw [List.length_append, List.length_cons] at hn
      apply (redirs_sound us (by omega) c).mono
      rintro c us ⟨vs, xs, rfl, hxs, rfl⟩
      refine ⟨_, ?_, .block hline hxs⟩
      simp
  | none =>
    apply (redirs_sound ts hn _).bind
    rintro c us ⟨vs, xs, rfl, hxs, rfl⟩
    rw [List.length_append] at hn
    apply (args_sound us (n := n) (by omega) [] (by decide) xs).mono
    rintro c us ⟨vs', ws, ys, rfl, hargs, hle, rfl⟩
    refine ⟨_, ?_, .simple hxs hargs hle⟩
    rw [List.append_assoc]

theorem pipe_sound {f : List Tok → Tokens.Parse} {m : ℕ} (hm : ts.length ≤ m) (hn : ts.length < n)
    (hf : ∀ us, us.length < m → Meets (f us) (fun c vs => ∃ ws, us = ws ++ vs ∧ Derives .line ws c)) :
    Meets (Tokens.pipe f n ts) (fun c us => ∃ vs, ts = vs ++ us ∧ Derives .pipe vs c) := by
  induction n generalizing ts with
  | zero => exact absurd hn (Nat.not_lt_zero _)
  | succ n ih =>
    rw [Tokens.pipe]
    apply (exec_sound ts hn (fun us hus => hf us (Nat.lt_of_lt_of_le hus hm))).bind
    rintro c us ⟨vs, rfl, hexec⟩
    dsimp only
    cases he : Tokens.expect .bar us with
    | none => exact ⟨vs, rfl, .one hexec⟩
    | some us =>
      obtain rfl := expect_eq_some.mp he
      rw [List.length_append, List.length_cons] at hm hn
      apply (ih us (by omega) (by omega)).bind
      rintro d us ⟨vs', rfl, hpipe⟩
      refine ⟨_, ?_, .bar hexec hpipe⟩
      rw [List.append_assoc, List.cons_append]

theorem back_sound (hn : ts.length < n) (cmd : Cmd) :
    Meets (Tokens.back n cmd ts) (fun c us => ∃ k, ts = List.replicate k (.sym .amp) ++ us ∧ c = Cmd.back^[k] cmd) := by
  induction n generalizing ts cmd with
  | zero => exact absurd hn (Nat.not_lt_zero _)
  | succ n ih =>
    rw [Tokens.back]
    cases he : Tokens.expect .amp ts with
    | none => exact ⟨0, rfl, rfl⟩
    | some us =>
      obtain rfl := expect_eq_some.mp he
      rw [List.length_cons] at hn
      apply (ih us (by omega) _).mono
      rintro c us ⟨k, rfl, rfl⟩
      exact ⟨k + 1, rfl, rfl⟩

theorem line_sound (hn : ts.length < n) : Meets (Tokens.line n ts) (fun c us => ∃ vs, ts = vs ++ us ∧ Derives .line vs c) := by
  induction n generalizing ts with
  | zero => exact absurd hn (Nat.not_lt_zero _)
  | succ n ih =>
    rw [Tokens.line]
    apply (pipe_sound ts (m := n) (by omega) hn (fun us hus => ih us hus)).bind
    rintro c us ⟨vs, rfl, hpipe⟩
    rw [List.length_append] at hn
    apply (back_sound us (by omega) c).bind
    rintro d us ⟨k, rfl, rfl⟩
    dsimp only
    cases he : Tokens.expect .semi us with
    | none =>
      refine ⟨_, ?_, .last k hpipe⟩
      rw [List.append_assoc]
    | some us =>
      obtain rfl := expect_eq_some.mp he
      rw [List.length_append, List.length_cons] at hn
      apply (ih us (by omega)).bind
      rintro d us ⟨vs', rfl, hline⟩
      refine ⟨_, ?_, .seq k hpipe hline⟩
      simp

end Soundness

section Completeness

variable {ts us r : List Tok} {n : ℕ} {S : List Symbol} {ys : List Redirection}

def StartsIn (S : List Symbol) (r : List Tok) : Prop := ∀ t us, r = t :: us → ∃ σ ∈ S, t = .sym σ

def Nonterminal.follow : Nonterminal → List Symbol
  | .line => [.rpar]
  | .pipe => [.rpar, .amp, .semi]
  | .exec => [.rpar, .amp, .semi, .bar]

theorem StartsIn.mono {S' : List Symbol} (h : StartsIn S r) (hS : S ⊆ S') : StartsIn S' r := by
  intro t us hr
  obtain ⟨σ, hσ, rfl⟩ := h t us hr
  exact ⟨σ, hS hσ, rfl⟩

theorem startsIn_cons {σ : Symbol} (hσ : σ ∈ S) (r : List Tok) : StartsIn S (.sym σ :: r) := by
  intro t us hr
  cases hr
  exact ⟨σ, hσ, rfl⟩

theorem StartsIn.expect_none (h : StartsIn S r) {σ : Symbol} (hσ : σ ∉ S) : Tokens.expect σ r = none := by
  cases he : Tokens.expect σ r with
  | none => rfl
  | some us =>
    obtain ⟨τ, hτ, he'⟩ := h _ _ (expect_eq_some.mp he)
    cases he'
    exact absurd hτ hσ

def Plain (r : List Tok) : Prop := ∀ σ us, r = .sym σ :: us → Tokens.mode σ = none

theorem StartsIn.plain (h : StartsIn Nonterminal.exec.follow r) : Plain r := by
  intro σ us hr
  obtain ⟨τ, hτ, he⟩ := h _ _ hr
  cases he
  cases σ <;> first | rfl | exact absurd hτ (by decide)

theorem redirs_complete {xs : List Redirection} (h : Redirs ts xs) (hr : Plain r) (hn : (ts ++ r).length < n) (cmd : Cmd) :
    Tokens.redirs n cmd (ts ++ r) = .ok (xs.foldl wrap cmd, r) := by
  induction h generalizing n cmd with
  | nil =>
    cases n with
    | zero => exact absurd hn (Nat.not_lt_zero _)
    | succ n => exact Tokens.redirs_done n cmd hr
  | cons hσ h ih =>
    rw [List.cons_append, List.cons_append, List.length_cons, List.length_cons] at hn
    cases n with
    | zero => exact absurd hn (Nat.not_lt_zero _)
    | succ n =>
      rw [List.cons_append, List.cons_append, Tokens.redirs, hσ]
      exact ih (by omega) _

theorem args_plain {ws : List (ℕ × ℕ)} (h : Args us ws ys) (hr : StartsIn Nonterminal.exec.follow r) :
    Plain (us ++ r) := by
  cases h with
  | nil => exact hr.plain
  | cons h h' =>
    intro σ vs he
    cases he

theorem args_complete (ws : List (ℕ × ℕ)) {ws' : List (ℕ × ℕ)} (h : Args ts ws' ys)
    (hr : StartsIn Nonterminal.exec.follow r) (hn : (ts ++ r).length < n) (hws : (ws ++ ws').length ≤ MAXARGS - 1) (xs : List Redirection) :
    Tokens.args n ws.length (xs.foldl wrap (execOf ws)) (ts ++ r) = .ok ((xs ++ ys).foldl wrap (execOf (ws ++ ws')), r) := by
  induction h generalizing n ws xs with
  | nil =>
    rw [List.append_nil] at hws
    cases n with
    | zero => exact absurd hn (Nat.not_lt_zero _)
    | succ n =>
      have hclose := closeArgs_eq (Nat.lt_of_le_of_lt hws (by decide)) xs r
      rw [List.nil_append, List.append_nil, List.append_nil]
      cases r with
      | nil => exact hclose
      | cons t r =>
        obtain ⟨σ, hσ, rfl⟩ := hr t r rfl
        have hin : σ ∈ [Symbol.bar, .rpar, .amp, .semi] := by
          cases σ <;> first | decide | exact absurd hσ (by decide)
        rw [Tokens.args, if_pos hin]
        exact hclose
  | @cons q e ts us ws' ys zs h h' ih =>
    rw [List.cons_append, List.append_assoc, List.length_cons] at hn
    have hn' : (us ++ r).length < n - 1 := by
      rw [List.length_append] at hn
      omega
    have hlen : (ws ++ [(q, e)]).length = ws.length + 1 := by rw [List.length_append, List.length_singleton]
    rw [List.append_cons] at hws ⊢
    have hle : ws.length + 1 ≤ MAXARGS - 1 := by
      rw [List.length_append, hlen] at hws
      omega
    cases n with
    | zero => exact absurd hn (Nat.not_lt_zero _)
    | succ n =>
      have hargs := ih _ hn' hws (xs ++ ys)
      rw [hlen, List.foldl_append] at hargs
      rw [List.cons_append, List.append_assoc, Tokens.args, if_neg (by omega), if_neg (by omega), store_wrap, store_word (by omega),
        redirs_complete h (args_plain h' hr) (by omega), ← List.append_assoc xs ys zs]
      exact hargs

theorem back_complete (k : ℕ) (hr : Tokens.expect .amp r = none) (hn : (List.replicate k (Tok.sym .amp) ++ r).length < n) (cmd : Cmd) :
    Tokens.back n cmd (List.replicate k (.sym .amp) ++ r) = .ok (Cmd.back^[k] cmd, r) := by
  induction k generalizing n cmd with
  | zero =>
    cases n with
    | zero => exact absurd hn (Nat.not_lt_zero _)
    | succ n =>
      rw [List.replicate_zero, List.nil_append, Tokens.back, hr]
      rfl
  | succ k ih =>
    rw [List.replicate_succ, List.cons_append, List.length_cons] at hn
    cases n with
    | zero => exact absurd hn (Nat.not_lt_zero _)
    | succ n =>
      rw [List.replicate_succ, List.cons_append, Tokens.back, expect_eq_some.mpr rfl]
      exact ih (by omega) _

def Nonterminal.parse : Nonterminal → ℕ → ℕ → List Tok → Tokens.Parse
  | .line, _, n => Tokens.line n
  | .pipe, m, n => Tokens.pipe (Tokens.line m) n
  | .exec, m, n => Tokens.exec (Tokens.line m) n

theorem startsIn_back (k : ℕ) (hS : .amp ∈ S) (h : StartsIn S r) : StartsIn S (List.replicate k (.sym .amp) ++ r) := by
  cases k with
  | zero => exact h
  | succ k => exact startsIn_cons hS _

theorem line_eq {vs : List Tok} {c d : Cmd} (hp : Tokens.pipe (Tokens.line n) (n + 1) ts = .ok (c, us))
    (hb : Tokens.back (n + 1) c us = .ok (d, vs)) : Tokens.line (n + 1) ts = match Tokens.expect .semi vs with
      | none => .ok (d, vs)
      | some vs => do
        let (right, ts) ← Tokens.line n vs
        return (.list d right, ts) := by
  rw [Tokens.line, hp]
  change Tokens.back (n + 1) c us >>= _ = _
  rw [hb]
  rfl

theorem length_behind (ts : List Tok) (t : Tok) (us : List Tok) : us.length + 1 ≤ (ts ++ t :: us).length := by
  rw [List.length_append, List.length_cons]
  omega

theorem simple_expect {ws : List (ℕ × ℕ)} {xs : List Redirection} (h : Redirs ts xs) (h' : Args us ws ys)
    (hr : StartsIn Nonterminal.exec.follow r) : Tokens.expect .lpar (ts ++ us ++ r) = none := by
  cases h with
  | @cons σ m q e ts xs hσ h =>
    have hne : σ ≠ .lpar := by
      rintro rfl
      cases hσ
    exact if_neg hne
  | nil =>
    cases h' with
    | nil => exact hr.expect_none (by decide)
    | cons h h' => rfl

theorem complete {X : Nonterminal} {c : Cmd} (h : Derives X ts c) {m : ℕ} (hr : StartsIn X.follow r) (hm : (ts ++ r).length ≤ m)
    (hn : (ts ++ r).length < n) : X.parse m n (ts ++ r) = .ok (c, r) := by
  induction h generalizing m n r with
  | @last ts c k h ih =>
    cases n with
    | zero => exact absurd hn (Nat.not_lt_zero _)
    | succ n =>
      rw [List.append_assoc] at hn ⊢
      have hn' : (List.replicate k (Tok.sym .amp) ++ r).length < n + 1 := by
        rw [List.length_append] at hn
        omega
      have hpipe := ih (m := n) (startsIn_back k (by decide) (hr.mono (by decide))) (by omega) hn
      have hback := back_complete k (hr.expect_none (by decide)) hn' c
      rw [Nonterminal.parse, line_eq hpipe hback, hr.expect_none (by decide)]
  | @seq ts us c d k h h' ih ih' =>
    cases n with
    | zero => exact absurd hn (Nat.not_lt_zero _)
    | succ n =>
      rw [List.append_assoc, List.append_assoc, List.cons_append] at hn ⊢
      have hn' : (List.replicate k (Tok.sym .amp) ++ .sym .semi :: (us ++ r)).length < n + 1 := by
        rw [List.length_append] at hn
        omega
      have hn'' : (us ++ r).length < n := by
        rw [List.length_append, List.length_cons] at hn'
        omega
      have hpipe := ih (m := n) (startsIn_back k (by decide) (startsIn_cons (by decide) _)) (by omega) hn
      have hback := back_complete (r := .sym .semi :: (us ++ r)) k rfl hn' c
      have hline := ih' (m := n) hr (by omega) hn''
      rw [Nonterminal.parse] at hline
      rw [Nonterminal.parse, line_eq hpipe hback, expect_eq_some.mpr rfl]
      dsimp only
      rw [hline]
      rfl
  | @one ts c h ih =>
    cases n with
    | zero => exact absurd hn (Nat.not_lt_zero _)
    | succ n =>
      have hexec := ih (m := m) (hr.mono (by decide)) hm hn
      rw [Nonterminal.parse] at hexec
      rw [Nonterminal.parse, Tokens.pipe, hexec]
      change (match Tokens.expect .bar r with
        | none => _
        | some ts => _) = _
      rw [hr.expect_none (by decide)]
      rfl
  | @bar ts us c d h h' ih ih' =>
    cases n with
    | zero => exact absurd hn (Nat.not_lt_zero _)
    | succ n =>
      rw [List.append_assoc, List.cons_append] at hm hn ⊢
      have hlen := length_behind ts (.sym .bar) (us ++ r)
      have hexec := ih (m := m) (startsIn_cons (by decide) _) hm hn
      have hpipe := ih' (m := m) (n := n) hr (by omega) (by omega)
      rw [Nonterminal.parse] at hexec
      rw [Nonterminal.parse] at hpipe
      rw [Nonterminal.parse, Tokens.pipe, hexec]
      change (Tokens.pipe (Tokens.line m) n (us ++ r) >>= _) = _
      rw [hpipe]
      rfl
  | @block ts us c xs h h' ih =>
    rw [List.cons_append, List.append_assoc, List.cons_append] at hm hn ⊢
    rw [List.length_cons] at hm hn
    have hlen := length_behind ts (.sym .rpar) (us ++ r)
    have hline := ih (r := .sym .rpar :: (us ++ r)) (m := m) (n := m) (startsIn_cons (by decide) _) (by omega) (by omega)
    rw [Nonterminal.parse] at hline
    rw [Nonterminal.parse, Tokens.exec, expect_eq_some.mpr rfl]
    dsimp only
    rw [Tokens.block, expect_eq_some.mpr rfl]
    dsimp only
    rw [hline]
    change Tokens.redirs n c (us ++ r) = _
    exact redirs_complete h' hr.plain (by omega) c
  | @simple ts us ws xs ys h h' hle =>
    have hlen : (us ++ r).length ≤ (ts ++ us ++ r).length := by
      rw [List.append_assoc]
      exact (List.suffix_append ts (us ++ r)).length_le
    have hargs := args_complete (n := n) [] h' hr (by omega) hle xs
    rw [Nonterminal.parse, Tokens.exec, simple_expect h h' hr]
    rw [List.append_assoc] at hn ⊢
    dsimp only
    change Tokens.redirs n (execOf []) (ts ++ (us ++ r)) >>= _ = _
    rw [redirs_complete h (args_plain h' hr) hn]
    exact hargs

end Completeness

end EnhancedXv6.Shell
