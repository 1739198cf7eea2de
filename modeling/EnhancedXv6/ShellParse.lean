import EnhancedXv6.ShellTokens

namespace EnhancedXv6.Shell

open Bytes

namespace Tokens

abbrev Parse := Except Halt (Cmd × List Tok)

def expect (σ : Symbol) : List Tok → Option (List Tok)
  | .sym τ :: ts => if τ = σ then some ts else none
  | _ => none

def mode : Symbol → Option (ℕ × ℕ)
  | .lt => some (O_RDONLY, 0)
  | .gt => some (O_WRONLY ||| O_CREATE, 1)
  | .gtgt => some (O_WRONLY ||| O_CREATE, 1)
  | _ => none

def redirs : ℕ → Cmd → List Tok → Parse
  | 0, _, _ => .error .running
  | n + 1, cmd, .sym σ :: ts => match mode σ with
    | none => .ok (cmd, .sym σ :: ts)
    | some m => match ts with
      | .word q e :: ts => redirs n (.redir cmd q e m.1 m.2) ts
      | _ => .error (.panic "missing file for redirection")
  | _ + 1, cmd, ts => .ok (cmd, ts)

def block (line : List Tok → Parse) (n : ℕ) (ts : List Tok) : Parse := match expect .lpar ts with
  | none => .error (.panic "parseblock")
  | some ts => do
    let (cmd, ts) ← line ts
    match expect .rpar ts with
    | none => .error (.panic "syntax - missing )")
    | some ts => redirs n cmd ts

def args : ℕ → ℕ → Cmd → List Tok → Parse
  | 0, _, _, _ => .error .running
  | _ + 1, argc, ret, [] => closeArgs argc ret []
  | _ + 1, argc, ret, .sym σ :: ts =>
    if σ ∈ [.bar, .rpar, .amp, .semi] then closeArgs argc ret (.sym σ :: ts) else .error (.panic "syntax")
  | n + 1, argc, ret, .word q e :: ts =>
    if MAXARGS ≤ argc then .error .bounds
    else if MAXARGS ≤ argc + 1 then .error (.panic "too many args")
    else do
      let (ret, ts) ← redirs n (ret.store argc (some q) (some e)) ts
      args n (argc + 1) ret ts

def exec (line : List Tok → Parse) (n : ℕ) (ts : List Tok) : Parse := match expect .lpar ts with
  | some _ => block line n ts
  | none => do
    let (ret, ts) ← redirs n execcmd ts
    args n 0 ret ts

def pipe (line : List Tok → Parse) : ℕ → List Tok → Parse
  | 0, _ => .error .running
  | n + 1, ts => do
    let (cmd, ts) ← exec line (n + 1) ts
    match expect .bar ts with
    | none => return (cmd, ts)
    | some ts => do
      let (right, ts) ← pipe line n ts
      return (.pipe cmd right, ts)

def back : ℕ → Cmd → List Tok → Parse
  | 0, _, _ => .error .running
  | n + 1, cmd, ts => match expect .amp ts with
    | none => .ok (cmd, ts)
    | some ts => back n (.back cmd) ts

def line : ℕ → List Tok → Parse
  | 0, _ => .error .running
  | n + 1, ts => do
    let (cmd, ts) ← pipe (line n) (n + 1) ts
    let (cmd, ts) ← back (n + 1) cmd ts
    match expect .semi ts with
    | none => return (cmd, ts)
    | some ts => do
      let (right, ts) ← line n ts
      return (.list cmd right, ts)

end Tokens

section Simulation

variable {text : List UInt8} {s : ℕ} {ts : List Tok} {f : ℕ → Parse} {g : List Tok → Tokens.Parse}

inductive Sim (text : List UInt8) : Parse → Tokens.Parse → Prop
  | ok {c : Cmd} {s : ℕ} {ts : List Tok} (h : At text s ts) : Sim text (.ok (c, s)) (.ok (c, ts))
  | error (e : Halt) : Sim text (.error e) (.error e)

theorem Sim.bind {r : Parse} {r' : Tokens.Parse} {f : Cmd × ℕ → Parse} {g : Cmd × List Tok → Tokens.Parse} (h : Sim text r r')
    (hfg : ∀ c s ts, At text s ts → Sim text (f (c, s)) (g (c, ts))) : Sim text (r >>= f) (r' >>= g) := by
  cases h with
  | ok h => exact hfg _ _ _ h
  | error e => exact .error e

theorem expect_eq_some {σ : Symbol} {us : List Tok} : Tokens.expect σ ts = some us ↔ ts = .sym σ :: us := by
  constructor
  · intro h
    unfold Tokens.expect at h
    split at h
    · split_ifs at h with he
      rw [he, Option.some.inj h]
    · cases h
  · rintro rfl
    exact if_pos rfl

theorem single_symbol {σ : Symbol} (hσ : σ ∈ [Symbol.bar, .lpar, .rpar, .semi, .amp]) :
    σ.ret ∈ symbols ∧ σ.first = σ.ret ∧ ∀ τ : Symbol, τ.first = σ.ret → τ = σ := by
  simp only [List.mem_cons, List.not_mem_nil, or_false] at hσ
  rcases hσ with rfl | rfl | rfl | rfl | rfl
  all_goals
    refine ⟨by decide, rfl, fun τ h => ?_⟩
    cases τ <;> first | rfl | exact absurd h (by decide)

theorem peek_cases (h0 : 0 ∉ text) (h : At text s ts) (σ : Symbol) (hσ : σ ∈ [Symbol.bar, .lpar, .rpar, .semi, .amp]) :
    (∃ us, Tokens.expect σ ts = some us ∧ (peek (chars text) text.length s [σ.ret]).1 = true ∧
      At text (gettoken (chars text) text.length (peek (chars text) text.length s [σ.ret]).2).s us) ∨
    (Tokens.expect σ ts = none ∧ (peek (chars text) text.length s [σ.ret]).1 = false) := by
  obtain ⟨hsym, hfirst, hsingle⟩ := single_symbol hσ
  have hpeek := peek_iff h0 h [σ.ret] (List.cons_subset.mpr ⟨hsym, List.nil_subset _⟩)
  cases he : Tokens.expect σ ts with
  | some us =>
    left
    obtain rfl := expect_eq_some.mp he
    refine ⟨us, rfl, hpeek.mpr ⟨σ, us, rfl, ?_⟩, (gettoken_cons h0 (at_peek h _)).2.1⟩
    rw [hfirst]
    exact List.mem_singleton_self _
  | none =>
    right
    refine ⟨rfl, Bool.eq_false_iff.mpr (fun hp => ?_)⟩
    obtain ⟨τ, us, rfl, hτ⟩ := hpeek.mp hp
    obtain rfl := hsingle τ (List.mem_singleton.mp hτ)
    rw [expect_eq_some.mpr rfl] at he
    cases he

theorem peek_redirection (h0 : 0 ∉ text) (h : At text s ts) :
    (peek (chars text) text.length s [60, 62]).1 = true ↔ ∃ σ us m, ts = .sym σ :: us ∧ Tokens.mode σ = some m := by
  rw [peek_iff h0 h [60, 62] (by decide)]
  constructor
  · rintro ⟨σ, us, rfl, hσ⟩
    cases σ <;> first | exact ⟨_, us, _, rfl, rfl⟩ | exact absurd hσ (by decide)
  · rintro ⟨σ, us, m, rfl, hm⟩
    refine ⟨σ, us, rfl, ?_⟩
    cases σ <;> first | decide | cases hm

theorem Tokens.redirs_done (n : ℕ) (cmd : Cmd) (h : ∀ σ us, ts = .sym σ :: us → Tokens.mode σ = none) :
    Tokens.redirs (n + 1) cmd ts = .ok (cmd, ts) := by
  cases ts with
  | nil => rfl
  | cons t ts =>
    cases t with
    | word q e => rfl
    | sym σ => rw [Tokens.redirs, h σ ts rfl]

theorem ret_ne (σ : Symbol) : σ.ret ≠ 0 ∧ σ.ret ≠ 97 := by
  cases σ <;> decide

theorem gettoken_eq_word (h0 : 0 ∉ text) (h : At text s ts) :
    (gettoken (chars text) text.length s).ret = 97 ↔ ∃ q e us, ts = .word q e :: us := by
  constructor
  · intro hr
    cases ts with
    | nil =>
      rw [(gettoken_nil h).1] at hr
      exact absurd hr (by decide)
    | cons t ts =>
      cases t with
      | sym σ =>
        rw [(gettoken_cons h0 h).1] at hr
        exact absurd hr (ret_ne σ).2
      | word q e => exact ⟨q, e, ts, rfl⟩
  · rintro ⟨q, e, us, rfl⟩
    exact (gettoken_cons h0 h).1

theorem sim_redirs (h0 : 0 ∉ text) (h : At text s ts) (n : ℕ) (cmd : Cmd) :
    Sim text (parseredirs (chars text) text.length n cmd s) (Tokens.redirs n cmd ts) := by
  induction n generalizing cmd s ts with
  | zero => exact .error _
  | succ n ih =>
    have hpeek := peek_redirection h0 h
    have hp := at_peek h [60, 62]
    rw [parseredirs]
    dsimp only
    by_cases hc : (peek (chars text) text.length s [60, 62]).1 = true
    · obtain ⟨σ, us, m, rfl, hm⟩ := hpeek.mp hc
      obtain ⟨hret, hs, -⟩ := gettoken_cons h0 hp
      rw [if_pos hc, Tokens.redirs, hm, hret]
      dsimp only
      by_cases hf : (gettoken (chars text) text.length (gettoken (chars text) text.length (peek (chars text) text.length s [60, 62]).2).s).ret = 97
      · obtain ⟨q, e, vs, rfl⟩ := (gettoken_eq_word h0 hs).mp hf
        obtain ⟨-, hs', hqe⟩ := gettoken_cons h0 hs
        obtain ⟨hq, he⟩ := hqe q e rfl
        rw [if_neg (not_not.mpr hf), hq, he]
        -- the same redirection in each of the three cases
        cases σ with
        | lt | gt | gtgt =>
          cases hm
          exact ih hs' _
        | _ => cases hm
      · rw [if_pos hf]
        split
        · exact absurd ((gettoken_eq_word h0 hs).mpr ⟨_, _, _, rfl⟩) hf
        · exact .error _
    · rw [if_neg hc]
      rw [Tokens.redirs_done n cmd (fun σ us he => ?_)]
      · exact .ok hp
      · cases hm : Tokens.mode σ with
        | none => rfl
        | some m => exact absurd (hpeek.mpr ⟨σ, us, m, he, hm⟩) hc

theorem sim_block (h0 : 0 ∉ text) (h : At text s ts) (n : ℕ)
    (hfg : ∀ s ts, At text s ts → Sim text (f s) (g ts)) : Sim text (parseblock (chars text) text.length f n s) (Tokens.block g n ts) := by
  unfold parseblock Tokens.block
  obtain ⟨us, he, hp, hs⟩ | ⟨he, hp⟩ := peek_cases h0 h .lpar (by decide)
  · rw [he]
    dsimp only [Symbol.ret] at hp hs ⊢
    rw [if_pos hp]
    apply Sim.bind (hfg _ _ hs)
    intro c s ts h
    dsimp only
    obtain ⟨us, he, hp, hs⟩ | ⟨he, hp⟩ := peek_cases h0 h .rpar (by decide)
    · rw [he]
      dsimp only [Symbol.ret] at hp hs ⊢
      rw [if_pos hp]
      exact sim_redirs h0 hs n c
    · rw [he]
      dsimp only [Symbol.ret] at hp ⊢
      rw [hp]
      exact .error _
  · rw [he]
    dsimp only [Symbol.ret] at hp ⊢
    rw [hp]
    exact .error _

theorem sim_closeArgs (h : At text s ts) (argc : ℕ) (ret : Cmd) : Sim text (closeArgs argc ret s) (closeArgs argc ret ts) := by
  unfold closeArgs
  split_ifs
  · exact .error _
  · exact .ok h

theorem sim_args (h0 : 0 ∉ text) (h : At text s ts) (n argc : ℕ) (ret : Cmd) :
    Sim text (parseargs (chars text) text.length n argc ret s) (Tokens.args n argc ret ts) := by
  induction n generalizing argc ret s ts with
  | zero => exact .error _
  | succ n ih =>
    have hpeek := peek_iff h0 h [124, 41, 38, 59] (by decide)
    have hp := at_peek h [124, 41, 38, 59]
    rw [parseargs]
    dsimp only
    cases ts with
    | nil =>
      rw [if_neg (fun hc => by obtain ⟨_, _, he, -⟩ := hpeek.mp hc; cases he), if_pos (gettoken_nil hp).1, Tokens.args]
      exact sim_closeArgs (gettoken_nil hp).2 argc ret
    | cons t ts =>
      obtain ⟨hret, hs, hqe⟩ := gettoken_cons h0 hp
      cases t with
      | sym σ =>
        have hends : (peek (chars text) text.length s [124, 41, 38, 59]).1 = true ↔ σ ∈ [Symbol.bar, .rpar, .amp, .semi] := by
          rw [hpeek]
          constructor
          · rintro ⟨_, _, he, hσ⟩
            cases he
            cases σ <;> first | decide | exact absurd hσ (by decide)
          · intro hσ
            refine ⟨σ, ts, rfl, ?_⟩
            cases σ <;> first | decide | exact absurd hσ (by decide)
        change _ = σ.ret at hret
        rw [Tokens.args]
        by_cases hσ : σ ∈ [Symbol.bar, .rpar, .amp, .semi]
        · rw [if_pos (hends.mpr hσ), if_pos hσ]
          exact sim_closeArgs hp argc ret
        · rw [if_neg (fun hc => hσ (hends.mp hc)), if_neg hσ, hret, if_neg (ret_ne σ).1, if_pos (ret_ne σ).2]
          exact .error _
      | word q e =>
        obtain ⟨hq, he⟩ := hqe q e rfl
        change _ = 97 at hret
        rw [if_neg (fun hc => by obtain ⟨_, _, he, -⟩ := hpeek.mp hc; cases he), hret, if_neg (by decide), if_neg (by decide), hq, he,
          Tokens.args]
        split_ifs
        · exact .error _
        · exact .error _
        · apply Sim.bind (sim_redirs h0 hs n _)
          intro c s ts h
          exact ih h _ _

theorem sim_exec (h0 : 0 ∉ text) (h : At text s ts) (n : ℕ)
    (hfg : ∀ s ts, At text s ts → Sim text (f s) (g ts)) : Sim text (parseexec (chars text) text.length f n s) (Tokens.exec g n ts) := by
  have hat := at_peek h [40]
  unfold parseexec Tokens.exec
  obtain ⟨us, he, hp, -⟩ | ⟨he, hp⟩ := peek_cases h0 h .lpar (by decide)
  · rw [he]
    dsimp only [Symbol.ret] at hp ⊢
    rw [if_pos hp]
    exact sim_block h0 hat n hfg
  · rw [he]
    dsimp only [Symbol.ret] at hp ⊢
    rw [hp]
    apply Sim.bind (sim_redirs h0 hat n _)
    intro c s ts h
    exact sim_args h0 h n 0 c

theorem sim_pipe (h0 : 0 ∉ text) (h : At text s ts) (n : ℕ)
    (hfg : ∀ s ts, At text s ts → Sim text (f s) (g ts)) : Sim text (parsepipe (chars text) text.length f n s) (Tokens.pipe g n ts) := by
  induction n generalizing s ts with
  | zero => exact .error _
  | succ n ih =>
    rw [parsepipe, Tokens.pipe]
    apply Sim.bind (sim_exec h0 h (n + 1) hfg)
    intro c s ts h
    dsimp only
    obtain ⟨us, he, hp, hs⟩ | ⟨he, hp⟩ := peek_cases h0 h .bar (by decide)
    · rw [he]
      dsimp only [Symbol.ret] at hp hs ⊢
      rw [if_pos hp]
      apply Sim.bind (ih hs)
      intro right s ts h
      exact .ok h
    · rw [he]
      dsimp only [Symbol.ret] at hp ⊢
      rw [hp]
      exact .ok (at_peek h [124])

theorem sim_back (h0 : 0 ∉ text) (h : At text s ts) (n : ℕ) (cmd : Cmd) :
    Sim text (parseback (chars text) text.length n cmd s) (Tokens.back n cmd ts) := by
  induction n generalizing cmd s ts with
  | zero => exact .error _
  | succ n ih =>
    rw [parseback, Tokens.back]
    obtain ⟨us, he, hp, hs⟩ | ⟨he, hp⟩ := peek_cases h0 h .amp (by decide)
    · rw [he]
      dsimp only [Symbol.ret] at hp hs ⊢
      rw [if_pos hp]
      exact ih hs _
    · rw [he]
      dsimp only [Symbol.ret] at hp ⊢
      rw [hp]
      exact .ok (at_peek h [38])

theorem sim_line (h0 : 0 ∉ text) (h : At text s ts) (n : ℕ) : Sim text (parseline (chars text) text.length n s) (Tokens.line n ts) := by
  induction n generalizing s ts with
  | zero => exact .error _
  | succ n ih =>
    rw [parseline, Tokens.line]
    apply Sim.bind (sim_pipe h0 h (n + 1) (fun s ts h => ih h))
    intro c s ts h
    apply Sim.bind (sim_back h0 h (n + 1) c)
    intro c s ts h
    dsimp only
    obtain ⟨us, he, hp, hs⟩ | ⟨he, hp⟩ := peek_cases h0 h .semi (by decide)
    · rw [he]
      dsimp only [Symbol.ret] at hp hs ⊢
      rw [if_pos hp]
      apply Sim.bind (ih hs)
      intro right s ts h
      exact .ok h
    · rw [he]
      dsimp only [Symbol.ret] at hp ⊢
      rw [hp]
      exact .ok (at_peek h [59])

end Simulation

end EnhancedXv6.Shell
