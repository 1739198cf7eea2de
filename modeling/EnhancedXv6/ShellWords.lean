import EnhancedXv6.ShellGrammar

namespace EnhancedXv6.Shell

open Bytes

section Words

inductive Words : Cmd → List (ℕ × ℕ) → Prop
  | exec {ws : List (ℕ × ℕ)} (h : ws.length ≤ MAXARGS - 1) : Words (execOf ws) ws
  | redir {c : Cmd} {ws : List (ℕ × ℕ)} (h : Words c ws) (x : Redirection) : Words (wrap c x) (ws ++ [(x.file, x.efile)])
  | pipe {c d : Cmd} {ws vs : List (ℕ × ℕ)} (h : Words c ws) (h' : Words d vs) : Words (.pipe c d) (ws ++ vs)
  | list {c d : Cmd} {ws vs : List (ℕ × ℕ)} (h : Words c ws) (h' : Words d vs) : Words (.list c d) (ws ++ vs)
  | back {c : Cmd} {ws : List (ℕ × ℕ)} (h : Words c ws) : Words (.back c) ws

def Cmd.EveryWord (P : ℕ → ℕ → Prop) : Cmd → Prop
  | .exec argv eargv => ∃ k < MAXARGS, argv[k]? = some none ∧
      ∀ i < k, ∃ q e, argv[i]? = some (some q) ∧ eargv[i]? = some (some e) ∧ P q e
  | .redir cmd file efile _ _ => cmd.EveryWord P ∧ P file efile
  | .pipe left right => left.EveryWord P ∧ right.EveryWord P
  | .list left right => left.EveryWord P ∧ right.EveryWord P
  | .back cmd => cmd.EveryWord P

variable {c : Cmd} {ws : List (ℕ × ℕ)}

theorem pointers_get {ps : List ℕ} {i : ℕ} (hi : i < ps.length) : (pointers ps)[i]? = some ps[i]? := by
  rw [pointers, List.getElem?_append_left (by rwa [List.length_map]), List.getElem?_map, List.getElem?_eq_getElem hi]
  rfl

theorem pointers_end (ps : List ℕ) (h : ps.length < MAXARGS) : (pointers ps)[ps.length]? = some none := by
  rw [pointers, List.getElem?_append_right (by rw [List.length_map]), List.length_map, Nat.sub_self]
  exact List.getElem?_replicate_of_lt (by omega)

theorem Words.everyWord (h : Words c ws) {P : ℕ → ℕ → Prop} (hP : ∀ w ∈ ws, P w.1 w.2) : c.EveryWord P := by
  induction h with
  | @exec ws h =>
    have hlt : ws.length < MAXARGS := Nat.lt_of_le_of_lt h (by decide)
    refine ⟨ws.length, hlt, ?_, fun i hi => ?_⟩
    · have hend := pointers_end (ws.map Prod.fst) (by rwa [List.length_map])
      rwa [List.length_map] at hend
    · refine ⟨ws[i].1, ws[i].2, ?_, ?_, hP _ (List.getElem_mem hi)⟩
      · rw [pointers_get (by rwa [List.length_map]), List.getElem?_map, List.getElem?_eq_getElem hi]
        rfl
      · rw [pointers_get (by rwa [List.length_map]), List.getElem?_map, List.getElem?_eq_getElem hi]
        rfl
  | redir h x ih =>
    obtain ⟨h1, h2⟩ := List.forall_mem_append.mp hP
    exact ⟨ih h1, h2 _ (List.mem_singleton_self _)⟩
  | pipe h h' ih ih' =>
    obtain ⟨h1, h2⟩ := List.forall_mem_append.mp hP
    exact ⟨ih h1, ih' h2⟩
  | list h h' ih ih' =>
    obtain ⟨h1, h2⟩ := List.forall_mem_append.mp hP
    exact ⟨ih h1, ih' h2⟩
  | back h ih => exact ih hP

def terminate (buf : Mem) (ws : List (ℕ × ℕ)) : Mem := ws.foldl (fun b w => Function.update b w.2 0) buf

theorem terminateArgs_append (buf : Mem) (ws : List (ℕ × ℕ)) (l l' : List (Option ℕ)) :
    terminateArgs buf ((ws.map Prod.fst).map some ++ none :: l) ((ws.map Prod.snd).map some ++ l') = .ok (terminate buf ws) := by
  induction ws generalizing buf with
  | nil => rfl
  | cons w ws ih => exact ih _

theorem terminateArgs_eq (buf : Mem) (h : ws.length < MAXARGS) :
    terminateArgs buf (pointers (ws.map Prod.fst)) (pointers (ws.map Prod.snd)) = .ok (terminate buf ws) := by
  obtain ⟨k, hk⟩ : ∃ k, MAXARGS - ws.length = k + 1 := ⟨MAXARGS - ws.length - 1, by omega⟩
  rw [pointers, pointers, List.length_map, hk, List.replicate_succ]
  exact terminateArgs_append buf ws _ _

theorem nulterminate_eq (h : Words c ws) (buf : Mem) : nulterminate buf c = .ok (terminate buf ws) := by
  induction h generalizing buf with
  | exec h => exact terminateArgs_eq buf (Nat.lt_of_le_of_lt h (by decide))
  | redir h x ih =>
    rw [wrap, nulterminate, ih, terminate, terminate, List.foldl_append]
    rfl
  | pipe h h' ih ih' =>
    rw [nulterminate, ih, terminate, terminate, List.foldl_append]
    exact ih' _
  | list h h' ih ih' =>
    rw [nulterminate, ih, terminate, terminate, List.foldl_append]
    exact ih' _
  | back h ih => exact ih buf

theorem terminate_eq_zero {buf : Mem} {k : ℕ} (h : buf k = 0 ∨ ∃ w ∈ ws, w.2 = k) : terminate buf ws k = 0 := by
  induction ws generalizing buf with
  | nil =>
    obtain h | ⟨w, hw, -⟩ := h
    · exact h
    · cases hw
  | cons w ws ih =>
    apply ih
    dsimp only
    by_cases hk : w.2 = k
    · left
      rw [← hk, Function.update_self]
    · rw [Function.update_of_ne (Ne.symm hk)]
      obtain h | ⟨v, hv, rfl⟩ := h
      · exact .inl h
      · obtain rfl | hv := List.mem_cons.mp hv
        · exact absurd rfl hk
        · exact .inr ⟨v, hv, rfl⟩

theorem terminate_of_ne (buf : Mem) {k : ℕ} (hk : ∀ w ∈ ws, w.2 ≠ k) : terminate buf ws k = buf k := by
  induction ws generalizing buf with
  | nil => rfl
  | cons w ws ih =>
    obtain ⟨hw, hk⟩ := List.forall_mem_cons.mp hk
    exact (ih _ hk).trans (Function.update_of_ne (Ne.symm hw) _ _)

theorem words_wrap (h : Words c ws) (xs : List Redirection) : Words (xs.foldl wrap c) (ws ++ xs.map (fun x => (x.file, x.efile))) := by
  induction xs generalizing c ws with
  | nil => rwa [List.map_nil, List.append_nil]
  | cons x xs ih =>
    have hx := ih (h.redir x)
    rwa [List.append_assoc] at hx

theorem words_back (h : Words c ws) (n : ℕ) : Words (Cmd.back^[n] c) ws := by
  induction n with
  | zero => exact h
  | succ n ih =>
    rw [Function.iterate_succ_apply']
    exact ih.back

theorem redirs_mem {us : List Tok} {xs : List Redirection} (h : Redirs us xs) : ∀ w ∈ xs.map (fun x => (x.file, x.efile)), .word w.1 w.2 ∈ us := by
  induction h with
  | nil =>
    intro w hw
    cases hw
  | cons hσ h ih =>
    intro w hw
    obtain rfl | hw := List.mem_cons.mp hw
    · exact List.mem_cons_of_mem _ List.mem_cons_self
    · exact List.mem_cons_of_mem _ (List.mem_cons_of_mem _ (ih w hw))

theorem args_mem {us : List Tok} {ys : List Redirection} (h : Args us ws ys) :
    ∀ w ∈ ws ++ ys.map (fun x => (x.file, x.efile)), .word w.1 w.2 ∈ us := by
  induction h with
  | nil =>
    intro w hw
    cases hw
  | @cons q e ts us ws xs ys h h' ih =>
    intro w hw
    rw [List.map_append, List.cons_append, List.mem_cons, List.mem_append, List.mem_append] at hw
    obtain rfl | hw | hw | hw := hw
    · exact List.mem_cons_self
    · exact List.mem_cons_of_mem _ (List.mem_append_right _ (ih w (List.mem_append_left _ hw)))
    · exact List.mem_cons_of_mem _ (List.mem_append_left _ (redirs_mem h w hw))
    · exact List.mem_cons_of_mem _ (List.mem_append_right _ (ih w (List.mem_append_right _ hw)))

theorem Derives.words {X : Nonterminal} {ts : List Tok} (h : Derives X ts c) : ∃ ws, Words c ws ∧ ∀ w ∈ ws, .word w.1 w.2 ∈ ts := by
  induction h with
  | last n h ih =>
    obtain ⟨ws, hws, hmem⟩ := ih
    exact ⟨ws, words_back hws n, fun w hw => List.mem_append_left _ (hmem w hw)⟩
  | seq n h h' ih ih' =>
    obtain ⟨ws, hws, hmem⟩ := ih
    obtain ⟨vs, hvs, hmem'⟩ := ih'
    refine ⟨ws ++ vs, (words_back hws n).list hvs, fun w hw => ?_⟩
    obtain hw | hw := List.mem_append.mp hw
    · exact List.mem_append_left _ (hmem w hw)
    · exact List.mem_append_right _ (List.mem_append_right _ (List.mem_cons_of_mem _ (hmem' w hw)))
  | one h ih => exact ih
  | bar h h' ih ih' =>
    obtain ⟨ws, hws, hmem⟩ := ih
    obtain ⟨vs, hvs, hmem'⟩ := ih'
    refine ⟨ws ++ vs, hws.pipe hvs, fun w hw => ?_⟩
    obtain hw | hw := List.mem_append.mp hw
    · exact List.mem_append_left _ (hmem w hw)
    · exact List.mem_append_right _ (List.mem_cons_of_mem _ (hmem' w hw))
  | @block ts us c xs h h' ih =>
    obtain ⟨ws, hws, hmem⟩ := ih
    refine ⟨_, words_wrap hws xs, fun w hw => ?_⟩
    obtain hw | hw := List.mem_append.mp hw
    · exact List.mem_cons_of_mem _ (List.mem_append_left _ (hmem w hw))
    · exact List.mem_cons_of_mem _ (List.mem_append_right _ (List.mem_cons_of_mem _ (redirs_mem h' w hw)))
  | @simple ts us ws xs ys h h' hn =>
    refine ⟨_, words_wrap (.exec hn) (xs ++ ys), fun w hw => ?_⟩
    rw [List.map_append, List.mem_append, List.mem_append] at hw
    obtain hw | hw | hw := hw
    · exact List.mem_append_right _ (args_mem h' w (List.mem_append_left _ hw))
    · exact List.mem_append_left _ (redirs_mem h w hw)
    · exact List.mem_append_right _ (args_mem h' w (List.mem_append_right _ hw))

end Words

section Lines

variable {text : List UInt8}

theorem length_lex (i : ℕ) (cs : List UInt8) : (lex i cs).length ≤ cs.length := by
  fun_induction lex i cs with
  | case1 => exact le_rfl
  | case2 i c r hw ih => exact Nat.le_succ_of_le ih
  | case3 i c r hw ih =>
    have hpos := tokenOf_pos i c r
    rw [List.length_drop, List.length_cons] at ih
    rw [List.length_cons, List.length_cons]
    omega

theorem at_start (text : List UInt8) : At text 0 (lex 0 text) := ⟨Nat.zero_le _, by rw [List.drop_zero]⟩

theorem peek_end {s : ℕ} {ts : List Tok} (h : At text s ts) : (peek (chars text) text.length s []).2 = text.length ↔ ts = [] := by
  change skipWhite (chars text) text.length s = text.length ↔ ts = []
  obtain ⟨hat, ⟨he, hnil⟩ | ⟨c, r, hd, hw, -, -⟩⟩ := front_skipWhite h
  · exact ⟨fun _ => hnil, fun _ => he⟩
  · constructor
    · intro he
      rw [he, List.drop_length] at hd
      cases hd
    · intro hnil
      have hlex := hat.tokens
      rw [hd, lex_token hw, hnil] at hlex
      cases hlex

theorem parsecmd_eq (h0 : 0 ∉ text) : parsecmd text = match Tokens.line (text.length + 1) (lex 0 text) with
    | .error e => .error e
    | .ok (cmd, ts) => if ts ≠ [] then .error (.panic "syntax") else (nulterminate (chars text) cmd).map (fun buf => (cmd, buf)) := by
  have hsim := sim_line h0 (at_start text) (text.length + 1)
  unfold parsecmd
  dsimp only
  generalize parseline (chars text) text.length (text.length + 1) 0 = p at hsim
  generalize Tokens.line (text.length + 1) (lex 0 text) = r at hsim
  cases hsim with
  | error e => rfl
  | @ok c s ts hat =>
    dsimp only
    change (if (peek (chars text) text.length s []).2 ≠ text.length then _ else _) = _
    simp only [ne_eq, peek_end hat]
    split_ifs
    · cases nulterminate (chars text) c <;> rfl
    · rfl

theorem parsecmd_ok (h0 : 0 ∉ text) {c : Cmd} {buf : Mem} (h : parsecmd text = .ok (c, buf)) : Derives .line (lex 0 text) c ∧
    ∃ ws, Words c ws ∧ (∀ w ∈ ws, .word w.1 w.2 ∈ lex 0 text) ∧ buf = terminate (chars text) ws := by
  have hsound := line_sound (lex 0 text) (Nat.lt_succ_of_le (length_lex 0 text))
  rw [parsecmd_eq h0] at h
  cases hr : Tokens.line (text.length + 1) (lex 0 text) with
  | error e =>
    rw [hr] at h
    cases h
  | ok r =>
    obtain ⟨d, ts⟩ := r
    rw [hr] at h hsound
    obtain ⟨vs, hts, hd⟩ := hsound
    dsimp only at h
    split_ifs at h with hne
    obtain rfl := not_not.mp hne
    rw [List.append_nil] at hts
    obtain ⟨ws, hws, hmem⟩ := hd.words
    rw [nulterminate_eq hws] at h
    cases h
    rw [hts]
    exact ⟨hd, ws, hws, hmem, rfl⟩

theorem parsecmd_of_derives (h0 : 0 ∉ text) {c : Cmd} (h : Derives .line (lex 0 text) c) : ∃ buf, parsecmd text = .ok (c, buf) := by
  have hlen := length_lex 0 text
  have hline := complete h (r := []) (m := 0 + text.length) (n := text.length + 1) (fun _ _ he => by cases he)
    (by rwa [List.append_nil, Nat.zero_add]) (by rw [List.append_nil]; omega)
  rw [Nonterminal.parse, List.append_nil] at hline
  obtain ⟨ws, hws, -⟩ := h.words
  refine ⟨terminate (chars text) ws, ?_⟩
  rw [parsecmd_eq h0, hline]
  dsimp only
  rw [if_neg (not_not.mpr rfl), nulterminate_eq hws]
  rfl

theorem parsecmd_error (h0 : 0 ∉ text) {e : Halt} (h : parsecmd text = .error e) : ∃ msg, e = .panic msg := by
  have hsound := line_sound (lex 0 text) (Nat.lt_succ_of_le (length_lex 0 text))
  rw [parsecmd_eq h0] at h
  cases hr : Tokens.line (text.length + 1) (lex 0 text) with
  | error e' =>
    rw [hr] at h hsound
    cases h
    exact hsound
  | ok r =>
    obtain ⟨d, ts⟩ := r
    rw [hr] at h hsound
    obtain ⟨vs, -, hd⟩ := hsound
    dsimp only at h
    split_ifs at h
    · cases h
      exact ⟨_, rfl⟩
    · obtain ⟨ws, hws, -⟩ := hd.words
      rw [nulterminate_eq hws] at h
      cases h

theorem parsecmd_iff_derives (text : List UInt8) (h0 : 0 ∉ text) :
    (∀ cmd, (∃ buf, parsecmd text = .ok (cmd, buf)) ↔ Derives .line (lex 0 text) cmd) ∧
      ∀ e, parsecmd text = .error e → ∃ msg, e = .panic msg := by
  constructor
  · intro cmd
    constructor
    · rintro ⟨buf, h⟩
      exact (parsecmd_ok h0 h).1
    · exact parsecmd_of_derives h0
  · intro e
    exact parsecmd_error h0

theorem derives_redirected : Derives .line (lex 0 [97, 62, 98]) (.redir (execOf [(0, 1)]) 2 3 (O_WRONLY ||| O_CREATE) 1) := by
  have hlex : lex 0 [97, 62, 98] = [.word 0 1, .sym .gt, .word 2 3] := by
    rw [lex_token (by decide)]
    change _ :: lex 1 [62, 98] = _
    rw [lex_token (by decide)]
    change _ :: _ :: lex 2 [98] = _
    rw [lex_token (by decide)]
    change _ :: _ :: _ :: lex 3 [] = _
    rw [lex_nil]
    rfl
  have hredir : Redirs [.sym .gt, .word 2 3] [⟨2, 3, O_WRONLY ||| O_CREATE, 1⟩] := @Redirs.cons .gt (O_WRONLY ||| O_CREATE, 1) 2 3 [] [] rfl .nil
  have hargs : Args [.word 0 1, .sym .gt, .word 2 3] [(0, 1)] [⟨2, 3, O_WRONLY ||| O_CREATE, 1⟩] := .cons hredir .nil
  rw [hlex]
  exact .last 0 (.one (.simple .nil hargs (by decide)))

theorem parsecmd_iff_derives_one :
    ∃ buf, parsecmd [97, 62, 98] = .ok (.redir (execOf [(0, 1)]) 2 3 (O_WRONLY ||| O_CREATE) 1, buf) :=
  ((parsecmd_iff_derives [97, 62, 98] (by decide)).1 _).mpr derives_redirected

structure IsWord (text : List UInt8) (q e : ℕ) : Prop where
  lt : q < e
  le : e ≤ text.length
  inside : ∀ k, q ≤ k → k < e → wordChar (chars text k)
  stop : e < text.length → ¬ wordChar (chars text e)

theorem run_spec (P : UInt8 → Bool) (text : List UInt8) {i : ℕ} (hi : i ≤ text.length) :
    i + ((text.drop i).takeWhile P).length ≤ text.length ∧
    (∀ k, i ≤ k → k < i + ((text.drop i).takeWhile P).length → P (chars text k)) ∧
    (i + ((text.drop i).takeWhile P).length < text.length → ¬ P (chars text (i + ((text.drop i).takeWhile P).length))) := by
  generalize hn : text.length - i = n
  induction n generalizing i with
  | zero =>
    rw [List.drop_eq_nil_of_le (by omega)]
    dsimp only [List.takeWhile_nil, List.length_nil]
    refine ⟨by omega, fun k h1 h2 => by omega, fun h => by omega⟩
  | succ n ih =>
    obtain ⟨c, hd, hc, -⟩ := drop_cons text (s := i) (by omega)
    rw [hd, List.takeWhile_cons]
    by_cases hp : P c
    · obtain ⟨h1, h2, h3⟩ := ih (i := i + 1) (by omega) (by omega)
      rw [if_pos hp, List.length_cons]
      have he : i + (((text.drop (i + 1)).takeWhile P).length + 1) = i + 1 + ((text.drop (i + 1)).takeWhile P).length := by omega
      rw [he]
      refine ⟨h1, fun k hk hk' => ?_, h3⟩
      by_cases hki : k = i
      · rwa [hki, hc]
      · exact h2 k (by omega) hk'
    · rw [if_neg hp, List.length_nil, Nat.add_zero, hc]
      exact ⟨hi, fun k h1 h2 => by omega, fun _ => hp⟩

theorem isWord_of_mem {i q e : ℕ} {cs : List UInt8} (hcs : text.drop i = cs) (hi : i ≤ text.length) (h : .word q e ∈ lex i cs) : IsWord text q e := by
  induction i, cs using lex.induct with
  | case1 i =>
    rw [lex_nil] at h
    cases h
  | case2 i c r hw ih =>
    rw [lex_white hw] at h
    have hlen : (c :: r).length = text.length - i := by rw [← hcs, List.length_drop]
    rw [List.length_cons] at hlen
    apply ih _ (by omega) h
    rw [← List.drop_drop, hcs, List.drop_one, List.tail_cons]
  | case3 i c r hw ih =>
    rw [lex_token hw] at h
    have hlen : (c :: r).length = text.length - i := by rw [← hcs, List.length_drop]
    have hle := tokenOf_le i c r
    obtain h | h := List.mem_cons.mp h
    · obtain ⟨h1, h2, h3⟩ := run_spec wordChar text hi
      unfold tokenOf at h
      obtain rfl | ⟨hgt, hin, σ, hσ, -, -⟩ | ⟨hgt, hin, hσ, hsym⟩ := symbol_cases c
      · rw [if_pos rfl] at h
        split_ifs at h
      · rw [if_neg hgt, hσ] at h
        cases h
      · rw [if_neg hgt, hσ] at h
        cases h
        have hword : wordChar c := decide_eq_true ⟨hw, hsym⟩
        rw [hcs, List.takeWhile_cons_of_pos hword, List.length_cons, Nat.add_comm _ 1, ← Nat.add_assoc] at h1 h2 h3
        exact ⟨by omega, h1, h2, h3⟩
    · apply ih _ (by omega) h
      rw [← List.drop_drop, hcs]

theorem words_terminated (text : List UInt8) (h0 : 0 ∉ text) (cmd : Cmd) (buf : Mem) (h : parsecmd text = .ok (cmd, buf)) :
    cmd.EveryWord (fun q e => .word q e ∈ lex 0 text ∧ cString buf (text.length + 1) q = (text.drop q).take (e - q)) := by
  obtain ⟨-, ws, hws, hmem, rfl⟩ := parsecmd_ok h0 h
  have hword (w : ℕ × ℕ) (hw : w ∈ ws) : IsWord text w.1 w.2 := isWord_of_mem List.drop_zero (Nat.zero_le _) (hmem w hw)
  apply hws.everyWord
  rintro ⟨q, e⟩ hw
  refine ⟨hmem _ hw, ?_⟩
  obtain ⟨hlt, hle, hin, -⟩ := hword _ hw
  dsimp only at hlt hle hin ⊢
  have hlen : ((text.drop q).take (e - q)).length = e - q := by
    rw [List.length_take, List.length_drop]
    omega
  have hchars : Holds (chars text) q ((text.drop q).take (e - q)) := by
    have hall : Holds (chars text) 0 (text.take q ++ text.drop q) := by
      rw [List.take_append_drop]
      exact holds_getD text
    have hdrop := (holds_append.mp hall).2
    rw [Nat.zero_add, List.length_take_of_le (by omega)] at hdrop
    exact hdrop.take _
  have hz : 0 ∉ (text.drop q).take (e - q) := fun hm => h0 (List.mem_of_mem_drop (List.mem_of_mem_take hm))
  apply Holds.cString_eq _ hz (by omega)
  apply holds_append.mpr
  constructor
  · apply hchars.congr
    intro k hk hk'
    apply terminate_of_ne
    -- a word ends where no word goes on
    intro v hv hvk
    have hv' := hword v hv
    rw [hlen] at hk'
    apply hv'.stop
    · omega
    · rw [hvk]
      exact hin k hk (by omega)
  · refine ⟨terminate_eq_zero (.inr ⟨(q, e), hw, ?_⟩), trivial⟩
    rw [hlen]
    dsimp only
    omega

theorem words_terminated_one : ∃ cmd buf, parsecmd [97, 62, 98] = .ok (cmd, buf) ∧
    cmd.EveryWord (fun q e => .word q e ∈ lex 0 [97, 62, 98] ∧ cString buf 4 q = ([97, 62, 98].drop q).take (e - q)) := by
  obtain ⟨buf, h⟩ := parsecmd_of_derives (by decide) derives_redirected
  exact ⟨_, buf, h, words_terminated [97, 62, 98] (by decide) _ buf h⟩

end Lines

end EnhancedXv6.Shell
