import EnhancedXv6.Strings

namespace EnhancedXv6.Shell

open Bytes

abbrev MAXARGS : ℕ := 10

abbrev O_RDONLY : ℕ := 0

abbrev O_WRONLY : ℕ := 1

abbrev O_CREATE : ℕ := 0x200

/-- A `struct cmd`; the arrays of an `EXEC` node have `MAXARGS` pointers, and `none` is the null pointer. -/
inductive Cmd
  | exec (argv eargv : List (Option ℕ))
  | redir (cmd : Cmd) (file efile mode fd : ℕ)
  | pipe (left right : Cmd)
  | list (left right : Cmd)
  | back (cmd : Cmd)
  deriving DecidableEq, Repr

inductive Halt
  | panic (msg : String)
  | bounds
  | running
  deriving DecidableEq, Repr

abbrev Parse := Except Halt (Cmd × ℕ)

def chars (text : List UInt8) : Mem := fun i => text.getD i 0

def whitespace : List UInt8 := [32, 9, 13, 10, 11]

def symbols : List UInt8 := [60, 124, 62, 38, 59, 40, 41]

section Lexer

variable (buf : Mem) (es : ℕ)

/-- `while(s < es && P(*s)) s++`, where `n` is `es - s`. -/
def scan (P : UInt8 → Bool) : ℕ → ℕ → ℕ
  | 0, s => s
  | n + 1, s => if P (buf s) then scan P n (s + 1) else s

def skipWhite (s : ℕ) : ℕ := scan buf (fun c => c ∈ whitespace) (es - s) s

def wordChar (c : UInt8) : Bool := c ∉ whitespace ∧ c ∉ symbols

structure Token where
  ret : UInt8
  q : ℕ
  eq : ℕ
  s : ℕ

def gettoken (ps : ℕ) : Token :=
  let s := skipWhite buf es ps
  let (ret, eq) :=
    if buf s = 0 then (0, s)
    else if buf s ∈ [124, 40, 41, 59, 38, 60] then (buf s, s + 1)
    else if buf s = 62 then if buf (s + 1) = 62 then (43, s + 2) else (62, s + 1)
    else (97, scan buf wordChar (es - s) s)
  ⟨ret, s, eq, skipWhite buf es eq⟩

def peek (ps : ℕ) (toks : List UInt8) : Bool × ℕ :=
  let s := skipWhite buf es ps
  (buf s ≠ 0 ∧ buf s ∈ toks, s)

end Lexer

section Parser

variable (buf : Mem) (es : ℕ)

def execcmd : Cmd := .exec (List.replicate MAXARGS none) (List.replicate MAXARGS none)

def Cmd.store (argc : ℕ) (q eq : Option ℕ) : Cmd → Cmd
  | .exec argv eargv => .exec (argv.set argc q) (eargv.set argc eq)
  | .redir cmd file efile mode fd => .redir (cmd.store argc q eq) file efile mode fd
  | cmd => cmd

def parseredirs : ℕ → Cmd → ℕ → Parse
  | 0, _, _ => .error .running
  | n + 1, cmd, s =>
    let p := peek buf es s [60, 62]
    if p.1 then
      let tok := gettoken buf es p.2
      let f := gettoken buf es tok.s
      if f.ret ≠ 97 then .error (.panic "missing file for redirection")
      else if tok.ret = 60 then parseredirs n (.redir cmd f.q f.eq O_RDONLY 0) f.s
      else if tok.ret = 62 then parseredirs n (.redir cmd f.q f.eq (O_WRONLY ||| O_CREATE) 1) f.s
      else if tok.ret = 43 then parseredirs n (.redir cmd f.q f.eq (O_WRONLY ||| O_CREATE) 1) f.s
      else parseredirs n cmd f.s
    else .ok (cmd, p.2)

def parseblock (parseline : ℕ → Parse) (n s : ℕ) : Parse := do
  let p := peek buf es s [40]
  if p.1 then
    let (cmd, s) ← parseline (gettoken buf es p.2).s
    let p := peek buf es s [41]
    if p.1 then parseredirs buf es n cmd (gettoken buf es p.2).s else .error (.panic "syntax - missing )")
  else .error (.panic "parseblock")

def closeArgs {S : Type} (argc : ℕ) (ret : Cmd) (s : S) : Except Halt (Cmd × S) :=
  if MAXARGS ≤ argc then .error .bounds else .ok (ret.store argc none none, s)

def parseargs : ℕ → ℕ → Cmd → ℕ → Parse
  | 0, _, _, _ => .error .running
  | n + 1, argc, ret, s =>
    let p := peek buf es s [124, 41, 38, 59]
    let tok := gettoken buf es p.2
    if p.1 then closeArgs argc ret p.2
    else if tok.ret = 0 then closeArgs argc ret tok.s
    else if tok.ret ≠ 97 then .error (.panic "syntax")
    else if MAXARGS ≤ argc then .error .bounds
    else if MAXARGS ≤ argc + 1 then .error (.panic "too many args")
    else do
      let (ret, s) ← parseredirs buf es n (ret.store argc (some tok.q) (some tok.eq)) tok.s
      parseargs n (argc + 1) ret s

def parseexec (parseline : ℕ → Parse) (n s : ℕ) : Parse :=
  let p := peek buf es s [40]
  if p.1 then parseblock buf es parseline n p.2
  else do
    let (ret, s) ← parseredirs buf es n execcmd p.2
    parseargs buf es n 0 ret s

def parsepipe (parseline : ℕ → Parse) : ℕ → ℕ → Parse
  | 0, _ => .error .running
  | n + 1, s => do
    let (cmd, s) ← parseexec buf es parseline (n + 1) s
    let p := peek buf es s [124]
    if p.1 then
      let (right, s) ← parsepipe parseline n (gettoken buf es p.2).s
      return (.pipe cmd right, s)
    else return (cmd, p.2)

def parseback : ℕ → Cmd → ℕ → Parse
  | 0, _, _ => .error .running
  | n + 1, cmd, s =>
    let p := peek buf es s [38]
    if p.1 then parseback n (.back cmd) (gettoken buf es p.2).s else .ok (cmd, p.2)

def parseline : ℕ → ℕ → Parse
  | 0, _ => .error .running
  | n + 1, s => do
    let (cmd, s) ← parsepipe buf es (parseline n) (n + 1) s
    let (cmd, s) ← parseback buf es (n + 1) cmd s
    let p := peek buf es s [59]
    if p.1 then
      let (right, s) ← parseline n (gettoken buf es p.2).s
      return (.list cmd right, s)
    else return (cmd, p.2)

def terminateArgs (buf : Mem) : List (Option ℕ) → List (Option ℕ) → Except Halt Mem
  | none :: _, _ => .ok buf
  | some _ :: argv, some e :: eargv => terminateArgs (Function.update buf e 0) argv eargv
  | _, _ => .error .bounds

def nulterminate (buf : Mem) : Cmd → Except Halt Mem
  | .exec argv eargv => terminateArgs buf argv eargv
  | .redir cmd _ efile _ _ => do
    let buf ← nulterminate buf cmd
    return Function.update buf efile 0
  | .pipe left right => do
    let buf ← nulterminate buf left
    nulterminate buf right
  | .list left right => do
    let buf ← nulterminate buf left
    nulterminate buf right
  | .back cmd => nulterminate buf cmd

def parsecmd (text : List UInt8) : Except Halt (Cmd × Mem) := do
  let es := text.length
  let (cmd, s) ← parseline (chars text) es (es + 1) 0
  if (peek (chars text) es s []).2 ≠ es then .error (.panic "syntax")
  else
    let buf ← nulterminate (chars text) cmd
    return (cmd, buf)

end Parser

end EnhancedXv6.Shell
