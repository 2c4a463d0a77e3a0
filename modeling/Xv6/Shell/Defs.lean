import Xv6.Lib.CString

/-!
# The shell's parser

The parser of `sh.c`. Pointers into the string are positions, and a word is the pair of `q` and
`eq`. The parse functions pass `*ps` along as the last component of their results. The loops and the
recursive functions count down: `Result.spins` is the result of a call that does not return within
its count. `panic` is a result of its own.
-/

namespace Xv6.Shell

open CString (code codes)

def maxArgs : Nat := 20

def oRdonly : Nat := 0x000

def oWronly : Nat := 0x001

def oCreate : Nat := 0x200

/-- `struct cmd`, over a type of strings. -/
inductive Cmd (α : Type)
  | exec (argv : List α)
  | redir (cmd : Cmd α) (file : α) (mode fd : Nat)
  | pipe (left right : Cmd α)
  | list (left right : Cmd α)
  | back (cmd : Cmd α)
  deriving DecidableEq

namespace Cmd

variable {α : Type}

/-- `cmd->argv[argc] = q`, for the `execcmd` under the redirections. -/
def addArg : Cmd α → α → Cmd α
  | exec argv, w => exec (argv ++ [w])
  | redir cmd file mode fd, w => redir (cmd.addArg w) file mode fd
  | cmd, _ => cmd

/-- The strings of a tree, in the order in which `nulterminate` comes to them. -/
def strings : Cmd α → List α
  | exec argv => argv
  | redir cmd file _ _ => cmd.strings ++ [file]
  | pipe left right => left.strings ++ right.strings
  | list left right => left.strings ++ right.strings
  | back cmd => cmd.strings

end Cmd

/-- A word: the pointers to its first byte and behind its last one. -/
structure Span where
  q : Nat
  eq : Nat
  deriving DecidableEq

inductive Panic
  /-- "missing file for redirection" -/
  | missingFile
  /-- "parseblock" -/
  | parseblock
  /-- "syntax - missing )" -/
  | missingParen
  /-- "syntax" -/
  | syntax_
  /-- "too many args" -/
  | tooManyArgs
  deriving DecidableEq

inductive Result (α : Type)
  | ok (a : α)
  | panic (msg : Panic)
  | spins
  deriving DecidableEq

namespace Result

variable {α β : Type}

def bind : Result α → (α → Result β) → Result β
  | ok a, f => f a
  | panic msg, _ => panic msg
  | spins, _ => spins

@[simp] theorem ok_bind (a : α) (f : α → Result β) : (ok a).bind f = f a := rfl

end Result

def whitespace : List UInt8 := [code ' ', code '\t', code '\r', code '\n', 0x0b]

def symbols : List UInt8 := codes "<|>&;()"

def space (c : UInt8) : Bool := c ∈ whitespace

def inWord (c : UInt8) : Bool := c ∉ whitespace ∧ c ∉ symbols

/-- The results of `gettoken`. -/
structure Got where
  ret : UInt8
  q : Nat
  eq : Nat
  ps : Nat

def gettoken (s : CString) (ps : Nat) : Got :=
  let q := s.scan space ps
  let c := s.at_ q
  let x : UInt8 × Nat :=
    if c = 0 then (c, q)
    else if c ∈ [code '|', code '(', code ')', code ';', code '&', code '<'] then (c, q + 1)
    else if c = code '>' then
      if s.at_ (q + 1) = code '>' then (code '+', q + 2) else (c, q + 1)
    else (code 'a', s.scan inWord q)
  ⟨x.1, q, x.2, s.scan space x.2⟩

def peek (s : CString) (ps : Nat) (toks : List UInt8) : Bool × Nat :=
  let p := s.scan space ps
  (s.at_ p ≠ 0 ∧ s.at_ p ∈ toks, p)

def parseredirs (s : CString) : (fuel : Nat) → Cmd Span → (ps : Nat) → Result (Cmd Span × Nat)
  | 0, _, _ => .spins
  | fuel + 1, cmd, ps =>
    let x := peek s ps (codes "<>")
    if x.1 then
      let tok := gettoken s x.2
      let file := gettoken s tok.ps
      if file.ret ≠ code 'a' then .panic .missingFile
      else
        let w := ⟨file.q, file.eq⟩
        let cmd :=
          if tok.ret = code '<' then .redir cmd w oRdonly 0
          else if tok.ret = code '>' then .redir cmd w (oWronly ||| oCreate) 1
          else if tok.ret = code '+' then .redir cmd w (oWronly ||| oCreate) 1
          else cmd
        parseredirs s fuel cmd file.ps
    else .ok (cmd, x.2)

def parseargs (s : CString) : (fuel argc : Nat) → (ret : Cmd Span) → (ps : Nat) →
    Result (Cmd Span × Nat)
  | 0, _, _, _ => .spins
  | fuel + 1, argc, ret, ps =>
    let x := peek s ps (codes "|)&;")
    if x.1 then .ok (ret, x.2)
    else
      let tok := gettoken s x.2
      if tok.ret = 0 then .ok (ret, tok.ps)
      else if tok.ret ≠ code 'a' then .panic .syntax_
      else
        let ret := ret.addArg ⟨tok.q, tok.eq⟩
        if argc + 1 ≥ maxArgs then .panic .tooManyArgs
        else (parseredirs s fuel ret tok.ps).bind fun y => parseargs s fuel (argc + 1) y.1 y.2

def parseback (s : CString) : (fuel : Nat) → Cmd Span → (ps : Nat) → Result (Cmd Span × Nat)
  | 0, _, _ => .spins
  | fuel + 1, cmd, ps =>
    let x := peek s ps (codes "&")
    if x.1 then parseback s fuel (.back cmd) (gettoken s x.2).ps else .ok (cmd, x.2)

mutual

def parseline (s : CString) : (fuel ps : Nat) → Result (Cmd Span × Nat)
  | 0, _ => .spins
  | fuel + 1, ps =>
    (parsepipe s fuel ps).bind fun y =>
      (parseback s fuel y.1 y.2).bind fun z =>
        let x := peek s z.2 (codes ";")
        if x.1 then
          (parseline s fuel (gettoken s x.2).ps).bind fun l => .ok (.list z.1 l.1, l.2)
        else .ok (z.1, x.2)

def parsepipe (s : CString) : (fuel ps : Nat) → Result (Cmd Span × Nat)
  | 0, _ => .spins
  | fuel + 1, ps =>
    (parseexec s fuel ps).bind fun y =>
      let x := peek s y.2 (codes "|")
      if x.1 then
        (parsepipe s fuel (gettoken s x.2).ps).bind fun r => .ok (.pipe y.1 r.1, r.2)
      else .ok (y.1, x.2)

def parseexec (s : CString) : (fuel ps : Nat) → Result (Cmd Span × Nat)
  | 0, _ => .spins
  | fuel + 1, ps =>
    let x := peek s ps (codes "(")
    if x.1 then parseblock s fuel x.2
    else (parseredirs s fuel (.exec []) x.2).bind fun y => parseargs s fuel 0 y.1 y.2

def parseblock (s : CString) : (fuel ps : Nat) → Result (Cmd Span × Nat)
  | 0, _ => .spins
  | fuel + 1, ps =>
    let x := peek s ps (codes "(")
    if x.1 then
      (parseline s fuel (gettoken s x.2).ps).bind fun y =>
        let z := peek s y.2 (codes ")")
        if z.1 then parseredirs s fuel y.1 (gettoken s z.2).ps
        else .panic .missingParen
    else .panic .parseblock

end

def nulterminate (mem : Nat → UInt8) : Cmd Span → Nat → UInt8
  | .exec argv => argv.foldl (fun mem w => Function.update mem w.eq 0) mem
  | .redir cmd file _ _ => Function.update (nulterminate mem cmd) file.eq 0
  | .pipe left right => nulterminate (nulterminate mem left) right
  | .list left right => nulterminate (nulterminate mem left) right
  | .back cmd => nulterminate mem cmd

def parsecmd (fuel : Nat) (s : CString) : Result (Cmd Span × (Nat → UInt8)) :=
  (parseline s fuel 0).bind fun y =>
    let x := peek s y.2 []
    if x.2 ≠ s.bytes.length then .panic .syntax_
    else .ok (y.1, nulterminate s.at_ y.1)

end Xv6.Shell
