import Mathlib.Data.Int.Notation
import Xv6.Logic.Wp

/-!
# The parser of the shell

The parsing half of `user/sh.c`, from `gettoken` to `nulterminate`. The command line is a string of
bytes none of which is 0, with a 0 after it; a `char *` into it is an index, and the cursor `*ps` is
the state of the computation. A command keeps the two ends of each of its words, as the C structures
keep `argv` with `eargv` and `file` with `efile`, and `nulterminate` stores a 0 at every second end.

`parseexec` builds the `execcmd` before it knows the arguments and wraps redirections around it
while the arguments are still coming in. Here the redirections are collected in a list and wrapped around
the finished command.

The functions that recur have a bound on the depth of their recursion, and the loops one on their
turns. `Panic.fuel` says that it was exceeded.
-/

namespace Xv6

namespace Sh

/-- A string as C has it: the bytes before the 0. -/
structure CStr where
  bytes : List UInt8
  nul : 0 ∉ bytes

/-- `MAXARGS`. -/
def maxargs : ℕ := 10

/-! ### Characters -/

/-- `whitespace`: " \t\r\n\v". -/
def whitespace : List UInt8 := [32, 9, 13, 10, 11]

/-- `symbols`: "<|>&;()". -/
def symbols : List UInt8 := [60, 124, 62, 38, 59, 40, 41]

/-- `strchr(whitespace, c)`. -/
def isSpace (c : UInt8) : Bool := whitespace.contains c

/-- `strchr(symbols, c)`. -/
def isSymbol (c : UInt8) : Bool := symbols.contains c

/-- What a word consists of. -/
def isWord (c : UInt8) : Bool := !isSpace c && !isSymbol c

/-! ### Commands -/

/-- The first byte of a word and the byte after it. -/
structure Span where
  q : ℕ
  eq : ℕ
deriving DecidableEq, Repr

/-- A redirection: `file` with `efile`, `mode` and `fd` of `struct redircmd`. -/
structure Redir where
  file : Span
  mode : ℕ
  fd : ℕ
deriving DecidableEq, Repr

/-- `struct cmd`. -/
inductive Cmd
  | exec (argv : List Span)
  | redir (cmd : Cmd) (r : Redir)
  | pipe (left right : Cmd)
  | list (left right : Cmd)
  | back (cmd : Cmd)
deriving DecidableEq, Repr

/-- The flags of `fcntl.h`. -/
def oRdonly : ℕ := 0x000

def oWronlyCreate : ℕ := 0x201

def oWronlyCreateTrunc : ℕ := 0x601

/-- Later redirections are outermost. -/
def Cmd.wrap (cmd : Cmd) (rs : List Redir) : Cmd := rs.foldl Cmd.redir cmd

/-- What `panic` prints, and the bound of the recursion. -/
inductive Panic
  | badSyntax | missingFile | parseblock | missingParen | tooManyArgs
  | fuel
deriving DecidableEq, Repr

def Panic.msg : Panic → String
  | .badSyntax => "syntax"
  | .missingFile => "missing file for redirection"
  | .parseblock => "parseblock"
  | .missingParen => "syntax - missing )"
  | .tooManyArgs => "too many args"
  | .fuel => ""

/-- Computations that move the cursor. -/
abbrev P := EStateM Panic ℕ

/-! ### Tokens -/

/-- What `gettoken` returns: 0, a symbol, '+' for ">>", or 'a' for a word. -/
inductive Tok
  | nul | bar | lpar | rpar | semi | amp | lt | gt | app | word
deriving DecidableEq, Repr

/-- `*s`. -/
def byteAt (s : List UInt8) (i : ℕ) : UInt8 := s.getD i 0

/-- `while(s < es && strchr(whitespace, *s)) s++`. -/
def skip (s : List UInt8) (i : ℕ) : ℕ := i + ((s.drop i).takeWhile isSpace).length

/-- The `switch` of `gettoken` at the first byte of a token: what it is, and where it ends. -/
def tokenAt (s : List UInt8) (q : ℕ) : Tok × ℕ :=
  if byteAt s q = 0 then (.nul, q)
  else if byteAt s q = 124 then (.bar, q + 1)
  else if byteAt s q = 40 then (.lpar, q + 1)
  else if byteAt s q = 41 then (.rpar, q + 1)
  else if byteAt s q = 59 then (.semi, q + 1)
  else if byteAt s q = 38 then (.amp, q + 1)
  else if byteAt s q = 60 then (.lt, q + 1)
  else if byteAt s q = 62 then
    if byteAt s (q + 1) = 62 then (.app, q + 2) else (.gt, q + 1)
  else (.word, q + ((s.drop q).takeWhile isWord).length)

/-- `gettoken`. -/
def gettoken (s : List UInt8) : P (Tok × Span) := do
  let i ← get
  let q := skip s i
  let (tok, eq) := tokenAt s q
  set (skip s eq)
  return (tok, ⟨q, eq⟩)

/-- `peek`. -/
def peek (s : List UInt8) (toks : List UInt8) : P Bool := do
  let i ← get
  let q := skip s i
  set q
  return byteAt s q != 0 && toks.contains (byteAt s q)

/-! ### Commands and their parts -/

/-- The `switch` of `parseredirs`. -/
def redirOf (tok : Tok) (sp : Span) : Redir :=
  match tok with
  | .lt => ⟨sp, oRdonly, 0⟩
  | .gt => ⟨sp, oWronlyCreateTrunc, 1⟩
  | _ => ⟨sp, oWronlyCreate, 1⟩

/-- `parseredirs`, without the wrapping. -/
def parseredirs (s : List UInt8) : ℕ → P (List Redir)
  | 0 => throw .fuel
  | n + 1 => do
    if ← peek s [60, 62] then
      let (tok, _) ← gettoken s
      let (w, sp) ← gettoken s
      if w ≠ .word then throw .missingFile
      else
        let rs ← parseredirs s n
        return redirOf tok sp :: rs
    else return []

/-- The loop of `parseexec`: the arguments and the redirections that follow those so far. -/
def parseargs (s : List UInt8) : ℕ → ℕ → P (List Span × List Redir)
  | 0, _ => throw .fuel
  | n + 1, argc => do
    if ← peek s [124, 41, 38, 59] then return ([], [])
    else
      let (tok, sp) ← gettoken s
      if tok = .nul then return ([], [])
      else if tok ≠ .word then throw .badSyntax
      else if maxargs ≤ argc + 1 then throw .tooManyArgs
      else
        let rs ← parseredirs s n
        let (args, rs') ← parseargs s n (argc + 1)
        return (sp :: args, rs ++ rs')

/-- The loop of `parseline` over '&'. -/
def parseback (s : List UInt8) : ℕ → Cmd → P Cmd
  | 0, _ => throw .fuel
  | n + 1, cmd => do
    if ← peek s [38] then
      let _ ← gettoken s
      parseback s n (.back cmd)
    else return cmd

mutual

/-- `parseline`. -/
def parseline (s : List UInt8) : ℕ → P Cmd
  | 0 => throw .fuel
  | n + 1 => do
    let cmd ← parsepipe s n
    let cmd ← parseback s n cmd
    if ← peek s [59] then
      let _ ← gettoken s
      let right ← parseline s n
      return .list cmd right
    else return cmd

/-- `parsepipe`. -/
def parsepipe (s : List UInt8) : ℕ → P Cmd
  | 0 => throw .fuel
  | n + 1 => do
    let cmd ← parseexec s n
    if ← peek s [124] then
      let _ ← gettoken s
      let right ← parsepipe s n
      return .pipe cmd right
    else return cmd

/-- `parseexec`. -/
def parseexec (s : List UInt8) : ℕ → P Cmd
  | 0 => throw .fuel
  | n + 1 => do
    if ← peek s [40] then parseblock s n
    else
      let rs ← parseredirs s n
      let (args, rs') ← parseargs s n 0
      return (Cmd.exec args).wrap (rs ++ rs')

/-- `parseblock`. -/
def parseblock (s : List UInt8) : ℕ → P Cmd
  | 0 => throw .fuel
  | n + 1 => do
    if ← peek s [40] then
      let _ ← gettoken s
      let cmd ← parseline s n
      if ← peek s [41] then
        let _ ← gettoken s
        let rs ← parseredirs s n
        return cmd.wrap rs
      else throw .missingParen
    else throw .parseblock

end

/-! ### `nulterminate` -/

/-- `nulterminate`: the bytes of the line after a 0 is stored at the end of every word. -/
def nulterminate : Cmd → List UInt8 → List UInt8
  | .exec argv, buf => argv.foldl (fun buf w => buf.set w.eq 0) buf
  | .redir cmd r, buf => (nulterminate cmd buf).set r.file.eq 0
  | .pipe left right, buf => nulterminate right (nulterminate left buf)
  | .list left right, buf => nulterminate right (nulterminate left buf)
  | .back cmd, buf => nulterminate cmd buf

/-- A bound that is never exceeded. -/
def depth (s : List UInt8) : ℕ := 4 * s.length + 8

/-- `parsecmd` up to `nulterminate`. -/
def parsecmdFrom (s : List UInt8) : P Cmd := do
  let cmd ← parseline s (depth s)
  let _ ← peek s []
  if (← get) ≠ s.length then throw .badSyntax
  else return cmd

/-- `parsecmd`: the command, and the bytes that its pointers point into. -/
def parsecmd (s : CStr) : Except Panic (Cmd × List UInt8) :=
  match (parsecmdFrom s.bytes).run 0 with
  | .ok cmd _ => .ok (cmd, nulterminate cmd (s.bytes ++ [0]))
  | .error e _ => .error e

end Sh

end Xv6
