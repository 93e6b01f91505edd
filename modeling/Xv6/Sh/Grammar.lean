import Xv6.Sh.Parser

/-!
# The grammar of command lines

What a command line means, told without the parser: its tokens (`lex`), and which sequences of
tokens are lines, pipelines and simple commands, with the tree of each derivation (`Derives`). A word is a
maximal run of characters that are neither white space nor symbols, and ">>" is one token.

The rules are

* line ::= pipe '&'* [ ';' line ]
* pipe ::= exec [ '|' pipe ]
* exec ::= '(' line ')' redir* | ( word | redir )*
* redir ::= ( '<' | '>' | '>>' ) word

with fewer than `MAXARGS` words in a simple command.
-/

namespace Xv6

namespace Sh

/-- The characters of a word. -/
abbrev Text := List UInt8

inductive Token
  | word (w : Text)
  | bar | lpar | rpar | semi | amp | lt | gt | app
deriving DecidableEq, Repr

/-- The token that a symbol stands for. -/
def symbolToken (c : UInt8) : Token :=
  if c = 124 then .bar
  else if c = 40 then .lpar
  else if c = 41 then .rpar
  else if c = 59 then .semi
  else if c = 38 then .amp
  else if c = 60 then .lt
  else .gt

/-- The tokens of a string. -/
def lex : List UInt8 → List Token
  | [] => []
  | c :: r =>
    if isSpace c then lex r
    else if isWord c then .word (c :: r.takeWhile isWord) :: lex (r.dropWhile isWord)
    else if c = 62 ∧ r.head? = some 62 then .app :: lex r.tail
    else symbolToken c :: lex r
termination_by l => l.length
decreasing_by
  · simp
  · exact Nat.lt_succ_of_le (List.dropWhile_sublist _).length_le
  · simp only [List.length_tail, List.length_cons]
    omega
  · simp

/-- A redirection with the name of its file. -/
structure Redirect where
  file : Text
  mode : ℕ
  fd : ℕ
deriving DecidableEq, Repr

/-- What a line means. -/
inductive Tree
  | exec (argv : List Text)
  | redir (t : Tree) (r : Redirect)
  | pipe (left right : Tree)
  | list (left right : Tree)
  | back (t : Tree)
deriving DecidableEq, Repr

/-- Later redirections are outermost. -/
def Tree.wrap (t : Tree) (rs : List Redirect) : Tree := rs.foldl Tree.redir t

/-- A command followed by `k` times '&'. -/
def Tree.backs (t : Tree) : ℕ → Tree
  | 0 => t
  | k + 1 => (Tree.back t).backs k

/-- The redirection that an operator and a word make. -/
def redirect (op : Token) (w : Text) : Option Redirect :=
  match op with
  | .lt => some ⟨w, oRdonly, 0⟩
  | .gt => some ⟨w, oWronlyCreateTrunc, 1⟩
  | .app => some ⟨w, oWronlyCreate, 1⟩
  | _ => none

/-- redir* -/
inductive Redirects : List Token → List Redirect → Prop
  | nil : Redirects [] []
  | cons {op : Token} {w : Text} {r : Redirect} {ts : List Token} {rs : List Redirect}
      (hop : redirect op w = some r) (h : Redirects ts rs) :
      Redirects (op :: .word w :: ts) (r :: rs)

/-- ( word | redir )* -/
inductive Items : List Token → List Text → List Redirect → Prop
  | nil : Items [] [] []
  | word {w : Text} {ts : List Token} {args : List Text} {rs : List Redirect}
      (h : Items ts args rs) : Items (.word w :: ts) (w :: args) rs
  | redir {op : Token} {w : Text} {r : Redirect} {ts : List Token} {args : List Text}
      {rs : List Redirect} (hop : redirect op w = some r) (h : Items ts args rs) :
      Items (op :: .word w :: ts) args (r :: rs)

/-- The nonterminals that nest. -/
inductive Kind
  | line | pipe | exec
deriving DecidableEq, Repr

/-- The derivations and their trees. -/
inductive Derives : Kind → List Token → Tree → Prop
  | line {ts : List Token} {t : Tree} (h : Derives .pipe ts t) (k : ℕ) :
      Derives .line (ts ++ List.replicate k .amp) (t.backs k)
  | seq {ts us : List Token} {t u : Tree} (h : Derives .pipe ts t) (k : ℕ)
      (h' : Derives .line us u) :
      Derives .line (ts ++ (List.replicate k .amp ++ .semi :: us)) (.list (t.backs k) u)
  | single {ts : List Token} {t : Tree} (h : Derives .exec ts t) : Derives .pipe ts t
  | pipe {ts us : List Token} {t u : Tree} (h : Derives .exec ts t) (h' : Derives .pipe us u) :
      Derives .pipe (ts ++ .bar :: us) (.pipe t u)
  | block {ts us : List Token} {t : Tree} {rs : List Redirect} (h : Derives .line ts t)
      (h' : Redirects us rs) : Derives .exec (.lpar :: ts ++ .rpar :: us) (t.wrap rs)
  | simple {ts : List Token} {args : List Text} {rs : List Redirect} (h : Items ts args rs)
      (hlt : args.length < maxargs) : Derives .exec ts ((Tree.exec args).wrap rs)

/-! ### Commands as trees -/

/-- The characters between the two ends of a word. -/
def Span.text (sp : Span) (s : List UInt8) : Text := (s.drop sp.q).take (sp.eq - sp.q)

/-- The string that a pointer to the first byte points to. -/
def Span.cstr (sp : Span) (buf : List UInt8) : Text := (buf.drop sp.q).takeWhile (· ≠ 0)

/-- A redirection, when `f` reads its word. -/
def Redir.tree (f : Span → Text) (r : Redir) : Redirect := ⟨f r.file, r.mode, r.fd⟩

/-- A command as a tree, when `f` reads its words. -/
def Cmd.tree (f : Span → Text) : Cmd → Tree
  | .exec argv => .exec (argv.map f)
  | .redir cmd r => .redir (cmd.tree f) (r.tree f)
  | .pipe left right => .pipe (left.tree f) (right.tree f)
  | .list left right => .list (left.tree f) (right.tree f)
  | .back cmd => .back (cmd.tree f)

end Sh

end Xv6
