import QiIdl.Source.Fault
import QiIdl.Token.Lexeme

/-!
# The token stream

The layout of a text decides which of its lexemes become tokens. A line feed ends a line only outside brackets
and only if the line has a token on it, so blank lines vanish and a bracketed list may span lines. A comment is
a token only when it has a line to itself; behind other tokens, or inside brackets, it is dropped.
-/

namespace QiIdl

/-- Where reading stands: the offset, whether the current line is still empty, and how many brackets are open. -/
structure Layout where
  offset : Nat
  fresh : Bool
  depth : Nat
deriving DecidableEq, Repr

namespace Layout

def start : Layout := ⟨0, true, 0⟩

/-- The number of open brackets behind a token. A closing bracket without an opening one closes nothing. -/
def depthAfter (depth : Nat) : TokenKind → Nat
  | .lparen | .lbracket | .lbrace => depth + 1
  | .rparen | .rbracket | .rbrace => depth - 1
  | _ => depth

/-- The token that a lexeme becomes, if it does. -/
def kindOf (l : Layout) : LexemeContent → Option TokenKind
  | .blank | .nothing => none
  | .feed => if l.depth = 0 ∧ !l.fresh then some .newline else none
  | .comment isDoc text =>
    if l.fresh ∧ l.depth = 0 then some (if isDoc then .docComment text else .comment text) else none
  | .token kind => some kind

/-- The layout behind a lexeme. -/
def after (l : Layout) (x : Lexeme) : Layout :=
  let offset := l.offset + byteLength x.text
  match l.kindOf x.content with
  | none => { l with offset := offset }
  | some .newline => { l with offset := offset, fresh := true }
  | some kind => ⟨offset, false, depthAfter l.depth kind⟩

def spanOf (l : Layout) (x : Lexeme) : Span := ⟨l.offset, l.offset + byteLength x.text⟩

/-- The token of a lexeme, as a list of at most one. -/
def tokenOf (l : Layout) (x : Lexeme) : List Token :=
  match l.kindOf x.content with
  | some kind => [⟨kind, l.spanOf x⟩]
  | none => []

def faultsOf (l : Layout) (x : Lexeme) : List Fault :=
  x.flaws.map fun flaw =>
    .plain .lexical flaw.error.message ⟨l.offset, l.offset + flaw.length⟩

/-- The tokens of some lexemes. A last line without a line feed is ended too. -/
def tokens (l : Layout) : List Lexeme → List Token
  | [] =>
    let stop := Span.point l.offset
    if l.fresh then [⟨.eof, stop⟩] else [⟨.newline, stop⟩, ⟨.eof, stop⟩]
  | x :: xs => l.tokenOf x ++ (l.after x).tokens xs

def faults (l : Layout) : List Lexeme → List Fault
  | [] => []
  | x :: xs => l.faultsOf x ++ (l.after x).faults xs

end Layout

/-- The tokens of a text, or everything that is wrong with its characters. -/
def lex (source : String) : Except (List Fault) (List Token) :=
  let lexemes := Lexeme.all source.toList
  match Layout.start.faults lexemes with
  | [] => .ok (Layout.start.tokens lexemes)
  | faults => .error faults

end QiIdl
