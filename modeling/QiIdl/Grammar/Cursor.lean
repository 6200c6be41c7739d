import QiIdl.Ast.Arena
import QiIdl.Source.Fault
import QiIdl.Token.Basic

/-!
# Reading tokens

A reader works its way through the tokens of a file with a cursor. It succeeds, or it fails with a fault and
leaves the cursor where it gave up. Faults that were recovered from are kept with the cursor, in order, and so are the
nodes made by then, in whatever way nodes are kept. A file is read with an arena; that no reader looks at what is kept
shows where the same readers run without one.

Loops and nesting are bounded by a count that callers take from the number of tokens left: every round and every
level reads at least one token.
-/

namespace QiIdl

/-- What can be wrong with the order of tokens. -/
inductive SyntaxError where
  | expected (what : String) (found : TokenKind)
  | unclosed (block : String)
  | outsideInterface (keyword : Keyword)
  | computedElement
deriving DecidableEq, Repr

def SyntaxError.message : SyntaxError → String
  | expected what found => s!"Expected {what}, found {found.describe}"
  | unclosed block => s!"Expected 'end' to close {block}"
  | outsideInterface keyword => s!"'{keyword.spelling}' is only valid inside an interface"
  | computedElement => "Tuple elements must be literals"

/-- The tokens to be read, the span of the token read last, the faults recovered from, and the nodes kept. -/
structure Cursor (σ : Type) where
  rest : List Token
  last : Span
  faults : List Fault
  kept : σ

/-- A reader of tokens that keeps nodes. -/
abbrev Reading (σ : Type) := EStateM Fault (Cursor σ)

/-- A reader of tokens that keeps nothing. -/
abbrev Parse := Reading Unit

variable {σ α β : Type}

namespace Cursor

/-- The token to be read next. Behind the last token the end of the file goes on. -/
def peek (c : Cursor σ) : Token := c.rest.headD ⟨.eof, c.last⟩

def peekSecond (c : Cursor σ) : Token := (c.rest.drop 1).headD c.peek

/-- The cursor behind the next token. The end of the file is never passed. -/
def advance (c : Cursor σ) : Cursor σ :=
  match c.rest with
  | t :: rest => if t.kind = .eof then c else { c with rest := rest, last := t.span }
  | [] => c

/-- The cursor behind the next end of line, or at the end of the file if there is none. -/
def nextLine (c : Cursor σ) : Cursor σ :=
  let rec go (last : Span) : List Token → Cursor σ
    | [] => { c with rest := [], last := last }
    | t :: rest =>
      if t.kind = .eof then { c with rest := t :: rest, last := last }
      else if t.kind = .newline then { c with rest := rest, last := t.span }
      else go t.span rest
  go c.last c.rest

end Cursor

/-- A line of documentation behind those there are. -/
def joinDoc (doc : Option String) (line : String) : Option String :=
  match doc with
  | some lines => some s!"{lines}\n{line}"
  | none => some line

namespace Parse

def look : Reading σ Token := do
  let c ← get
  pure c.peek

def kind : Reading σ TokenKind := do
  let t ← look
  pure t.kind

def advance : Reading σ Token := do
  let t ← look
  modify Cursor.advance
  pure t

def left : Reading σ Nat := do
  let c ← get
  pure c.rest.length

def failAt (error : SyntaxError) (span : Span) : Reading σ β :=
  throw (.plain .grammatical error.message span)

/-- Fails at the next token, which is not what was expected. -/
def expected (what : String) : Reading σ β := do
  let t ← look
  failAt (.expected what t.kind) t.span

/-- Reads a token of one kind if it is next, and says whether it was. -/
def accept (k : TokenKind) : Reading σ Bool := do
  if (← kind) = k then
    modify Cursor.advance
    pure true
  else pure false

/-- Reads a token of one kind. -/
def expect (k : TokenKind) (what : String) : Reading σ Token := do
  if (← kind) = k then advance else expected what

/-- The span from the start of one span to the end of the token read last. -/
def spanFrom (start : Span) : Reading σ Span := do
  let c ← get
  pure (start.merge c.last)

/-- Reads the end of a line. The end of the file will do. -/
def lineEnd : Reading σ Unit := do
  if (← accept .newline) then pure ()
  else if (← kind) = .eof then pure ()
  else expected "end of line"

/-- Builds something that has a tag, and keeps its node. -/
def enter [Keeping σ α] (span : Span) (build : α → β) (node : β → Node α) : Reading σ β := fun c =>
  let (tag, kept) := Keeping.keep span (fun tag => node (build tag)) c.kept
  .ok (build tag) { c with kept := kept }

/-- Builds what started at `start` and ends with the token read last. -/
def close [Keeping σ α] (start : Span) (build : α → β) (node : β → Node α) : Reading σ β := do
  enter (← spanFrom start) build node

/-- Builds what started at `start` and ends with its line. -/
def closeLine [Keeping σ α] (start : Span) (build : α → β) (node : β → Node α) : Reading σ β := do
  let span ← spanFrom start
  lineEnd
  enter span build node

/-- Tries to read something. If that fails, the fault is kept and reading goes on with the next line. -/
def recover (p : Reading σ β) : Reading σ (Option β) := fun c =>
  match p c with
  | .ok b c => .ok (some b) c
  | .error fault c => .ok none { c with faults := c.faults ++ [fault] }.nextLine

/-- Passes over ends of lines and collects documentation, behind what there is of it. Plain comments are passed
over only where they mean nothing. -/
def layout (comments : Bool) (doc : Option String) : Reading σ (Option String) := fun c =>
  let rec go (doc : Option String) (last : Span) : List Token → Option String × Cursor σ
    | [] => (doc, { c with rest := [], last := last })
    | t :: rest =>
      match t.kind with
      | .newline => go doc t.span rest
      | .docComment text => go (joinDoc doc text) t.span rest
      | .comment _ => if comments then go doc t.span rest else (doc, { c with rest := t :: rest, last := last })
      | _ => (doc, { c with rest := t :: rest, last := last })
  let (doc, c) := go doc c.last c.rest
  .ok doc c

/-! ## Names and lists -/

def name (what : String) : Reading σ String := do
  match ← kind with
  | .ident text => do
    modify Cursor.advance
    pure text
  | _ => expected what

/-- Reads the rest of a dotted name, behind its first segment. -/
def dottedRest : (count : Nat) → String → Reading σ String
  | 0, text => pure text
  | count + 1, text => do
    if (← accept .dot) then
      let segment ← name "identifier after '.'"
      dottedRest count s!"{text}.{segment}"
    else pure text

def dottedName (what : String) : Reading σ String := do
  let first ← name what
  dottedRest (← left) first

/-- Reads one or more items with commas between them. -/
def separated (item : Reading σ β) : (count : Nat) → Reading σ (List β)
  | 0 => pure []
  | count + 1 => do
    let b ← item
    if (← accept .comma) then
      let bs ← separated item count
      pure (b :: bs)
    else pure [b]

/-- Reads items with commas between them up to a closing sign, which is left there. A comma may stand behind
the last item. -/
def enclosed (item : Reading σ β) (close : TokenKind) : (count : Nat) → Reading σ (List β)
  | 0 => pure []
  | count + 1 => do
    if (← kind) = close then pure []
    else
      let b ← item
      if (← accept .comma) then
        let bs ← enclosed item close count
        pure (b :: bs)
      else pure [b]

/-- Reads items with commas between them, or none at all before a closing sign, which is left there. -/
def separatedUnless (item : Reading σ β) (close : TokenKind) (count : Nat) : Reading σ (List β) := do
  if (← kind) = close then pure [] else separated item count

end Parse
end QiIdl
