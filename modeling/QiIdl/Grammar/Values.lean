import QiIdl.Ast.Basic
import QiIdl.Grammar.Cursor

/-!
# Reading literals and expressions

Binary operators are read by precedence climbing: an operand, then operators that bind at least as tightly as
required, each with a right operand in which only tighter ones are taken. Prefix operators bind tighter than all
of them, and an index `[…]` tighter still.

Brackets around one expression only group it. With a comma inside they make a tuple, whose elements must be
literals. Inside another literal there is nothing to group, so there brackets always make a tuple.

The readers of one level take the reader of the next as an argument; `Expr.parseWithin` ties them together.
-/

namespace QiIdl

variable {σ α : Type} [Keeping σ α]

/-! ## Literals -/

namespace Literal

def parseEntry (item : Reading σ (Literal α)) : Reading σ (Literal α × Literal α) := do
  let key ← item
  let _ ← Parse.expect .colon "':' after dictionary key"
  let value ← item
  pure (key, value)

/-- Reads a literal nested at most `count` deep. -/
def parseWithin : (count : Nat) → Reading σ (Literal α)
  | 0 => Parse.expected "expression"
  | count + 1 => do
    let start := (← Parse.look).span
    match ← Parse.kind with
    | .int value => do
      let _ ← Parse.advance
      Parse.close start (.int · value) .literal
    | .float value => do
      let _ ← Parse.advance
      Parse.close start (.float · value) .literal
    | .string value => do
      let _ ← Parse.advance
      Parse.close start (.string · value) .literal
    | .keyword .trueKw => do
      let _ ← Parse.advance
      Parse.close start (.bool · true) .literal
    | .keyword .falseKw => do
      let _ ← Parse.advance
      Parse.close start (.bool · false) .literal
    | .lbracket => do
      let _ ← Parse.advance
      let items ← Parse.enclosed (parseWithin count) .rbracket count
      let _ ← Parse.expect .rbracket "']' after list elements"
      Parse.close start (.list · items) .literal
    | .lparen => do
      let _ ← Parse.advance
      let items ← Parse.enclosed (parseWithin count) .rparen count
      let _ ← Parse.expect .rparen "')' after tuple elements"
      Parse.close start (.tuple · items) .literal
    | .lbrace => do
      let _ ← Parse.advance
      let entries ← Parse.enclosed (parseEntry (parseWithin count)) .rbrace count
      let _ ← Parse.expect .rbrace "'\x7d' after dictionary entries"
      Parse.close start (.dict · entries) .literal
    | _ => Parse.expected "expression"

def parse : Reading σ (Literal α) := do
  parseWithin ((← Parse.left) + 1)

end Literal

/-! ## Expressions -/

namespace Expr

/-- Makes the expression that a literal is read as, of the same span. -/
def wrap (l : Literal α) : Reading σ (Expr α) := Parse.enter (Keeping.span σ l.tag) (.literal · l) .expr

/-- The literal that an element of a tuple must be. -/
def tupleElement : Expr α → Reading σ (Literal α)
  | .literal _ l => pure l
  | e => Parse.failAt .computedElement (Keeping.span σ e.tag)

def parseElement (expression : Reading σ (Expr α)) : Reading σ (Literal α) := do
  let e ← expression
  tupleElement e

/-- Reads a grouped expression or a tuple. -/
def parseBracketed (expression : Reading σ (Expr α)) (count : Nat) : Reading σ (Expr α) := do
  let start := (← Parse.expect .lparen "'('").span
  if (← Parse.accept .rparen) then
    wrap (← Parse.close start (.tuple · []) .literal)
  else
    let e ← expression
    if (← Parse.accept .rparen) then pure e
    else
      let _ ← Parse.expect .comma "',' or ')'"
      let first ← tupleElement e
      let others ← Parse.enclosed (parseElement expression) .rparen count
      let _ ← Parse.expect .rparen "')' after tuple elements"
      wrap (← Parse.close start (.tuple · (first :: others)) .literal)

/-- Reads a variable or a call. -/
def parseNamed (expression : Reading σ (Expr α)) (count : Nat) : Reading σ (Expr α) := do
  let start := (← Parse.look).span
  let name ← Parse.dottedName "name"
  if (← Parse.accept .lparen) then
    let args ← Parse.separatedUnless expression .rparen count
    let _ ← Parse.expect .rparen "')' after call arguments"
    Parse.close start (.call · name args) .expr
  else Parse.close start (.var · name) .expr

/-- Reads an expression without operators around it. -/
def parsePrimary (expression : Reading σ (Expr α)) (count : Nat) : Reading σ (Expr α) := do
  match ← Parse.kind with
  | .lparen => parseBracketed expression count
  | .ident _ => parseNamed expression count
  | _ => do
    let l ← Literal.parse
    wrap l

/-- Reads indices behind an expression that started at `start`. -/
def parseIndices (expression : Reading σ (Expr α)) (start : Span) :
    (count : Nat) → Expr α → Reading σ (Expr α)
  | 0, e => pure e
  | count + 1, e => do
    if (← Parse.accept .lbracket) then
      let index ← expression
      let _ ← Parse.expect .rbracket "']' after index"
      let fetch ← Parse.close start (.binary · .fetch e index) .expr
      parseIndices expression start count fetch
    else pure e

/-- Reads an operand: prefix operators, then an expression with its indices. -/
def parseOperand (expression : Reading σ (Expr α)) : (count : Nat) → Reading σ (Expr α)
  | 0 => Parse.expected "expression"
  | count + 1 => do
    let start := (← Parse.look).span
    let plain : Reading σ (Expr α) := do
      let e ← parsePrimary expression (count + 1)
      parseIndices expression start (count + 1) e
    match ← Parse.kind with
    | .operator op =>
      if op.isPrefix then
        let _ ← Parse.advance
        let operand ← parseOperand expression count
        Parse.close start (.unary · op operand) .expr
      else plain
    | _ => plain

/-- Reads operators of at least some precedence behind a left operand that started at `start`. -/
def climb (operand : Nat → Reading σ (Expr α)) (start : Span) (least : Nat) :
    (count : Nat) → Expr α → Reading σ (Expr α)
  | 0, left => pure left
  | count + 1, left => do
    match ← Parse.kind with
    | .operator op =>
      if op.isInfix ∧ least ≤ op.precedence then
        let _ ← Parse.advance
        let right ← operand (op.precedence + 1)
        let whole ← Parse.close start (.binary · op left right) .expr
        climb operand start least count whole
      else pure left
    | _ => pure left

/-- Reads an expression nested at most `count` deep, with operators of at least some precedence. -/
def parseWithin : (count : Nat) → (least : Nat) → Reading σ (Expr α)
  | 0, _ => Parse.expected "expression"
  | count + 1, least => do
    let start := (← Parse.look).span
    let left ← parseOperand (parseWithin count 0) (count + 1)
    climb (parseWithin count) start least (count + 1) left

def parse : Reading σ (Expr α) := do
  parseWithin ((← Parse.left) + 1) 0

end Expr

/-- The value that an expression is: a bare literal, or the expression. -/
def Value.ofExpr : Expr α → Value α
  | .literal _ l => .literal l
  | e => .expr e

def Value.parse : Reading σ (Value α) := do
  let e ← Expr.parse
  pure (Value.ofExpr e)

/-- Reads a value behind an equals sign, if there is one. -/
def Value.parseInitial : Reading σ (Option (Value α)) := do
  if (← Parse.accept .eq) then
    let v ← Value.parse
    pure (some v)
  else pure none

end QiIdl
