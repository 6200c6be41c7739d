import QiIdl.Ast.Basic
import QiIdl.Grammar.Cursor

/-!
# Reading types

    int32          a builtin type
    pkg.Robot      a custom type
    []str          a list
    [str]int32     a map
    (str, int32)   a tuple
-/

namespace QiIdl

variable {σ α : Type} [Keeping σ α]

namespace TypeExpr

/-- The type of a name: the builtin one, or a custom type. -/
def ofName (tag : α) (name : String) : TypeExpr α :=
  match Builtin.ofSpelling? name with
  | some type => .builtin tag type
  | none => .custom tag name

/-- Reads a type nested at most `count` deep. -/
def parseWithin : (count : Nat) → Reading σ (TypeExpr α)
  | 0 => Parse.expected "type"
  | count + 1 => do
    let start := (← Parse.look).span
    match ← Parse.kind with
    | .lbracket => do
      let _ ← Parse.advance
      if (← Parse.accept .rbracket) then
        let element ← parseWithin count
        Parse.close start (.list · element) .type
      else
        let key ← parseWithin count
        let _ ← Parse.expect .rbracket "']' after map key type"
        let value ← parseWithin count
        Parse.close start (.map · key value) .type
    | .lparen => do
      let _ ← Parse.advance
      let elements ← Parse.separatedUnless (parseWithin count) .rparen count
      let _ ← Parse.expect .rparen "')' after tuple element types"
      Parse.close start (.tuple · elements) .type
    | .ident _ => do
      let name ← Parse.dottedName "type name"
      Parse.close start (ofName · name) .type
    | _ => Parse.expected "type"

def parse : Reading σ (TypeExpr α) := do
  parseWithin ((← Parse.left) + 1)

/-- Reads a type where there is one. -/
def parseIf (wanted : Bool) : Reading σ (Option (TypeExpr α)) := do
  if wanted then
    let t ← parse
    pure (some t)
  else pure none

def startsWith : TokenKind → Bool
  | .ident _ | .lbracket | .lparen => true
  | _ => false

end TypeExpr

/-- Reads a parameter. A name followed by something that starts a type is the name of the parameter. -/
def Param.parse : Reading σ (Param α) := do
  let c ← get
  match c.peek.kind with
  | .ident name =>
    if TypeExpr.startsWith c.peekSecond.kind then
      let _ ← Parse.advance
      let type ← TypeExpr.parse
      pure ⟨some name, type⟩
    else
      let type ← TypeExpr.parse
      pure ⟨none, type⟩
  | _ => do
    let type ← TypeExpr.parse
    pure ⟨none, type⟩

def Param.parseList : Reading σ (List (Param α)) := do
  let _ ← Parse.expect .lparen "'(' before parameters"
  if (← Parse.accept .rparen) then pure []
  else
    let params ← Parse.separated Param.parse (← Parse.left)
    let _ ← Parse.expect .rparen "')' after parameters"
    pure params

/-- Reads the names that a declaration inherits from, if it lists any. -/
def parseInherits : Reading σ (List String) := do
  if (← Parse.accept .lparen) then
    let names ← Parse.separatedUnless (Parse.dottedName "base name") .rparen (← Parse.left)
    let _ ← Parse.expect .rparen "')' after base list"
    pure names
  else pure []

end QiIdl
