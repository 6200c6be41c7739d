import QiIdl.Ast.Node
import QiIdl.Grammar.Types
import QiIdl.Grammar.Values

/-!
# Reading declarations and statements

Everything but a block stands on one line. A block has a heading line, items on lines of their own, and a line
with `end`. A faulty item is reported and passed over, so that the rest of the block is still read.
-/

namespace QiIdl

variable {σ α β : Type} [Keeping σ α]

/-- Reads the items of a block and its `end`, of which the span is given back. Documentation lines are handed to
the item they stand before. `name` says which block is left open if the file ends first. -/
def parseBlock (name : String) (item : Option String → Reading σ β) :
    (count : Nat) → Reading σ (List β × Span)
  | 0 => do
    Parse.failAt (.unclosed name) (← Parse.look).span
  | count + 1 => do
    let doc ← Parse.layout true none
    match ← Parse.kind with
    | .keyword .endKw => do
      let stop := (← Parse.advance).span
      Parse.lineEnd
      pure ([], stop)
    | .eof => do
      Parse.failAt (.unclosed name) (← Parse.look).span
    | _ => do
      let first ← Parse.recover (item doc)
      let (others, stop) ← parseBlock name item count
      pure (first.toList ++ others, stop)

/-- Reads a block to its end. -/
def parseBody (name : String) (item : Option String → Reading σ β) : Reading σ (List β × Span) := do
  parseBlock name item ((← Parse.left) + 1)

/-- Reads a block behind a keyword, a name and the names that are inherited from. -/
def parseHeir {γ : Type} (keyword : Keyword) (item : Option String → Reading σ β)
    (build : α → String → List String → List β → γ) (node : γ → Node α) : Reading σ γ := do
  let start := (← Parse.expect (.keyword keyword) s!"'{keyword.spelling}'").span
  let name ← Parse.name s!"{keyword.spelling} name"
  let inherits ← parseInherits
  Parse.lineEnd
  let (items, stop) ← parseBody s!"{keyword.spelling} '{name}'" item
  Parse.enter (start.merge stop) (build · name inherits items) node

/-! ## Interfaces -/

/-- Reads a function. A return type may follow, with or without an arrow. -/
def Fn.parse (doc : Option String) : Reading σ (Fn α) := do
  let start := (← Parse.expect (.keyword .fn) "'fn'").span
  let name ← Parse.name "function name"
  let params ← Param.parseList
  let arrow ← Parse.accept .arrow
  let ret ← TypeExpr.parseIf (arrow || !(← Parse.kind).isLineEnd)
  Parse.closeLine start (⟨·, name, params, ret, doc⟩) .fn

/-- Reads a signal or a property behind its keyword. -/
def Channel.parse (keyword : Keyword) (node : Channel α → Node α) (doc : Option String) : Reading σ (Channel α) := do
  let start := (← Parse.expect (.keyword keyword) "member keyword").span
  let name ← Parse.name "member name"
  let params ← Param.parseList
  Parse.closeLine start (⟨·, name, params, doc⟩) node

def Member.parse (doc : Option String) : Reading σ (Member α) := do
  match ← Parse.kind with
  | .keyword .fn => do
    let d ← Fn.parse doc
    pure (.fn d)
  | .keyword .emit => do
    let d ← Channel.parse .emit .emit doc
    pure (.emit d)
  | .keyword .prop => do
    let d ← Channel.parse .prop .prop doc
    pure (.prop d)
  | _ => Parse.expected "'fn', 'emit', 'prop' or 'end' in interface body"

def Interface.parse (doc : Option String) : Reading σ (Interface α) :=
  parseHeir .interface Member.parse (fun tag name inherits members => ⟨tag, name, inherits, members, doc⟩) .interface

/-! ## Structs and enumerations -/

def Field.parse : Reading σ (Field α) := do
  let start := (← Parse.look).span
  let name ← Parse.name "field name or 'end' in struct body"
  let type ← TypeExpr.parse
  let initial ← Value.parseInitial
  Parse.closeLine start (⟨·, name, type, initial⟩) .field

def Struct.parse (doc : Option String) : Reading σ (Struct α) :=
  parseHeir .struct (fun _ => Field.parse) (fun tag name inherits fields => ⟨tag, name, inherits, fields, doc⟩) .struct

/-- Reads a named value or a named type of an enumeration, up to the end of its line. -/
def EnumItem.parseMeaning : Reading σ (String × EnumMeaning α) := do
  if (← Parse.accept (.keyword .const)) then
    let name ← Parse.name "enum constant name"
    let _ ← Parse.expect .eq "'=' after enum constant name"
    let value ← Value.parse
    pure (name, .const value)
  else if (← Parse.accept (.keyword .typedef)) then
    let type ← TypeExpr.parse
    let name ← Parse.name "enum type name"
    pure (name, .type type)
  else Parse.expected "'const', 'typedef' or 'end' in enum body"

/-- Reads an entry of an enumeration. -/
def EnumItem.parse : Reading σ (EnumItem α) := do
  let start := (← Parse.look).span
  let (name, meaning) ← parseMeaning
  Parse.closeLine start (⟨·, name, meaning⟩) .enumItem

def Enum.parse (doc : Option String) : Reading σ (Enum α) := do
  let start := (← Parse.expect (.keyword .enum) "'enum'").span
  let name ← Parse.name "enum name"
  Parse.lineEnd
  let (items, stop) ← parseBody s!"enum '{name}'" fun _ => EnumItem.parse
  Parse.enter (start.merge stop) (⟨·, name, items, doc⟩) .enum

/-! ## Constants, type names and variables -/

def Const.parse : Reading σ (Const α) := do
  let start := (← Parse.expect (.keyword .const) "'const'").span
  let name ← Parse.name "constant name"
  let type ← TypeExpr.parseIf ((← Parse.kind) ≠ .eq)
  let _ ← Parse.expect .eq "'=' in constant declaration"
  let value ← Value.parse
  Parse.closeLine start (⟨·, name, type, value⟩) .const

/-- Reads a name for a type. -/
def Typedef.parse : Reading σ (Typedef α) := do
  let start := (← Parse.expect (.keyword .typedef) "'typedef'").span
  let type ← TypeExpr.parse
  let name ← Parse.name "typedef name"
  Parse.closeLine start (⟨·, name, type⟩) .typedef

def Var.parse : Reading σ (Var α) := do
  let start := (← Parse.expect (.keyword .var) "'var'").span
  let name ← Parse.name "variable name"
  let next ← Parse.kind
  let type ← TypeExpr.parseIf (next ≠ .eq ∧ ¬next.isLineEnd)
  let value ← Value.parseInitial
  Parse.closeLine start (⟨·, name, type, value⟩) .var

/-! ## Packages -/

/-- Reads the package that a file belongs to. -/
def parsePackage : Reading σ (Node α) := do
  let start := (← Parse.expect (.keyword .package) "'package'").span
  let name ← Parse.dottedName "package name"
  Parse.closeLine start (.package · name) id

/-- Reads what is imported from a package. -/
def ImportScope.parse : Reading σ ImportScope := do
  if (← Parse.accept (.operator .multiply)) then pure .all
  else
    let first ← Parse.name "imported name or '*'"
    if (← Parse.accept .comma) then
      let others ← Parse.separated (Parse.name "imported name") (← Parse.left)
      pure (.names (first :: others))
    else pure (.names [first])

def Import.parse : Reading σ (Import α) := do
  let start := (← Parse.look).span
  let (package, scope) ←
    if (← Parse.accept (.keyword .importKw)) then
      let package ← Parse.dottedName "package name after 'import'"
      pure (package, ImportScope.package)
    else
      let _ ← Parse.expect (.keyword .fromKw) "'import' or 'from'"
      let package ← Parse.dottedName "package name after 'from'"
      let _ ← Parse.expect (.keyword .importKw) "'import' after package name"
      let scope ← ImportScope.parse
      pure (package, scope)
  Parse.closeLine start (⟨·, package, scope⟩) .imports

/-! ## Objects -/

namespace ObjectItem

def parseProperty : Reading σ (ObjectItem α) := do
  let start := (← Parse.expect (.keyword .prop) "'prop'").span
  let name ← Parse.name "property name"
  let value ← Value.parse
  Parse.closeLine start (.property · name value) .object

/-- Reads a connection between a sender and a receiver. -/
def parseConnect : Reading σ (ObjectItem α) := do
  let start := (← Parse.expect (.keyword .atKw) "'at'").span
  let sender ← Value.parse
  let receiver ← Value.parse
  Parse.closeLine start (.connect · sender receiver) .object

/-- Reads an object whose body is read by `item`. -/
def parseObject (item : Reading σ (ObjectItem α)) : Reading σ (ObjectItem α) := do
  let start := (← Parse.expect (.keyword .object) "'object'").span
  let type ← TypeExpr.parse
  match ← Parse.kind with
  | .string name => do
    let nameSpan := (← Parse.advance).span
    let label ← Parse.enter nameSpan (Literal.string · name) .literal
    Parse.lineEnd
    let (body, stop) ← parseBody "object definition" fun _ => item
    Parse.enter (start.merge stop) (.object · type label.tag name body) .object
  | _ => Parse.expected "object name string"

/-- Reads a line of an object's body, or an object nested in it, at most `count` deep. -/
def parseWithin : (count : Nat) → Reading σ (ObjectItem α)
  | 0 => Parse.expected "'prop', 'at', 'object' or 'end' in object body"
  | count + 1 => do
    match ← Parse.kind with
    | .keyword .prop => parseProperty
    | .keyword .atKw => parseConnect
    | .keyword .object => parseObject (parseWithin count)
    | _ => Parse.expected "'prop', 'at', 'object' or 'end' in object body"

def parse : Reading σ (ObjectItem α) := do
  parseObject (parseWithin ((← Parse.left) + 1))

end ObjectItem
end QiIdl
