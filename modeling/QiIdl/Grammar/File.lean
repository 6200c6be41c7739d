import QiIdl.Grammar.Declarations
import QiIdl.Token.Stream

/-!
# Reading a file

A file is a sequence of declarations, statements and comments. A faulty one is reported and passed over, so one
reading finds the faults of all lines. Documentation belongs to the declaration that follows it; plain comments
may stand between, anything else uses it up.
-/

namespace QiIdl

variable {σ α : Type} [Keeping σ α]

namespace Node

/-- Reads what may stand at the top of a file, other than a comment. -/
def parseItem (doc : Option String) : Reading σ (Node α) := do
  let t ← Parse.look
  match t.kind with
  | .keyword .package => parsePackage
  | .keyword .importKw | .keyword .fromKw => do
    let d ← Import.parse
    pure (.imports d)
  | .keyword .interface => do
    let d ← Interface.parse doc
    pure (.interface d)
  | .keyword .struct => do
    let d ← Struct.parse doc
    pure (.struct d)
  | .keyword .enum => do
    let d ← Enum.parse doc
    pure (.enum d)
  | .keyword .const => do
    let d ← Const.parse
    pure (.const d)
  | .keyword .typedef => do
    let d ← Typedef.parse
    pure (.typedef d)
  | .keyword .fn => do
    let d ← Fn.parse doc
    pure (.fn d)
  | .keyword .object => do
    let d ← ObjectItem.parse
    pure (.object d)
  | .keyword .var => do
    let d ← Var.parse
    pure (.var d)
  | .keyword .emit => Parse.failAt (.outsideInterface .emit) t.span
  | .keyword .prop => Parse.failAt (.outsideInterface .prop) t.span
  | _ => Parse.expected "declaration"

/-- Reads a comment at the top of a file. -/
def parseComment (text : String) : Reading σ (Node α) := do
  let span := (← Parse.advance).span
  Parse.lineEnd
  Parse.enter span (.comment · text) id

/-- Reads the rest of a file, with the documentation that is waiting for a declaration. -/
def parseItems : (count : Nat) → (doc : Option String) → Reading σ (List (Node α))
  | 0, _ => pure []
  | count + 1, doc => do
    let doc ← Parse.layout false doc
    match ← Parse.kind with
    | .eof => pure []
    | .comment text => do
      let first ← Parse.recover (parseComment text)
      let others ← parseItems count doc
      pure (first.toList ++ others)
    | _ => do
      let first ← Parse.recover (parseItem doc)
      let others ← parseItems count none
      pure (first.toList ++ others)

end Node

/-- What stands at the top of a file, from its tokens, and what is kept of it, or everything that is wrong with their
order. -/
def parseTokens (kept : σ) (tokens : List Token) : Except (List Fault) (List (Node α) × σ) :=
  match Node.parseItems (tokens.length + 1) none ⟨tokens, .point 0, [], kept⟩ with
  | .ok roots c => if c.faults.isEmpty then .ok (roots, c.kept) else .error c.faults
  | .error fault c => .error (c.faults ++ [fault])

/-- The arena of a source text: every fault of its characters, or else every fault of its tokens, if it has
any. The file name is recorded to show places. -/
def parseSource (source file : String) : Except (List Fault) Ast := do
  let tokens ← lex source
  let (roots, nodes) ← parseTokens #[] tokens
  pure ⟨file, LineIndex.ofText source.toList, nodes, roots⟩

end QiIdl
