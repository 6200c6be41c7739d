import QiIdl.Doc.Basic
import QiIdl.Format.Canonical
import QiIdl.Format.Json
import QiIdl.Output.Diagnostic

/-!
# The documentation map

The documentation of a file as a JSON object: the interfaces by name, and in each of them the members by name.
Nothing else has documentation to show. Documentation that cannot be read is reported and left out.
-/

namespace QiIdl

/-- The name of a parameter: the one it has, or one made from its place in the list. -/
def parameterName (name : Option String) (index : Nat) : String := name.getD s!"p{index}"

def Param.names {α : Type} (params : List (Param α)) : List String :=
  params.zipIdx.map fun (p, index) => parameterName p.name index

/-- Reporting adds to the reports there are. -/
abbrev Reporting := StateM (List Diagnostic)

def report (d : Diagnostic) : Reporting Unit := modify (· ++ [d])

/-- The documentation of a declaration, if it has any that can be read. What is wrong with it is reported at
the declaration. -/
def readDoc (location : Location) (doc : Option String) : Reporting (Option Doc) := do
  match doc with
  | none => pure none
  | some text =>
    match Doc.parse text with
    | .ok d => do
      modify (· ++ d.warnings.map (Diagnostic.plain .warning location))
      pure (some d)
    | .error e => do
      report (.plain .warning location s!"invalid documentation: {e.message}")
      pure none

/-- A member of a map that is there only if it has a text. -/
def textMember (name : String) (text : Option String) : List (String × JsonDoc) :=
  text.toList.map fun t => (name, .text t)

/-- The general part of a documentation. -/
def Doc.members (d : Option Doc) : List (String × JsonDoc) :=
  textMember "brief" (d.bind (·.brief)) ++ textMember "description" (d.bind (·.description))

def Param.docMap {α : Type} (doc : Option Doc) (params : List (Param α)) : JsonDoc :=
  .ofMembers <| (Param.names params).zip params |>.map fun (name, p) =>
    (name, .ofMembers (("type", .text p.type.canonical) ::
      textMember "description" (doc.bind (·.param? name))))

/-- The map of a method. One that returns nothing says so. -/
def Fn.docMap {α : Type} (doc : Option Doc) (d : Fn α) : JsonDoc :=
  .ofMembers <| [("type", .text "method")] ++ Doc.members doc
    ++ textMember "returnDescription" (doc.bind (·.returns))
    ++ [("return", .text ((d.ret.map TypeExpr.canonical).getD "nothing")),
      ("parameters", Param.docMap doc d.params)]

def Channel.docMap {α : Type} (kind : String) (doc : Option Doc) (d : Channel α) : JsonDoc :=
  .ofMembers [("type", .text kind), ("parameters", Param.docMap doc d.params)]

/-- The map of a member, under its name. -/
def Member.docMap (ast : Ast) (m : Member Mark) : Reporting (String × JsonDoc) := do
  let doc ← readDoc (ast.location m.node) m.node.doc?
  pure <| match m with
    | .fn d => (d.name, d.docMap doc)
    | .emit d => (d.name, d.docMap "signal" doc)
    | .prop d => (d.name, d.docMap "property" doc)

def Interface.docMap (ast : Ast) (d : Interface Mark) : Reporting (String × JsonDoc) := do
  let doc ← readDoc (ast.locate d.tag.span) d.doc
  let members ← d.members.mapM (Member.docMap ast)
  pure (d.name, .ofMembers <| [("type", .text "interface")] ++ Doc.members doc
    ++ [("inherits", .list d.inherits), ("members", .ofMembers members)])

/-- The documentation map of a file. -/
def Ast.docMap (ast : Ast) : Reporting String := do
  let interfaces ← ast.interfaces.mapM (Interface.docMap ast)
  pure (JsonDoc.ofMembers interfaces).render

end QiIdl
