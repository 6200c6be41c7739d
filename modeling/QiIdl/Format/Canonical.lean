import QiIdl.Ast.Arena
import QiIdl.Binary64.Text
import QiIdl.Output.Writer
import QiIdl.Text.Pieces
import QiIdl.Text.Quoted

/-!
# The canonical form

Every file has one canonical form, which reads back as the same syntax. Binary operations are written in
brackets, so precedence never matters; aliases, number formats, blanks and line breaks become uniform.
-/

namespace QiIdl

variable {α : Type}

def commaList (items : List String) : String := ", ".intercalate items

/-! ## Types -/

mutual

/-- The canonical form of a type. -/
def TypeExpr.canonical : TypeExpr α → String
  | .builtin _ type => type.spelling
  | .custom _ name => name
  | .list _ element => "[]" ++ element.canonical
  | .map _ key value => "[" ++ key.canonical ++ "]" ++ value.canonical
  | .tuple _ elements => "(" ++ commaList (TypeExpr.canonicalAll elements) ++ ")"

def TypeExpr.canonicalAll : List (TypeExpr α) → List String
  | [] => []
  | t :: ts => t.canonical :: TypeExpr.canonicalAll ts

end

/-! ## Values -/

mutual

/-- The canonical form of a literal. A comma tells a tuple of one element from a grouped value. -/
def Literal.canonical : Literal α → String
  | .bool _ value => if value then "true" else "false"
  | .int _ value => toString value
  | .float _ value => value.text
  | .string _ value => Text.quote value
  | .list _ items => "[" ++ commaList (Literal.canonicalAll items) ++ "]"
  | .tuple _ [item] => "(" ++ item.canonical ++ ",)"
  | .tuple _ items => "(" ++ commaList (Literal.canonicalAll items) ++ ")"
  | .dict _ entries => "\x7b" ++ commaList (Literal.canonicalEntries entries) ++ "\x7d"

def Literal.canonicalAll : List (Literal α) → List String
  | [] => []
  | l :: ls => l.canonical :: Literal.canonicalAll ls

def Literal.canonicalEntries : List (Literal α × Literal α) → List String
  | [] => []
  | (key, value) :: rest => (key.canonical ++ ": " ++ value.canonical) :: Literal.canonicalEntries rest

end

/-- Whether an expression is a prefix operation, which must be grouped before an index. -/
def Expr.isUnary : Expr α → Bool
  | .unary .. => true
  | _ => false

mutual

def Expr.canonical : Expr α → String
  | .binary _ .fetch left right =>
    (if left.isUnary then "(" ++ left.canonical ++ ")" else left.canonical) ++ "[" ++ right.canonical ++ "]"
  | .binary _ op left right =>
    "(" ++ left.canonical ++ " " ++ op.spelling ++ " " ++ right.canonical ++ ")"
  | .unary _ op operand => op.spelling ++ operand.canonical
  | .var _ name => name
  | .literal _ l => l.canonical
  | .call _ name args => name ++ "(" ++ commaList (Expr.canonicalAll args) ++ ")"

def Expr.canonicalAll : List (Expr α) → List String
  | [] => []
  | e :: es => e.canonical :: Expr.canonicalAll es

end

def Value.canonical : Value α → String
  | .literal l => l.canonical
  | .expr e => e.canonical

/-! ## Declarations and statements -/

/-- The lines of a documentation text. -/
def docLines (doc : Option String) : List Step :=
  match doc with
  | some text => (Text.pieces '\n' text.toList).map fun line => .writeLine ("## " ++ String.ofList line)
  | none => []

def Param.canonical (p : Param α) : String :=
  match p.name with
  | some name => name ++ " " ++ p.type.canonical
  | none => p.type.canonical

def Param.canonicalAll (params : List (Param α)) : String :=
  "(" ++ commaList (params.map Param.canonical) ++ ")"

/-- The names that a declaration inherits from, behind its own name. -/
def canonicalInherits (names : List String) : String :=
  if names.isEmpty then "" else "(" ++ commaList names ++ ")"

/-- A heading, its body one level deeper, and the end. -/
def canonicalBlock (heading : String) (body : List Step) : List Step :=
  [.writeLine heading, .scope body, .writeLine "end"]

def Fn.canonical (d : Fn α) : List Step :=
  let ret := match d.ret with
    | some t => " " ++ t.canonical
    | none => ""
  docLines d.doc ++ [.writeLine ("fn " ++ d.name ++ Param.canonicalAll d.params ++ ret)]

/-- The canonical form of a signal or a property. -/
def Channel.canonical (keyword : String) (d : Channel α) : List Step :=
  docLines d.doc ++ [.writeLine (keyword ++ " " ++ d.name ++ Param.canonicalAll d.params)]

def Member.canonical : Member α → List Step
  | .fn d => d.canonical
  | .emit d => d.canonical "emit"
  | .prop d => d.canonical "prop"

/-- A value behind an equals sign, if there is one. -/
def canonicalInitial (value : Option (Value α)) : String :=
  match value with
  | some v => " = " ++ v.canonical
  | none => ""

/-- A type behind a blank, if there is one. -/
def canonicalAnnotation (type : Option (TypeExpr α)) : String :=
  match type with
  | some t => " " ++ t.canonical
  | none => ""

def Field.canonical (d : Field α) : List Step :=
  [.writeLine (d.name ++ " " ++ d.type.canonical ++ canonicalInitial d.initial)]

/-- The canonical form of an entry of an enumeration. -/
def EnumItem.canonical (d : EnumItem α) : List Step :=
  match d.meaning with
  | .const value => [.writeLine ("const " ++ d.name ++ " = " ++ value.canonical)]
  | .type type => [.writeLine ("typedef " ++ type.canonical ++ " " ++ d.name)]

def Import.canonical (d : Import α) : String :=
  match d.scope with
  | .package => "import " ++ d.package
  | .names names => "from " ++ d.package ++ " import " ++ commaList names
  | .all => "from " ++ d.package ++ " import *"

mutual

/-- The canonical form of an object or a line of its body. -/
def ObjectItem.canonical : ObjectItem α → List Step
  | .property _ name value => [.writeLine ("prop " ++ name ++ " " ++ value.canonical)]
  | .connect _ sender receiver => [.writeLine ("at " ++ sender.canonical ++ " " ++ receiver.canonical)]
  | .object _ type _ name body =>
    canonicalBlock ("object " ++ type.canonical ++ " " ++ Text.quote name) (ObjectItem.canonicalAll body)

/-- The canonical form of the lines of a body. -/
def ObjectItem.canonicalAll : List (ObjectItem α) → List Step
  | [] => []
  | o :: os => o.canonical ++ ObjectItem.canonicalAll os

end

namespace Node

/-- The canonical form of a node on one line: of a literal, an expression or a type all of it, of a declaration
its name, of a statement nothing. -/
def canonicalText (n : Node α) : String :=
  match n with
  | literal l => l.canonical
  | expr e => e.canonical
  | type t => t.canonical
  | n => n.declaredName?.getD ""

def canonical : Node α → List Step
  | interface d =>
    docLines d.doc ++ canonicalBlock ("interface " ++ d.name ++ canonicalInherits d.inherits)
      (d.members.flatMap Member.canonical)
  | fn d => d.canonical
  | emit d => d.canonical "emit"
  | prop d => d.canonical "prop"
  | struct d =>
    docLines d.doc ++ canonicalBlock ("struct " ++ d.name ++ canonicalInherits d.inherits)
      (d.fields.flatMap Field.canonical)
  | field d => d.canonical
  | const d => [.writeLine ("const " ++ d.name ++ canonicalAnnotation d.type ++ " = " ++ d.value.canonical)]
  | typedef d => [.writeLine ("typedef " ++ d.type.canonical ++ " " ++ d.name)]
  | enum d => docLines d.doc ++ canonicalBlock ("enum " ++ d.name) (d.items.flatMap EnumItem.canonical)
  | enumItem d => d.canonical
  | package _ name => [.writeLine ("package " ++ name)]
  | imports d => [.writeLine d.canonical]
  | object o => o.canonical
  | var d => [.writeLine ("var " ++ d.name ++ canonicalAnnotation d.type ++ canonicalInitial d.value)]
  | comment _ text => [.writeLine ("# " ++ text)]
  | n => [.writeLine n.canonicalText]

/-- Whether an empty line follows a node at the top of a file: blocks are set apart. -/
def isBlock (n : Node α) : Bool :=
  match n.sort with
  | .interface | .struct | .enum | .object => true
  | _ => false

/-- The canonical form of a node at the top of a file. -/
def canonicalTop (n : Node α) : List Step := n.canonical ++ if n.isBlock then [.newline] else []

end Node

/-- The canonical form of a file, with so many blanks for a level. -/
def Ast.canonical (width : Nat) (ast : Ast) : String :=
  Step.render width (ast.roots.flatMap Node.canonicalTop)

end QiIdl
