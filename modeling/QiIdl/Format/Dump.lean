import QiIdl.Ast.Arena
import QiIdl.Binary64.Text
import QiIdl.Output.Writer
import QiIdl.Text.Quoted

/-!
# The tree dump

A dump shows the tree of a file as nested lists, each headed by a word for what it is. What is shown of a piece of syntax
is its `sexp`; how a nested list is written does not depend on what it shows. It stands on one line, but for blocks: these
have their children on lines of their own and are closed on one. Documentation is left out.
-/

namespace QiIdl

/-! ## Nested lists -/

/-- Nested lists of words and quoted texts. -/
inductive Sexp where
  | word (text : String)
  | quoted (text : String)
  | list (items : List Sexp)

namespace Sexp

/-- A list headed by a word. -/
def headed (head : String) (items : List Sexp) : Sexp := list (word head :: items)

mutual

/-- A nested list on one line. -/
def text : Sexp → String
  | word text => text
  | quoted text => Text.quote text
  | list items => "(" ++ " ".intercalate (textAll items) ++ ")"

def textAll : List Sexp → List String
  | [] => []
  | s :: ss => s.text :: textAll ss

end

end Sexp

/-! ## Nested lists of the syntax -/

variable {α : Type}

mutual

/-- The nested list of a type. -/
def TypeExpr.sexp : TypeExpr α → Sexp
  | .builtin _ type => .headed "type" [.word type.spelling]
  | .custom _ name => .headed "type" [.word name]
  | .list _ element => .headed "listtype" [element.sexp]
  | .map _ key value => .headed "maptype" [key.sexp, value.sexp]
  | .tuple _ elements => .headed "tupletype" (TypeExpr.sexpAll elements)

def TypeExpr.sexpAll : List (TypeExpr α) → List Sexp
  | [] => []
  | t :: ts => t.sexp :: TypeExpr.sexpAll ts

end

mutual

def Literal.sexp : Literal α → Sexp
  | .bool _ value => .headed "bool" [.word (if value then "true" else "false")]
  | .int _ value => .headed "int" [.word (toString value)]
  | .float _ value => .headed "float" [.word value.text]
  | .string _ value => .headed "string" [.quoted value]
  | .list _ items => .headed "list" (Literal.sexpAll items)
  | .tuple _ items => .headed "tuple" (Literal.sexpAll items)
  | .dict _ entries => .headed "dict" (Literal.sexpEntries entries)

def Literal.sexpAll : List (Literal α) → List Sexp
  | [] => []
  | l :: ls => l.sexp :: Literal.sexpAll ls

def Literal.sexpEntries : List (Literal α × Literal α) → List Sexp
  | [] => []
  | (key, value) :: rest => .list [key.sexp, value.sexp] :: Literal.sexpEntries rest

end

mutual

/-- The nested list of an expression. That of a literal is that of what it wraps. -/
def Expr.sexp : Expr α → Sexp
  | .binary _ op left right => .headed op.spelling [left.sexp, right.sexp]
  | .unary _ op operand => .headed op.spelling [operand.sexp]
  | .var _ name => .headed "var" [.word name]
  | .literal _ l => l.sexp
  | .call _ name args => .headed "call" (.word name :: Expr.sexpAll args)

def Expr.sexpAll : List (Expr α) → List Sexp
  | [] => []
  | e :: es => e.sexp :: Expr.sexpAll es

end

def Value.sexp : Value α → Sexp
  | .literal l => l.sexp
  | .expr e => e.sexp

/-- The nested list of a parameter: its type, with its name if it has one. -/
def Param.sexp (p : Param α) : Sexp :=
  match p.name with
  | some name => .headed "param" [.word name, p.type.sexp]
  | none => p.type.sexp

/-- The nested list of what is inherited, if there is something. -/
def sexpInherits (names : List String) : List Sexp :=
  if names.isEmpty then [] else [.headed "inherit" (names.map .word)]

def Fn.sexp (d : Fn α) : Sexp :=
  .headed "fn" ([.word d.name, .list (d.params.map Param.sexp)] ++ d.ret.toList.map TypeExpr.sexp)

/-- The nested list of a signal or a property. -/
def Channel.sexp (keyword : String) (d : Channel α) : Sexp :=
  .headed keyword [.word d.name, .list (d.params.map Param.sexp)]

def Member.sexp : Member α → Sexp
  | .fn d => d.sexp
  | .emit d => d.sexp "emit"
  | .prop d => d.sexp "prop"

def Field.sexp (d : Field α) : Sexp :=
  .headed "field" ([.word d.name, d.type.sexp] ++ d.initial.toList.map Value.sexp)

/-- The nested list of an entry of an enumeration. -/
def EnumItem.sexp (d : EnumItem α) : Sexp :=
  match d.meaning with
  | .const value => .headed "const" [.word d.name, value.sexp]
  | .type type => .headed "typedef" [type.sexp, .word d.name]

def Import.sexp (d : Import α) : Sexp :=
  match d.scope with
  | .package => .headed "import" [.word d.package]
  | .names names => .headed "from" [.word d.package, .headed "import" (names.map .word)]
  | .all => .headed "from" [.word d.package, .headed "import" [.word "*"]]

mutual

/-- The nested list of an object or a line of its body. -/
def ObjectItem.sexp : ObjectItem α → Sexp
  | .property _ name value => .headed "prop" [.word name, value.sexp]
  | .connect _ sender receiver => .headed "at" [sender.sexp, receiver.sexp]
  | .object _ type _ name body =>
    .headed "object" (type.sexp :: .headed "string" [.quoted name] :: ObjectItem.sexpAll body)

def ObjectItem.sexpAll : List (ObjectItem α) → List Sexp
  | [] => []
  | o :: os => o.sexp :: ObjectItem.sexpAll os

end

def Node.sexp : Node α → Sexp
  | .literal l => l.sexp
  | .expr e => e.sexp
  | .type t => t.sexp
  | .interface d => .headed "interface" ((.word d.name :: sexpInherits d.inherits) ++ d.members.map Member.sexp)
  | .fn d => d.sexp
  | .emit d => d.sexp "emit"
  | .prop d => d.sexp "prop"
  | .struct d => .headed "struct" ((.word d.name :: sexpInherits d.inherits) ++ d.fields.map Field.sexp)
  | .field d => d.sexp
  | .const d => .headed "defconst" (.word d.name :: (d.type.toList.map TypeExpr.sexp ++ [d.value.sexp]))
  | .typedef d => .headed "typedef" [d.type.sexp, .word d.name]
  | .enum d => .headed "enum" (.word d.name :: d.items.map EnumItem.sexp)
  | .enumItem d => d.sexp
  | .package _ name => .headed "package" [.word name]
  | .imports d => d.sexp
  | .object o => o.sexp
  | .var d => .headed "defvar" (.word d.name :: (d.type.toList.map TypeExpr.sexp ++ d.value.toList.map Value.sexp))
  | .comment _ text => .headed "comment" [.quoted text]

/-! ## Lines -/

/-- Nested lists on lines of their own. -/
def dumpLines (items : List Sexp) : List Step := items.map (.writeLine ·.text)

/-- An open list with its first items, the others one level deeper, and the end of the list. -/
def dumpBlock (head : String) (firsts : List Sexp) (body : List Step) : List Step :=
  [.writeLine ("(" ++ " ".intercalate (Sexp.textAll (.word head :: firsts))), .scope body, .writeLine ")"]

mutual

def ObjectItem.dump : ObjectItem α → List Step
  | .object _ type _ name body =>
    dumpBlock "object" [type.sexp, .headed "string" [.quoted name]] (ObjectItem.dumpAll body)
  | item => dumpLines [item.sexp]

def ObjectItem.dumpAll : List (ObjectItem α) → List Step
  | [] => []
  | o :: os => o.dump ++ ObjectItem.dumpAll os

end

/-- The dump of a node. -/
def Node.dump : Node α → List Step
  | .interface d =>
    dumpBlock "interface" (.word d.name :: sexpInherits d.inherits) (dumpLines (d.members.map Member.sexp))
  | .struct d => dumpBlock "struct" (.word d.name :: sexpInherits d.inherits) (dumpLines (d.fields.map Field.sexp))
  | .enum d => dumpBlock "enum" [.word d.name] (dumpLines (d.items.map EnumItem.sexp))
  | .object o => o.dump
  | n => dumpLines [n.sexp]

/-- The dump of a file, with so many blanks for a level. -/
def Ast.dump (width : Nat) (ast : Ast) : String := Step.render width (ast.roots.flatMap Node.dump)

end QiIdl
