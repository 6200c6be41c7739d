import QiIdl.Ast.Basic

/-!
# Nodes

Any part of a syntax tree is a node. A node has a sort, which is its exact kind, and the sort belongs to a
family. What a node says besides its sort and its children is its payload.
-/

namespace QiIdl

/-- A part of a syntax tree. -/
inductive Node (α : Type) where
  | literal (literal : Literal α)
  | expr (expr : Expr α)
  | type (type : TypeExpr α)
  | interface (decl : Interface α)
  | fn (decl : Fn α)
  | emit (decl : Channel α)
  | prop (decl : Channel α)
  | struct (decl : Struct α)
  | field (decl : Field α)
  | const (decl : Const α)
  | typedef (decl : Typedef α)
  | enum (decl : Enum α)
  | enumItem (decl : EnumItem α)
  | package (tag : α) (name : String)
  | imports (stmt : Import α)
  | object (stmt : ObjectItem α)
  | var (stmt : Var α)
  | comment (tag : α) (text : String)
deriving Repr

inductive NodeFamily where
  | literal
  | expr
  | type
  | decl
  | stmt
deriving DecidableEq, Repr

/-- The exact kind of a node. -/
inductive NodeSort where
  | boolLiteral
  | intLiteral
  | floatLiteral
  | stringLiteral
  | listLiteral
  | tupleLiteral
  | dictLiteral
  | binary
  | unary
  | var
  | literalExpr
  | call
  | builtinType
  | customType
  | listType
  | mapType
  | tupleType
  | interface
  | fn
  | emit
  | prop
  | struct
  | field
  | const
  | typedef
  | enum
  | enumItem
  | package
  | imports
  | object
  | property
  | connect
  | varDef
  | comment
deriving DecidableEq, Repr

namespace NodeSort

def all : List NodeSort :=
  [.boolLiteral, .intLiteral, .floatLiteral, .stringLiteral, .listLiteral, .tupleLiteral, .dictLiteral,
   .binary, .unary, .var, .literalExpr, .call, .builtinType, .customType, .listType, .mapType, .tupleType,
   .interface, .fn, .emit, .prop, .struct, .field, .const, .typedef, .enum, .enumItem, .package, .imports,
   .object, .property, .connect, .varDef, .comment]

def family : NodeSort → NodeFamily
  | boolLiteral | intLiteral | floatLiteral | stringLiteral | listLiteral | tupleLiteral | dictLiteral =>
    .literal
  | binary | unary | var | literalExpr | call => .expr
  | builtinType | customType | listType | mapType | tupleType => .type
  | interface | fn | emit | prop | struct | field | const | typedef | enum | enumItem => .decl
  | package | imports | object | property | connect | varDef | comment => .stmt

def name : NodeSort → String
  | boolLiteral => "BoolLiteral"
  | intLiteral => "IntLiteral"
  | floatLiteral => "FloatLiteral"
  | stringLiteral => "StringLiteral"
  | listLiteral => "ListLiteral"
  | tupleLiteral => "TupleLiteral"
  | dictLiteral => "DictLiteral"
  | binary => "BinaryOp"
  | unary => "UnaryOp"
  | var => "Var"
  | literalExpr => "LiteralExpr"
  | call => "Call"
  | builtinType => "BuiltinType"
  | customType => "CustomType"
  | listType => "ListType"
  | mapType => "MapType"
  | tupleType => "TupleType"
  | interface => "InterfaceDecl"
  | fn => "FnDecl"
  | emit => "EmitDecl"
  | prop => "PropDecl"
  | struct => "StructDecl"
  | field => "StructFieldDecl"
  | const => "ConstDecl"
  | typedef => "TypeDefDecl"
  | enum => "EnumDecl"
  | enumItem => "EnumFieldDecl"
  | package => "Package"
  | imports => "Import"
  | object => "ObjectDef"
  | property => "PropertyDef"
  | connect => "At"
  | varDef => "VarDef"
  | comment => "Comment"

end NodeSort

def NodeFamily.name : NodeFamily → String
  | literal => "Literal"
  | expr => "Expr"
  | type => "TypeExpr"
  | decl => "Decl"
  | stmt => "Stmt"

variable {α : Type}

def Literal.sort : Literal α → NodeSort
  | .bool .. => .boolLiteral
  | .int .. => .intLiteral
  | .float .. => .floatLiteral
  | .string .. => .stringLiteral
  | .list .. => .listLiteral
  | .tuple .. => .tupleLiteral
  | .dict .. => .dictLiteral

def Expr.sort : Expr α → NodeSort
  | .binary .. => .binary
  | .unary .. => .unary
  | .var .. => .var
  | .literal .. => .literalExpr
  | .call .. => .call

def TypeExpr.sort : TypeExpr α → NodeSort
  | .builtin .. => .builtinType
  | .custom .. => .customType
  | .list .. => .listType
  | .map .. => .mapType
  | .tuple .. => .tupleType

def ObjectItem.sort : ObjectItem α → NodeSort
  | .property .. => .property
  | .connect .. => .connect
  | .object .. => .object

/-- What a node says besides its sort and its children. -/
inductive Payload where
  | none
  | bool (value : Bool)
  | int (value : Nat)
  | float (value : Binary64)
  | text (value : String)
  | operator (op : Operator)
  | builtin (type : Builtin)
  | declared (name : String) (doc : Option String)
  | inheriting (name : String) (doc : Option String) (inherits : List String)
  | taking (name : String) (doc : Option String) (params : List (Option String))
  | meaning (name : String) (isType : Bool)
  | imports (package : String) (scope : ImportScope)
  | var (name : String) (typed valued : Bool)
deriving DecidableEq, Repr

def Literal.payload : Literal α → Payload
  | .bool _ value => .bool value
  | .int _ value => .int value
  | .float _ value => .float value
  | .string _ value => .text value
  | .list .. | .tuple .. | .dict .. => .none

def Expr.payload : Expr α → Payload
  | .binary _ op _ _ | .unary _ op _ => .operator op
  | .var _ name | .call _ name _ => .text name
  | .literal .. => .none

def TypeExpr.payload : TypeExpr α → Payload
  | .builtin _ type => .builtin type
  | .custom _ name => .text name
  | .list .. | .map .. | .tuple .. => .none

def ObjectItem.payload : ObjectItem α → Payload
  | .property _ name _ => .text name
  | .connect .. | .object .. => .none

/-- Whether an entry of an enumeration stands for a type. -/
def EnumMeaning.isType : EnumMeaning α → Bool
  | .const _ => false
  | .type _ => true

def Member.node : Member α → Node α
  | .fn d => .fn d
  | .emit d => .emit d
  | .prop d => .prop d

def Value.node : Value α → Node α
  | .literal l => .literal l
  | .expr e => .expr e

namespace Node

def tag : Node α → α
  | literal l => l.tag
  | expr e => e.tag
  | type t => t.tag
  | interface d => d.tag
  | fn d => d.tag
  | emit d | prop d => d.tag
  | struct d => d.tag
  | field d => d.tag
  | const d => d.tag
  | typedef d => d.tag
  | enum d => d.tag
  | enumItem d => d.tag
  | package t _ | comment t _ => t
  | imports s => s.tag
  | object s => s.tag
  | var s => s.tag

def sort : Node α → NodeSort
  | literal l => l.sort
  | expr e => e.sort
  | type t => t.sort
  | interface _ => .interface
  | fn _ => .fn
  | emit _ => .emit
  | prop _ => .prop
  | struct _ => .struct
  | field _ => .field
  | const _ => .const
  | typedef _ => .typedef
  | enum _ => .enum
  | enumItem _ => .enumItem
  | package .. => .package
  | imports _ => .imports
  | object s => s.sort
  | var _ => .varDef
  | comment .. => .comment

def family (n : Node α) : NodeFamily := n.sort.family

def payload : Node α → Payload
  | literal l => l.payload
  | expr e => e.payload
  | type t => t.payload
  | interface d => .inheriting d.name d.doc d.inherits
  | fn d => .taking d.name d.doc (d.params.map (·.name))
  | emit d | prop d => .taking d.name d.doc (d.params.map (·.name))
  | struct d => .inheriting d.name d.doc d.inherits
  | field d => .declared d.name none
  | const d => .declared d.name none
  | typedef d => .declared d.name none
  | enum d => .declared d.name d.doc
  | enumItem d => .meaning d.name d.meaning.isType
  | package _ name => .text name
  | imports s => .imports s.package s.scope
  | object s => s.payload
  | var s => .var s.name s.type.isSome s.value.isSome
  | comment _ text => .text text

def declaredName? : Node α → Option String
  | interface d => some d.name
  | fn d => some d.name
  | emit d | prop d => some d.name
  | struct d => some d.name
  | field d => some d.name
  | const d => some d.name
  | typedef d => some d.name
  | enum d => some d.name
  | enumItem d => some d.name
  | _ => none

/-- The documentation of a declaration, if it is of a sort that has any and has some. -/
def doc? : Node α → Option String
  | interface d => d.doc
  | fn d => d.doc
  | emit d | prop d => d.doc
  | struct d => d.doc
  | enum d => d.doc
  | _ => none

end Node
end QiIdl
