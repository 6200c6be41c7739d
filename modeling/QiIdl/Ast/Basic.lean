import QiIdl.Binary64.Basic
import QiIdl.Vocabulary.Builtin
import QiIdl.Vocabulary.Operator

/-!
# Syntax trees

The trees of a source file: literals, value expressions, types, declarations and statements. Each node carries
a tag of some type `α`. The parser tags a node with the span it was read from, an arena with a number besides;
what does not depend on the tags is stated for every `α`.

Only a literal, an expression, a type and an object hold others of their kind. Everything else is flat.
-/

namespace QiIdl

/-- Constant data. -/
inductive Literal (α : Type) where
  | bool (tag : α) (value : Bool)
  | int (tag : α) (value : Nat)
  | float (tag : α) (value : Binary64)
  | string (tag : α) (value : String)
  | list (tag : α) (items : List (Literal α))
  | tuple (tag : α) (items : List (Literal α))
  | dict (tag : α) (entries : List (Literal α × Literal α))
deriving Repr

/-- A computed value. An array fetch is a binary operation. -/
inductive Expr (α : Type) where
  | binary (tag : α) (op : Operator) (left right : Expr α)
  | unary (tag : α) (op : Operator) (operand : Expr α)
  | var (tag : α) (name : String)
  | literal (tag : α) (literal : Literal α)
  | call (tag : α) (name : String) (args : List (Expr α))
deriving Repr

/-- A type. A custom type is known by a name that may be dotted; what it means is settled when packages are
resolved. -/
inductive TypeExpr (α : Type) where
  | builtin (tag : α) (type : Builtin)
  | custom (tag : α) (name : String)
  | list (tag : α) (element : TypeExpr α)
  | map (tag : α) (key value : TypeExpr α)
  | tuple (tag : α) (elements : List (TypeExpr α))
deriving Repr

variable {α : Type}

def Literal.tag : Literal α → α
  | .bool t _ | .int t _ | .float t _ | .string t _ | .list t _ | .tuple t _ | .dict t _ => t

def Expr.tag : Expr α → α
  | .binary t _ _ _ | .unary t _ _ | .var t _ | .literal t _ | .call t _ _ => t

def TypeExpr.tag : TypeExpr α → α
  | .builtin t _ | .custom t _ | .list t _ | .map t _ _ | .tuple t _ => t

/-- An initial value, a property value or an end of a connection: a literal, or an expression that is more than
a literal. -/
inductive Value (α : Type) where
  | literal (literal : Literal α)
  | expr (expr : Expr α)
deriving Repr

/-- A parameter of a method, a signal or a property. -/
structure Param (α : Type) where
  name : Option String
  type : TypeExpr α
deriving Repr

/-- A method or a function. -/
structure Fn (α : Type) where
  tag : α
  name : String
  params : List (Param α)
  ret : Option (TypeExpr α)
  doc : Option String
deriving Repr

/-- A signal or a property of an interface: a named carrier of values. -/
structure Channel (α : Type) where
  tag : α
  name : String
  params : List (Param α)
  doc : Option String
deriving Repr

/-- What an interface is made of. -/
inductive Member (α : Type) where
  | fn (fn : Fn α)
  | emit (signal : Channel α)
  | prop (property : Channel α)
deriving Repr

/-- An interface and the names of those it inherits from. -/
structure Interface (α : Type) where
  tag : α
  name : String
  inherits : List String
  members : List (Member α)
  doc : Option String
deriving Repr

structure Field (α : Type) where
  tag : α
  name : String
  type : TypeExpr α
  initial : Option (Value α)
deriving Repr

/-- A struct and the names of those it inherits from. -/
structure Struct (α : Type) where
  tag : α
  name : String
  inherits : List String
  fields : List (Field α)
  doc : Option String
deriving Repr

structure Const (α : Type) where
  tag : α
  name : String
  type : Option (TypeExpr α)
  value : Value α
deriving Repr

/-- Another name for a type. -/
structure Typedef (α : Type) where
  tag : α
  name : String
  type : TypeExpr α
deriving Repr

/-- What an entry of an enumeration stands for. -/
inductive EnumMeaning (α : Type) where
  | const (value : Value α)
  | type (type : TypeExpr α)
deriving Repr

/-- An entry of an enumeration. -/
structure EnumItem (α : Type) where
  tag : α
  name : String
  meaning : EnumMeaning α
deriving Repr

structure Enum (α : Type) where
  tag : α
  name : String
  items : List (EnumItem α)
  doc : Option String
deriving Repr

/-- What of a package is imported: the package as such, everything in it, or some names. -/
inductive ImportScope where
  | package
  | all
  | names (names : List String)
deriving DecidableEq, Repr

structure Import (α : Type) where
  tag : α
  package : String
  scope : ImportScope
deriving Repr

structure Var (α : Type) where
  tag : α
  name : String
  type : Option (TypeExpr α)
  value : Option (Value α)
deriving Repr

/-- An object instance, or a line of its body. The name of an object is a string, with a tag of its own. -/
inductive ObjectItem (α : Type) where
  | property (tag : α) (name : String) (value : Value α)
  | connect (tag : α) (sender receiver : Value α)
  | object (tag : α) (type : TypeExpr α) (nameTag : α) (name : String) (body : List (ObjectItem α))
deriving Repr

def ObjectItem.tag : ObjectItem α → α
  | .property t _ _ | .connect t _ _ | .object t _ _ _ _ => t

end QiIdl
