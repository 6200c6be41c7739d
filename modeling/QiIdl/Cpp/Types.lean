import QiIdl.Cpp.Names
import QiIdl.Format.DocMap
import QiIdl.Output.Backend
import QiIdl.Output.Switch
import QiIdl.Package.Manager

/-!
# Types and values in C++

Types are written by value, or, where the scopes around them ask for it, by constant reference if they are not scalars.
Element types are always written by value: `[]str` becomes `const std::vector< std::string >&`.
-/

namespace QiIdl

/-- The C++ type of a builtin type. -/
def Builtin.cpp : Builtin → String
  | nothing => "void"
  | bool => "bool"
  | char => "char"
  | int => "int"
  | uint => "unsigned int"
  | int8 => "qi::int8_t"
  | uint8 => "qi::uint8_t"
  | int16 => "qi::int16_t"
  | uint16 => "qi::uint16_t"
  | int32 => "qi::int32_t"
  | uint32 => "qi::uint32_t"
  | int64 => "qi::int64_t"
  | uint64 => "qi::uint64_t"
  | float | float32 => "float"
  | float64 => "double"
  | string => "std::string"
  | value => "qi::AnyValue"
  | object => "qi::AnyObject"
  | raw => "qi::Buffer"
  | nanoseconds => "qi::NanoSeconds"
  | microseconds => "qi::MicroSeconds"
  | milliseconds => "qi::MilliSeconds"
  | seconds => "qi::Seconds"
  | minutes => "qi::Minutes"
  | hours => "qi::Hours"
  | qiTimePoint => "qi::ClockTimePoint"
  | steadyTimePoint => "qi::SteadyClockTimePoint"
  | systemTimePoint => "qi::SystemClockTimePoint"

/-- Whether a builtin type is a scalar, which is never passed by reference. -/
def Builtin.isScalar (t : Builtin) : Bool :=
  match t.category with
  | .string | .value | .object | .buffer => false
  | _ => true

/-- Whether a type is that of nothing. -/
def TypeExpr.isNothing {α : Type} : TypeExpr α → Bool
  | .builtin _ .nothing => true
  | _ => false

/-- Whether a function of this return type returns nothing: no return type says so too. -/
def returnsNothing {α : Type} (ret : Option (TypeExpr α)) : Bool := ret.all (·.isNothing)

/-- How many scopes there are around what is written: those that ask for references, and those that forbid them. -/
structure Cpp.Guards where
  active : Nat
  blocked : Nat
deriving DecidableEq, Repr

namespace Cpp.Guards

def fresh : Guards := ⟨0, 0⟩

/-- Whether references are asked for and not forbidden. -/
def isOn (s : Guards) : Bool := 0 < s.active && s.blocked == 0

def activate (s : Guards) : Guards := { s with active := s.active + 1 }

def block (s : Guards) : Guards := { s with blocked := s.blocked + 1 }

end Cpp.Guards

/-- The scopes that a switch counts. -/
def Switch.guards (s : Switch) : Cpp.Guards := ⟨s.active.toNat, s.blocked.toNat⟩

instance : Coe Switch Cpp.Guards := ⟨Switch.guards⟩

namespace Cpp

/-- What C++ code is made from: a file, what is known about its references, and the kind of output that errors
name. -/
structure Scope where
  backend : Backend
  manager : Manager
  file : SourceFile

/-- How a parameter list is written. -/
inductive ParamStyle where
  | full
  | types
  | names
deriving DecidableEq, Repr

def braced (s : String) : String := "\x7b" ++ s ++ "\x7d"

/-- A type by constant reference, if the scopes around it ask for that. -/
def referred (s : Guards) (type : String) : String := if s.isOn then s!"const {type}&" else type

namespace Scope

def locate (c : Scope) (m : Mark) : Location := c.file.ast.locate m.span

/-- Fails at a construct that cannot be expressed. -/
def unsupported {β : Type} (c : Scope) (construct : String) (m : Mark) : Except GenError β :=
  .error (.unsupported c.backend construct (c.locate m))

/-! ## Types -/

/-- The C++ type of a custom type. Interfaces are handled by pointers. -/
def customName (c : Scope) (m : Mark) (name : String) : Except GenError String :=
  match c.manager.resolution? c.file.path m.id with
  | none => .error (.unresolved name (c.locate m))
  | some r => .ok (qualified r.package r.name ++ if r.kind = .interface then "Ptr" else "")

mutual

/-- The C++ type of a type. -/
def typeName (c : Scope) (s : Guards) : TypeExpr Mark → Except GenError String
  | .builtin _ t => pure (if t.isScalar then t.cpp else referred s t.cpp)
  | .custom m name => do
    let type ← c.customName m name
    pure (referred s type)
  | .list _ element => do
    let type ← c.typeName s.block element
    pure (referred s s!"std::vector< {type} >")
  | .map _ key value => do
    let keyType ← c.typeName s.block key
    let valueType ← c.typeName s.block value
    pure (referred s s!"std::map< {keyType}, {valueType} >")
  | .tuple m elements =>
    if elements.length = 2 then do
      let types ← c.typeNames s.block elements
      pure (referred s ("std::pair< " ++ commaList types ++ " >"))
    else c.unsupported s!"tuple of {elements.length} elements" m

def typeNames (c : Scope) (s : Guards) : List (TypeExpr Mark) → Except GenError (List String)
  | [] => pure []
  | t :: ts => do
    let type ← c.typeName s t
    let types ← c.typeNames s ts
    pure (type :: types)

end

/-- The C++ return type of a function, by value. -/
def returnType (c : Scope) (s : Guards) : Option (TypeExpr Mark) → Except GenError String
  | some t => if t.isNothing then pure "void" else c.typeName s.block t
  | none => pure "void"

def param (c : Scope) (s : Guards) (style : ParamStyle) (p : TypeExpr Mark × String) : Except GenError String :=
  match style with
  | .full => do
    let type ← c.typeName s p.1
    pure (type ++ " " ++ p.2)
  | .types => c.typeName s p.1
  | .names => pure p.2

/-- A parameter list. Parameters are passed by constant reference. -/
def params (c : Scope) (s : Guards) (style : ParamStyle) (ps : List (Param Mark)) : Except GenError String := do
  let all := (ps.map (·.type)).zip (Param.names ps)
  let texts ← all.mapM (c.param s.activate style)
  pure (commaList texts)

/-- The types of a parameter list by value. -/
def valueTypes (c : Scope) (s : Guards) (ps : List (Param Mark)) : Except GenError String := do
  let types ← c.typeNames s.block (ps.map (·.type))
  pure (commaList types)

/-! ## Values -/

mutual

/-- The C++ value of a literal. -/
def literal (c : Scope) : Literal Mark → Except GenError String
  | .bool _ value => pure (if value then "true" else "false")
  | .int _ value => pure (toString value)
  | .float _ value => pure value.text
  | .string _ value => pure (Text.quote value)
  | .list _ items => do
    let values ← c.literals items
    pure (braced (commaList values))
  | .tuple m items =>
    if items.length = 2 then do
      let values ← c.literals items
      pure (braced (commaList values))
    else c.unsupported s!"tuple of {items.length} elements" m
  | .dict _ entries => do
    let values ← c.literalEntries entries
    pure (braced (commaList values))

def literals (c : Scope) : List (Literal Mark) → Except GenError (List String)
  | [] => pure []
  | l :: ls => do
    let value ← c.literal l
    let values ← c.literals ls
    pure (value :: values)

def literalEntries (c : Scope) : List (Literal Mark × Literal Mark) → Except GenError (List String)
  | [] => pure []
  | (key, value) :: rest => do
    let first ← c.literal key
    let second ← c.literal value
    let values ← c.literalEntries rest
    pure (braced (first ++ ", " ++ second) :: values)

end

mutual

/-- The C++ value of an expression. Only literals and calls are constant. -/
def expr (c : Scope) : Expr Mark → Except GenError String
  | .literal _ l => c.literal l
  | .call _ name args => do
    let values ← c.exprs args
    pure (name ++ "(" ++ commaList values ++ ")")
  | .binary m _ _ _ | .unary m _ _ => c.unsupported "operator in constant value" m
  | .var m name => c.unsupported s!"variable '{name}' in constant value" m

def exprs (c : Scope) : List (Expr Mark) → Except GenError (List String)
  | [] => pure []
  | e :: es => do
    let value ← c.expr e
    let values ← c.exprs es
    pure (value :: values)

end

def value (c : Scope) : Value Mark → Except GenError String
  | .literal l => c.literal l
  | .expr e => c.expr e

/-- The C++ type that a literal has of itself. -/
def literalType? : Literal Mark → Option String
  | .bool .. => some "bool"
  | .int .. => some "int"
  | .float .. => some "double"
  | .string .. => some "std::string"
  | .list .. | .tuple .. | .dict .. => none

/-- The literal that a node is, also where it stands as an expression. -/
def literalOf? : Node Mark → Option (Literal Mark)
  | .literal l => some l
  | .expr (.literal _ l) => some l
  | _ => none

/-- The C++ type of what is declared without a type, by its value. -/
def inferredType (c : Scope) (n : Node Mark) : Except GenError String :=
  match (literalOf? n).bind literalType? with
  | some type => .ok type
  | none => c.unsupported "untyped container value" n.tag

/-! ## Nodes -/

/-- The C++ type of a node, which must be a type. -/
def nodeType (c : Scope) (s : Guards) : Node Mark → Except GenError String
  | .type t => c.typeName s t
  | n => c.unsupported "value in type position" n.tag

def isNothing : Node Mark → Bool
  | .type t => t.isNothing
  | _ => false

/-- The C++ return type of a function that returns a node, which must be a type. -/
def nodeReturnType (c : Scope) (s : Guards) : Node Mark → Except GenError String
  | .type t => c.returnType s (some t)
  | n => c.unsupported "value in type position" n.tag

/-- The C++ value of a node, which must be a value. -/
def nodeValue (c : Scope) : Node Mark → Except GenError String
  | .literal l => c.literal l
  | .expr e => c.expr e
  | n => c.unsupported "non-value in value position" n.tag

end Scope
end Cpp
end QiIdl
