import QiIdl.Cpp.File

/-!
# Interface headers

The header of a file declares its data types, constants and functions, and two abstract classes for each
interface: `Name` with methods that block, and `NameAsync` with methods that return futures. The classes and
their pointer types are announced before everything else, so interfaces may refer to each other in any order.
-/

namespace QiIdl

/-- The guard of the interface header of a file. -/
def SourceFile.headerGuard (f : SourceFile) : String := s!"QILANG_GEN_{Cpp.guardBase f.package f.stem}_HPP_"

namespace Cpp

/-- A heading with bases behind it, if there are any. -/
def withBases (heading access : String) (bases : List String) : String :=
  if bases.isEmpty then heading else heading ++ ": " ++ commaList (bases.map (access ++ " " ++ ·))

/-- A class body: a heading, and members one level deeper. -/
def classBody (heading : String) (members : List Step) : List Step :=
  [.writeLine heading, .writeLine "\x7b", .writeLine "public:", .scope members, .writeLine "\x7d;"]

/-- The announcement of a class and of its pointer type. -/
def forwardClass (name : String) : List Step :=
  [.writeLine s!"class {name};", .writeLine s!"typedef qi::Object<{name}> {name}Ptr;"]

/-- A block of declarations in braces, with an empty line behind it. -/
def dataBlock (heading : String) (body : List Step) : List Step :=
  [.writeLine heading, .writeLine "\x7b", .scope body, .writeLine "\x7d;", .newline]

namespace Scope

/-- The announcements of all classes of the file. -/
def forwardClasses (c : Scope) : List Step :=
  if c.interfaces.isEmpty then []
  else c.interfaces.flatMap (fun d => forwardClass d.name ++ forwardClass (d.name ++ "Async")) ++ [.newline]

def classHeading (d : Interface Mark) (suffix : String) : String :=
  withBases s!"class {d.name}{suffix}" "virtual public" (d.inherits.map fun b => baseName b ++ suffix)

/-- The constructor of an interface class, which binds its signals and properties. -/
def constructor (name : String) (fields : List (String × String)) : List Step :=
  if fields.isEmpty then []
  else
    [.writeLine (name ++ "(" ++ commaList (fields.map fun (type, field) => s!"{type}& {field}") ++ ")")]
      ++ initializers (fields.map fun (_, field) => s!"{field}({field})")
      ++ [.writeLine "\x7b", .writeLine "\x7d"]

/-- The class of an interface with methods that block. -/
def syncClass (c : Scope) (d : Interface Mark) : Except GenError (List Step) := do
  let signals ← c.channels "qi::Signal" d.signals
  let properties ← c.channels "qi::Property" d.properties
  let methods ← c.methods d
  let fields := signals ++ properties
  pure <| classBody (classHeading d "") <|
    constructor d.name fields
      ++ [.writeLine s!"virtual ~{d.name}() \x7b\x7d"]
      ++ methods.map (fun m => .writeLine s!"virtual {m.ret} {m.name}({m.params}) = 0;")
      ++ fields.map fun (type, field) => .writeLine s!"{type}& {field};"

/-- The class of an interface with methods that return futures. -/
def asyncClass (c : Scope) (d : Interface Mark) : Except GenError (List Step) := do
  let methods ← c.methods d
  pure <| classBody (classHeading d "Async") <|
    [.writeLine s!"virtual ~{d.name}Async() \x7b\x7d"]
      ++ methods.map fun m => .writeLine s!"virtual qi::Future< {m.ret} > {m.name}({m.params}) = 0;"

/-- The C++ type of something declared with a type, or else with a value. -/
def declaredType (c : Scope) (type : Option (TypeExpr Mark)) (value : Value Mark) : Except GenError String :=
  match type with
  | some t => c.typeName .fresh t
  | none => c.inferredType value.node

def variableLine (c : Scope) (d : Var Mark) : Except GenError String :=
  match d.type, d.value with
  | type, some value => do
    let type ← c.declaredType type value
    let value ← c.value value
    pure s!"{type} {d.name} = {value};"
  | some t, none => do
    let type ← c.typeName .fresh t
    pure s!"{type} {d.name};"
  | none, none => c.unsupported "untyped variable without value" d.tag

def constantLine (c : Scope) (d : Const Mark) : Except GenError String := do
  let value ← c.value d.value
  let type ← c.declaredType d.type d.value
  pure s!"const {type} {d.name} = {value};"

def fieldLine (c : Scope) (d : Field Mark) : Except GenError Step := do
  let type ← c.typeName .fresh d.type
  match d.initial with
  | some initial => do
    let value ← c.value initial
    pure (.writeLine s!"{type} {d.name} = {value};")
  | none => pure (.writeLine s!"{type} {d.name};")

/-- An entry of an enumeration, which must be a value. -/
def enumLine (c : Scope) (d : EnumItem Mark) : Except GenError Step :=
  match d.meaning with
  | .const value => do
    let value ← c.value value
    pure (.writeLine s!"{d.name} = {value},")
  | .type _ => c.unsupported "type field in enum" d.tag

def functionLine (c : Scope) (d : Fn Mark) : Except GenError String := do
  let m ← c.method d
  pure s!"{m.ret} {m.name}({m.params});"

/-- What a node at the top of the file becomes in its header. -/
def headerItem (c : Scope) (n : Node Mark) : Except GenError (List Step) :=
  match n with
  | .comment _ text => pure ((Text.lines text.toList).map fun l => .writeLine ("// " ++ String.ofList l))
  | .var d => do
    let line ← c.variableLine d
    pure [.writeLine line]
  | .interface d => do
    let sync ← c.syncClass d
    let async ← c.asyncClass d
    pure (sync ++ [.newline] ++ async ++ [.newline])
  | .fn d => do
    let line ← c.functionLine d
    pure [.writeLine line]
  | .struct d => do
    let fields ← d.fields.mapM c.fieldLine
    pure (dataBlock (withBases s!"struct {d.name}" "public" (d.inherits.map baseName)) fields)
  | .const d => do
    let line ← c.constantLine d
    pure [.writeLine line]
  | .typedef d => do
    let type ← c.typeName .fresh d.type
    pure [.writeLine s!"typedef {type} {d.name};"]
  | .enum d => do
    let items ← d.items.mapM c.enumLine
    pure (dataBlock s!"enum {d.name}" items)
  | n =>
    match objectStatement? n with
    | some construct => c.unsupported construct n.tag
    | none => pure []

def header (c : Scope) : Except GenError (List Step) := do
  let guard := c.file.headerGuard
  let items ← c.file.ast.roots.mapM c.headerItem
  pure <| banner
    ++ [.writeLine "#pragma once", .writeLine s!"#ifndef {guard}", .writeLine s!"#define {guard}", .newline]
    ++ c.includeLines false ++ [.newline]
    ++ openNamespaces c.file.package ++ c.forwardClasses ++ items.flatten
    ++ closeNamespaces c.file.package
    ++ [.newline, .writeLine s!"#endif // {guard}"]

end Scope
end Cpp
end QiIdl
