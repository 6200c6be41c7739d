import QiIdl.Cpp.Includes

/-!
# Parts of C++ files

What the kinds of C++ output have in common: the banner, namespaces, the members of an interface by kind, and
the refusal of files that describe object instances.
-/

namespace QiIdl

namespace Interface

variable {α : Type}

def methods (d : Interface α) : List (Fn α) := d.members.filterMap fun | .fn f => some f | _ => none

def signals (d : Interface α) : List (Channel α) := d.members.filterMap fun | .emit m => some m | _ => none

def properties (d : Interface α) : List (Channel α) := d.members.filterMap fun | .prop m => some m | _ => none

/-- The names of the signals and then of the properties of an interface. -/
def channelNames (d : Interface α) : List String := (d.signals ++ d.properties).map (·.name)

end Interface

namespace Cpp

def banner : List Step := [.writeLine "/*", .writeLine "** qiLang generated file. DO NOT EDIT", .writeLine "*/"]

def openNamespaces (package : String) : List Step :=
  (Text.segments package).map (fun segment => .writeLine s!"namespace {segment} \x7b") ++ [.newline]

def closeNamespaces (package : String) : List Step :=
  (Text.segments package).reverse.map fun segment => .writeLine s!"\x7d // namespace {segment}"

/-- Some entries on lines of their own, the first behind a colon and the others behind commas. -/
def initializers : List String → List Step
  | [] => []
  | first :: others => .writeLine ("  : " ++ first) :: others.map fun entry => .writeLine ("  , " ++ entry)

/-- A list behind a comma, or nothing. -/
def trailing (list : String) : String := if list.isEmpty then list else ", " ++ list

/-- What a statement is called that only describes object instances. -/
def objectStatement? {α : Type} : Node α → Option String
  | .object (.object ..) => some "object definition"
  | .object (.property ..) => some "property definition"
  | .object (.connect ..) => some "at statement"
  | _ => none

namespace Scope

/-- Fails at the first statement at the top of the file that only describes object instances. -/
def rejectObjects (c : Scope) : Except GenError Unit :=
  c.file.ast.roots.forM fun n =>
    match objectStatement? n with
    | some construct => c.unsupported construct n.tag
    | none => pure ()

def interfaces (c : Scope) : List (Interface Mark) := c.file.ast.interfaces

def fullName (c : Scope) (d : Interface Mark) : String := qualified c.file.package d.name

/-- The C++ types of some signals or properties, with their names: a class template over the carried types. -/
def channels (c : Scope) (template : String) (ms : List (Channel Mark)) : Except GenError (List (String × String)) :=
  ms.mapM fun m => do
    let types ← c.valueTypes .fresh m.params
    pure (s!"{template}< {types} >", m.name)

/-- A method as it is written in C++: its name, its return type, and its parameters in the three styles. -/
structure Method where
  name : String
  ret : String
  isVoid : Bool
  params : String
  types : String
  names : String
  arity : Nat

def method (c : Scope) (f : Fn Mark) : Except GenError Method := do
  let ret ← c.returnType .fresh f.ret
  let params ← c.params .fresh .full f.params
  let types ← c.params .fresh .types f.params
  let names ← c.params .fresh .names f.params
  pure ⟨f.name, ret, returnsNothing f.ret, params, types, names, f.params.length⟩

def methods (c : Scope) (d : Interface Mark) : Except GenError (List Method) := d.methods.mapM c.method

end Scope
end Cpp
end QiIdl
