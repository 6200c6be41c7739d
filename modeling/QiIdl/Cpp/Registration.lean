import QiIdl.Cpp.Generate

/-!
# Type registration

Each interface gets a function that builds its type, and a static variable that calls it when the program is
loaded. Data types are not registered, which is reported.
-/

namespace QiIdl.Cpp

/-- Where the function of an interface registers its members. The functions are numbered. -/
def registration (number : Nat) (full : String) (bases : List String) (methods : List Scope.Method)
    (d : Interface Mark) : List Step :=
  [.writeLine s!"static int initType{number}() \x7b",
    .scope <|
      [.writeLine s!"qi::ObjectTypeBuilder< {full} > builder;"]
      ++ bases.map (fun b => .writeLine s!"builder.inherits< {b} >();")
      ++ methods.map (fun m => .writeLine <|
        s!"builder.advertiseMethod(\"{m.name}\", static_cast< {m.ret}({full}::*)({m.types}) >"
          ++ s!"(&{full}::{m.name}));")
      ++ d.signals.map (fun m => .writeLine s!"builder.advertiseSignal(\"{m.name}\", &{full}::{m.name});")
      ++ d.properties.map (fun m => .writeLine s!"builder.advertiseProperty(\"{m.name}\", &{full}::{m.name});")
      ++ [.writeLine "builder.registerType();", .writeLine "return 42;"],
    .writeLine "\x7d",
    .writeLine s!"static int myinittype{number} = initType{number}();", .newline]

namespace Scope

/-- Reports that a declaration is not registered. -/
def notRegistered (c : Scope) (kind name : String) (m : Mark) : Generate (List Step) := do
  Generate.warn (c.locate m) s!"{kind} '{name}' is not registered"
  pure []

/-- What a node at the top of the file becomes, where so many interfaces come before it. -/
def registrationItem (c : Scope) (number : Nat) : Node Mark → Generate (List Step)
  | .interface d => do
    let methods ← Generate.ofExcept (c.methods d)
    pure (registration number (c.fullName d) (d.inherits.map (qualifiedBase c.file.package)) methods d)
  | .fn d => pure [.writeLine s!"//QI_REGISTER_OBJECT_FACTORY({d.name});"]
  | .struct d => c.notRegistered "struct" d.name d.tag
  | .enum d => c.notRegistered "enum" d.name d.tag
  | .typedef d => c.notRegistered "typedef" d.name d.tag
  | .const d => Generate.ofExcept (c.unsupported "const declaration" d.tag)
  | .var d => Generate.ofExcept (c.unsupported "var definition" d.tag)
  | _ => pure []

/-- What some nodes at the top of the file become. Interfaces are counted on from a number. -/
def registrationItems (c : Scope) (number : Nat) : List (Node Mark) → Generate (List Step)
  | [] => pure []
  | n :: ns => do
    let first ← c.registrationItem number n
    let others ← c.registrationItems (if n.sort = .interface then number + 1 else number) ns
    pure (first ++ others)

def registrationFile (c : Scope) : Generate (List Step) := do
  Generate.ofExcept c.rejectObjects
  let items ← c.registrationItems 0 c.file.ast.roots
  pure <| banner ++ [.writeLine "#include <qi/type/objecttypebuilder.hpp>"] ++ c.includeLines true ++ [.newline]
    ++ openNamespaces c.file.package ++ items ++ closeNamespaces c.file.package

end Scope
end QiIdl.Cpp
