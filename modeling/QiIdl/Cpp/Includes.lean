import QiIdl.Cpp.Types

/-!
# Includes

The headers that the declarations of a file need, each once, in the order in which they are first needed. A
reference to something that another file declares needs the header of that file.
-/

namespace QiIdl

/-- The header that declares the C++ type of a builtin type. -/
def Builtin.header? (t : Builtin) : Option String :=
  match t with
  | int8 | uint8 | int16 | uint16 | int32 | uint32 | int64 | uint64 => some "<qi/types.hpp>"
  | _ =>
    match t.category with
    | .string => some "<string>"
    | .value => some "<qi/anyvalue.hpp>"
    | .object => some "<qi/anyobject.hpp>"
    | .buffer => some "<qi/buffer.hpp>"
    | .duration | .timePoint => some "<qi/clock.hpp>"
    | _ => none

def SourceFile.header (f : SourceFile) : String := Cpp.headerInclude f.package f.stem

namespace Cpp

/-- Some texts without those that come again. -/
def distinct (texts : List String) : List String :=
  texts.foldl (fun known t => if known.contains t then known else known ++ [t]) []

namespace Scope

/-- The header of the file that exports a name, unless it is this file. -/
def headerOf (c : Scope) (package name : String) : List String :=
  match c.manager.findExport package name with
  | some e => if e.file.path = c.file.path then [] else [e.file.header]
  | none => []

/-- The headers that a node by itself needs. -/
def nodeHeaders (c : Scope) : Node Mark → List String
  | .type (.builtin _ t) => t.header?.toList
  | .type (.list ..) => ["<vector>"]
  | .type (.map ..) => ["<map>"]
  | .type (.tuple ..) => ["<utility>"]
  | .type (.custom m _) =>
    match c.manager.resolution? c.file.path m.id with
    | some r => c.headerOf r.package r.name
    | none => []
  | .interface _ => ["<qi/anyobject.hpp>"]
  | .emit _ => ["<qi/signal.hpp>"]
  | .prop _ => ["<qi/property.hpp>"]
  | .imports ⟨_, package, .names names⟩ => names.flatMap (c.headerOf package)
  | _ => []

/-- The nodes of the file from the top down, in source order. -/
def nodes (c : Scope) : List (Node Mark) := (Tree.find (fun _ => true) c.file.ast.trees).map (·.2)

/-- The headers that the file needs, behind its own if that is asked for. -/
def includes (c : Scope) (own : Bool) : List String :=
  distinct ((if own then [c.file.header] else []) ++ c.nodes.flatMap c.nodeHeaders)

def includeLines (c : Scope) (own : Bool) : List Step :=
  (c.includes own).map fun header => .writeLine ("#include " ++ header)

end Scope
end Cpp
end QiIdl
