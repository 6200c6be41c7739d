import QiIdl.Cpp.File

/-!
# Proxies

For each interface `Name` there are two classes that call a remote object by the names of its methods:
`NameAsyncRemote` and `NameRemote`. The proxy of an interface derives from the proxies of its bases. Interfaces
are virtual bases, so the most derived proxy constructs every inherited interface that has signals or
properties, from the fields of the proxy that declares them.
-/

namespace QiIdl

namespace Manager

/-- The interface that a base name means in a package, if a package exports it: the file that declares it, the
name without its package, and the declaration. -/
def baseInterface? (m : Manager) (package base : String) : Option (SourceFile × String × Interface Mark) :=
  let (package, name) := (Text.splitLast base).getD (package, base)
  match m.findExport package name with
  | some ⟨_, file, .interface d⟩ => some (file, name, d)
  | _ => none

/-- The number of exports of all packages, which bounds how deep interfaces can inherit from each other without
a circle. -/
def exportCount (m : Manager) : Nat := (m.packages.values.flatMap (·.exports)).length

/-- Adds the fields of an interface behind those there are, unless it has none or is there. -/
def addFields (full : String) (fields : List String) (known : List (String × List String)) :
    List (String × List String) :=
  if fields.isEmpty || known.any (·.1 == full) then known else known ++ [(full, fields)]

/-- The interfaces that some bases lead to, up to some depth, behind those that are known: each with the names
of its fields, and each after those it inherits from. -/
def inheritedFrom (m : Manager) : (depth : Nat) → (package : String) → (bases : List String) →
    List (String × List String) → List (String × List String)
  | 0, _, _, known => known
  | depth + 1, package, bases, known =>
    bases.foldl (fun known base =>
      match m.baseInterface? package base with
      | none => known
      | some (file, name, d) =>
        addFields (Cpp.qualified file.package name) (d.channelNames.map ("_" ++ ·))
          (inheritedFrom m depth file.package d.inherits known)) known

/-- The interfaces with signals or properties that an interface of a package inherits from. -/
def inheritedFields (m : Manager) (package : String) (d : Interface Mark) : List (String × List String) :=
  m.inheritedFrom (m.exportCount + 1) package d.inherits []

end Manager

namespace Cpp

/-- The arguments of a call by name. -/
def callArguments (name names : String) : String := s!"\"{name}\"" ++ trailing names

/-- A signal or a property of a proxy: its class template, the function that binds it, the carried types and its
name. -/
structure ProxyField where
  kind : String
  bind : String
  types : String
  name : String

namespace Scope

def asyncProxyMethod (m : Method) : List Step :=
  [.writeLine s!"::qi::Future< {m.ret} > {m.name}({m.params}) \x7b",
    .writeLine ("  return _obj.async< " ++ m.ret ++ " >(" ++ callArguments m.name m.names ++ ");"),
    .writeLine "\x7d"]

def asyncProxy (c : Scope) (d : Interface Mark) : Except GenError (List Step) := do
  let methods ← c.methods d
  let bases := d.inherits.map fun b => baseName b ++ "AsyncRemote"
  pure <|
    [.writeLine (s!"class {d.name}AsyncRemote: public {d.name}Async" ++ String.join (bases.map (", public " ++ ·))),
      .writeLine "\x7b", .writeLine "public:",
      .scope <| [.writeLine s!"{d.name}AsyncRemote(const qi::AnyObject& ao)"]
        ++ initializers (bases.map (· ++ "(ao)") ++ ["_obj(ao)"])
        ++ [.writeLine "\x7b\x7d"]
        ++ methods.flatMap asyncProxyMethod,
      .newline, .writeLine "private:", .writeLine "  qi::AnyObject _obj;", .writeLine "\x7d;", .newline]

def proxyFields (c : Scope) (kind bind : String) (ms : List (Channel Mark)) : Except GenError (List ProxyField) :=
  ms.mapM fun m => do
    let types ← c.valueTypes .fresh m.params
    pure ⟨kind, bind, types, m.name⟩

def syncProxyMethod (m : Method) : List Step :=
  let call := callArguments m.name m.names
  [.writeLine s!"{m.ret} {m.name}({m.params}) \x7b",
    .writeLine (if m.isVoid then s!"  _obj.call<void>({call});" else s!"  return _obj.call< {m.ret} >({call});"),
    .writeLine "\x7d"]

/-- What the constructor of a proxy initializes. -/
def proxyInitializers (c : Scope) (d : Interface Mark) (fields : List ProxyField) : List String :=
  d.inherits.map (fun b => baseName b ++ "Remote(ao)")
    ++ (c.manager.inheritedFields c.file.package d).map (fun (base, names) => base ++ "(" ++ commaList names ++ ")")
    ++ [d.name ++ "(" ++ commaList (fields.map ("_" ++ ·.name)) ++ ")"]
    ++ (if d.inherits.isEmpty then ["qi::Proxy(ao)"] else [])
    ++ ["_obj(ao)", "_async(ao)"]

/-- The public part of a proxy. -/
def proxyMembers (c : Scope) (d : Interface Mark) (fields : List ProxyField) (methods : List Method) :
    List Step :=
  [.writeLine s!"{d.name}Remote(const qi::AnyObject& ao)"]
    ++ initializers (c.proxyInitializers d fields)
    ++ [.writeLine "\x7b"]
    ++ fields.map (fun f => .writeLine s!"  qi::{f.bind}(_{f.name}, ao, \"{f.name}\");")
    ++ [.writeLine "\x7d"]
    ++ methods.flatMap syncProxyMethod
    ++ fields.flatMap (fun f =>
      [.writeLine s!"::qi::{f.kind}< {f.types} >& {f.name}() \x7b", .writeLine s!"  return _{f.name};",
        .writeLine "\x7d"])
    ++ [.writeLine s!"{d.name}Async& async() \x7b", .writeLine "  return _async;", .writeLine "\x7d"]

/-- The fields of a proxy as it declares them. -/
def proxyFieldBlock (fields : List ProxyField) : List Step :=
  if fields.isEmpty then []
  else [.writeLine "protected:",
    .scope (fields.map fun f => .writeLine s!"::qi::{f.kind}< {f.types} > _{f.name};")]

def syncProxy (c : Scope) (d : Interface Mark) : Except GenError (List Step) := do
  let signals ← c.proxyFields "Signal" "makeProxySignal" d.signals
  let properties ← c.proxyFields "Property" "makeProxyProperty" d.properties
  let methods ← c.methods d
  let fields := signals ++ properties
  let bases := d.inherits.map fun b => baseName b ++ "Remote"
  let parents := if bases.isEmpty then ["qi::Proxy"] else bases
  pure <|
    [.writeLine (s!"class {d.name}Remote: virtual public {d.name}" ++ String.join (parents.map (", public " ++ ·))),
      .writeLine "\x7b", .writeLine "public:", .scope (c.proxyMembers d fields methods), .newline]
    ++ proxyFieldBlock fields
    ++ [.writeLine "private:",
      .scope [.writeLine "qi::AnyObject _obj;", .writeLine s!"{d.name}AsyncRemote _async;"],
      .writeLine "\x7d;",
      .writeLine s!"QI_REGISTER_PROXY_INTERFACE({d.name}Remote, {d.name});", .newline]

def proxies (c : Scope) (d : Interface Mark) : Except GenError (List Step) := do
  let async ← c.asyncProxy d
  let sync ← c.syncProxy d
  pure (async ++ sync)

/-- What keeps the proxy of an interface in a program. -/
def proxyInclusion (c : Scope) (d : Interface Mark) : List Step :=
  [.newline, .writeLine ("bool qi::detail::ForceProxyInclusion< " ++ c.fullName d ++ " >::dummyCall() \x7b"),
    .writeLine "  return true;", .writeLine "\x7d"]

def proxyFile (c : Scope) : Except GenError (List Step) := do
  c.rejectObjects
  let all ← c.interfaces.mapM c.proxies
  pure <| banner ++ [.writeLine "#include <qi/type/objecttypebuilder.hpp>"] ++ c.includeLines true ++ [.newline]
    ++ openNamespaces c.file.package ++ all.flatten ++ closeNamespaces c.file.package
    ++ c.interfaces.flatMap c.proxyInclusion

end Scope
end Cpp
end QiIdl
