import QiIdl.Cpp.Generate
import QiIdl.Cpp.Header
import QiIdl.Text.Uppercase

/-!
# Adapters

For each interface `Name` there are two classes around a local implementation: `NameLocalAsync` runs every method
asynchronously, `NameLocalSync` waits for its value. The macro `REGISTER_NAME` registers an implementation type:
it has a function for each method through which the method is called, and advertises all methods with their
documentation. A macro is one logical line, so each of its lines but the last ends in a backslash.
-/

namespace QiIdl.Cpp

def asyncAdapterMethod (m : Scope.Method) : List Step :=
  let behind := trailing m.names
  [.writeLine s!"::qi::Future< {m.ret} > {m.name}({m.params})", .writeLine "\x7b",
    .scope [
      .writeLine ("static auto f = [](const ImplPtr& self" ++ trailing m.params
        ++ s!")\x7b QI_ASSERT_NOT_NULL(self); return self->{m.name}({m.names}); \x7d;"),
      .writeLine s!"using ReturnType = decltype(f(_p{behind}));",
      .writeLine ("return qi::detail::tryUnwrap(qilang::detail::safeMemberAsync<ReturnType, ImplType>"
        ++ s!"(f, _p{behind}));")],
    .writeLine "\x7d", .newline]

def asyncAdapter (name : String) (methods : List Scope.Method) : List Step :=
  [.writeLine "template <typename ImplPtr>", .writeLine s!"class {name}LocalAsync : public {name}Async",
    .writeLine "\x7b", .writeLine "public:",
    .scope <|
      [.writeLine s!"explicit {name}LocalAsync(ImplPtr impl)", .writeLine "  : _p(std::move(impl))",
        .writeLine "\x7b\x7d", .newline]
      ++ methods.flatMap asyncAdapterMethod,
    .writeLine "private:",
    .scope [.writeLine "ImplPtr _p;", .writeLine "using ImplType = typename ImplPtr::element_type;"],
    .writeLine "\x7d;", .newline]

/-- A method of an adapter that waits. -/
def syncAdapterMethod (m : Scope.Method) : List Step :=
  let call := s!"_async.{m.name}({m.names}).value();"
  [.writeLine s!"{m.ret} {m.name}({m.params})", .writeLine "\x7b",
    .writeLine (if m.isVoid then "  " ++ call else "  return " ++ call), .writeLine "\x7d"]

def syncAdapter (name : String) (channels : List String) (methods : List Scope.Method) : List Step :=
  let fields := commaList (channels.map ("impl->" ++ ·))
  [.writeLine "template <typename ImplPtr>",
    .writeLine s!"class {name}LocalSync : public {name}, public qi::Proxy",
    .writeLine "\x7b", .writeLine "public:",
    .scope <|
      [.writeLine s!"explicit {name}LocalSync(ImplPtr impl)", .writeLine s!"  : {name}({fields})",
        .writeLine "  , _async(impl)", .writeLine "\x7b\x7d", .newline]
      ++ methods.flatMap syncAdapterMethod
      ++ [.newline, .writeLine s!"{name}Async& async()", .writeLine "\x7b",
        .writeLine s!"  return *static_cast<{name}Async*>(&_async);", .writeLine "\x7d"],
    .newline, .writeLine "private:", .writeLine s!"  {name}LocalAsync<ImplPtr> _async;",
    .writeLine "\x7d;", .newline]

/-! ## The registration macro -/

/-- The name of the implementation type in a registration macro. -/
def implementation : String := "impl__"

def traits (full : String) : String := s!"qi::detail::InterfaceImplTraits< {full} >"

/-- The start of a registration macro. -/
def macroStart (name full : String) : List String :=
  [s!"#define REGISTER_{Text.uppercase name}({implementation})",
    "static_assert(",
    s!"    {traits full}::Defined::value,",
    s!"    \"Missing QI_REGISTER_IMPLEMENTATION_H({full}, \" #{implementation} \") "
      ++ "in the header of the implementation\");",
    s!"QI_REGISTER_IMPLEMENTATION({full}, {traits full}::SyncType)"]

/-- The function of a registration macro through which a method is called. -/
def bounceLines (name full : String) (m : Scope.Method) : List String :=
  [s!"static ::qi::Future< {m.ret} > {name}{m.name}({full}* obj" ++ trailing m.params ++ ") \x7b",
    s!"  return static_cast<{traits full}::SyncType*>(obj)->async().{m.name}({m.names});",
    "\x7d"]

/-- What a registration macro says about the documentation of a method. -/
def docMacroLines (d : Doc) : List String :=
  d.params.map (fun (name, text) => s!"    mmb.appendParameter({Text.quote name}, {Text.quote text});")
    ++ d.returns.toList.map (fun text => s!"    mmb.setReturnDescription({Text.quote text});")
    ++ d.description.toList.map fun text => s!"    mmb.setDescription({Text.quote text});"

/-- How a registration macro advertises a method. -/
def advertiseLines (name full : String) (doc : Option Doc) (m : Scope.Method) : List String :=
  ["  \x7b", "    qi::MetaMethodBuilder mmb;", s!"    mmb.setName(\"{m.name}\");"]
    ++ doc.toList.flatMap docMacroLines
    ++ [s!"    const auto callType = std::is_base_of<qi::Actor, {implementation} >::value"
        ++ " ? qi::MetaCallType_Direct : qi::MetaCallType_Auto;",
      s!"    builder.advertiseMethod(mmb, static_cast<::qi::Future< {m.ret} > (*)({full}*"
        ++ trailing m.types ++ s!")>(&{name}{m.name}), callType);",
      "  \x7d"]

/-- The function of a registration macro that builds the type. -/
def initLines (d : Interface Mark) (full : String) (bases : List String) (advertised : List String) : List String :=
  [s!"static int initType{d.name}() \x7b", s!"  qi::ObjectTypeBuilder< {full} > builder;"]
    ++ bases.map (fun b => s!"  builder.inherits< {b} >();")
    ++ advertised
    ++ d.signals.map (fun m => s!"  builder.advertiseSignal(\"{m.name}\", &{full}::{m.name});")
    ++ d.properties.map (fun m => s!"  builder.advertiseProperty(\"{m.name}\", &{full}::{m.name});")
    ++ ["  builder.registerType();", "  return 42;", "\x7d"]

namespace Scope

/-- How the registration macro of an interface advertises its methods. -/
def advertised (c : Scope) (d : Interface Mark) (full : String) : Generate (List String) := do
  let all ← d.methods.mapM fun f => do
    let m ← Generate.ofExcept (c.method f)
    let doc ← Generate.ofReporting (readDoc (c.locate f.tag) f.doc)
    pure (advertiseLines d.name full doc m)
  pure all.flatten

/-- The registration macro of an interface. Its brief goes before it. -/
def registerMacro (c : Scope) (d : Interface Mark) : Generate (List Step) := do
  let full := c.fullName d
  let doc ← Generate.ofReporting (readDoc (c.locate d.tag) d.doc)
  let methods ← Generate.ofExcept (c.methods d)
  let advertised ← c.advertised d full
  let lines := macroStart d.name full ++ methods.flatMap (bounceLines d.name full)
    ++ initLines d full (d.inherits.map (qualifiedBase c.file.package)) advertised
  pure <| (doc.bind (·.brief)).toList.map (fun brief => .writeLine ("// " ++ brief))
    ++ lines.map (fun line => .writeLine (line ++ " \\"))
    ++ [.writeLine s!"static int myinittype{d.name} = initType{d.name}();", .newline]

def adapters (c : Scope) (d : Interface Mark) : Except GenError (List Step) := do
  let methods ← c.methods d
  pure (asyncAdapter d.name methods ++ syncAdapter d.name d.channelNames methods)

/-- The adapters and registration macros of the file. -/
def adapterFile (c : Scope) : Generate (List Step) := do
  Generate.ofExcept c.rejectObjects
  let guard := c.file.headerGuard ++ "_P"
  let adapters ← Generate.ofExcept (c.interfaces.mapM c.adapters)
  let macros ← c.interfaces.mapM c.registerMacro
  pure <| banner
    ++ [.writeLine s!"#ifndef {guard}", .writeLine s!"#define {guard}", .newline,
      .writeLine "#include <qi/future.hpp>", .writeLine "#include <qi/assert.hpp>",
      .writeLine "#include <qilang/detail/gencodeutility.hpp>"]
    ++ c.includeLines true ++ [.newline]
    ++ openNamespaces c.file.package ++ adapters.flatten ++ closeNamespaces c.file.package ++ [.newline]
    ++ macros.flatten ++ [.writeLine s!"#endif // {guard}"]

end Scope
end QiIdl.Cpp
