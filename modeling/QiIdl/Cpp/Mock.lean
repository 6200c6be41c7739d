import QiIdl.Cpp.File

/-!
# Mocks

For each interface `Name` there is a mock `NameGMock` of its asynchronous contract, with a nice and a strict
variant. A mock registers its type, and those of its variants, the first time one is built.
-/

namespace QiIdl

def SourceFile.mockGuard (f : SourceFile) : String := s!"_QILANG_GEN_GMOCK_{Cpp.guardBase f.package f.stem}_HPP"

namespace Cpp.Scope

/-- The carried types of some signals or properties, with their names. -/
def carried (c : Scope) (ms : List (Channel Mark)) : Except GenError (List (String × String)) :=
  ms.mapM fun m => do
    let types ← c.valueTypes .fresh m.params
    pure (types, m.name)

/-- The function that registers the type of a mock. -/
def mockRegistration (function : String) (methods : List Method) (signals properties : List (String × String)) :
    List Step :=
  [.writeLine "namespace detail", .writeLine "\x7b", .writeLine "template <typename T>",
    .writeLine s!"void {function}(::qi::ObjectTypeBuilder<T>&& typeBuilder)", .writeLine "\x7b",
    .scope <|
      methods.map (fun m => .writeLine (s!"typeBuilder.advertiseMethod(\"{m.name}\", "
        ++ s!"static_cast<::qi::Future<{m.ret}>(T::*)({m.types})>(&T::{m.name}));"))
      ++ signals.map (fun (types, name) => .writeLine
        s!"typeBuilder.advertiseSignal(\"{name}\", static_cast<::qi::Signal<{types}> T::*>(&T::{name}));")
      ++ properties.map (fun (types, name) => .writeLine
        s!"typeBuilder.advertiseProperty(\"{name}\", static_cast<::qi::Property<{types}> T::*>(&T::{name}));")
      ++ [.writeLine "typeBuilder.registerType();"],
    .writeLine "\x7d", .writeLine "\x7d // ends namespace detail", .newline]

/-- The constructor of a mock, which registers the types of all variants once. -/
def mockConstructor (function mock : String) (variants : List String) : List Step :=
  [.writeLine s!"{mock}()", .writeLine "\x7b",
    .scope [.writeLine "static bool _typeRegistered_ = []", .writeLine "\x7b",
      .scope <|
        (mock :: variants).map (fun name =>
          .writeLine s!"detail::{function}(::qi::ObjectTypeBuilder<{name}>\x7b\x7d);")
        ++ [.writeLine "return true;"],
      .writeLine "\x7d();", .writeLine "QI_UNUSED(_typeRegistered_);"],
    .writeLine "\x7d", .newline]

def mock (c : Scope) (d : Interface Mark) : Except GenError (List Step) := do
  let methods ← c.methods d
  let signals ← c.carried d.signals
  let properties ← c.carried d.properties
  let function := s!"register{d.name}InTypeBuilder"
  let name := d.name ++ "GMock"
  let nice := d.name ++ "NiceGMock"
  let strict := d.name ++ "StrictGMock"
  pure <| mockRegistration function methods signals properties
    ++ [.writeLine s!"struct {name};", .writeLine s!"using {nice} = ::testing::NiceMock<{name}>;",
      .writeLine s!"using {strict} = ::testing::StrictMock<{name}>;", .newline,
      .writeLine s!"struct {name}", .writeLine "\x7b",
      .scope <| mockConstructor function name [nice, strict]
        ++ methods.map (fun m =>
          .writeLine s!"MOCK_METHOD{m.arity}({m.name}, ::qi::Future<{m.ret}>({m.types}));")
        ++ signals.map (fun (types, name) => .writeLine s!"qi::Signal<{types}> {name};")
        ++ properties.map (fun (types, name) => .writeLine s!"qi::Property<{types}> {name};"),
      .writeLine "\x7d;", .newline]

def mockFile (c : Scope) : Except GenError (List Step) := do
  c.rejectObjects
  let guard := c.file.mockGuard
  let namespaces := Text.segments c.file.package ++ ["gmock"]
  let mocks ← c.interfaces.mapM c.mock
  pure <|
    [.writeLine "// QiLang-generated file. DO NOT EDIT.", .writeLine "#pragma once",
      .writeLine s!"#ifndef {guard}", .writeLine s!"#define {guard}", .newline,
      .writeLine "#include <gmock/gmock.h>", .writeLine ("#include " ++ c.file.header), .newline]
    ++ namespaces.flatMap (fun n => [.writeLine s!"namespace {n}", .writeLine "\x7b"])
    ++ mocks.flatten
    ++ namespaces.reverse.map (fun n => .writeLine s!"\x7d // ends namespace {n}")
    ++ [.newline, .writeLine s!"#endif // {guard}"]

end Cpp.Scope
end QiIdl
