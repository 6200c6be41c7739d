import QiIdl.Text.Pieces

/-!
# Names in C++

Packages become namespaces, and each file of a package has a header of its own.
-/

namespace QiIdl.Cpp

/-- The namespace of a package: `::a::b` for `a.b`. -/
def namespacePath (package : String) : String := String.join ((Text.segments package).map ("::" ++ ·))

/-- The full name of something in a package. -/
def qualified (package name : String) : String := namespacePath package ++ "::" ++ name

/-- A base as it is written, with C++ separators. -/
def baseName (name : String) : String := Text.replaceChar '.' "::" name

/-- The full name of a base: a dotted name is full already, a plain one belongs to the package. -/
def qualifiedBase (package name : String) : String :=
  if name.toList.contains '.' then "::" ++ baseName name else qualified package name

/-- A letter or a digit of a guard. -/
def guardChar (c : Char) : Char := if c.isAlphanum then c.toUpper else '_'

/-- The part of a guard that tells files apart: `A_B_ROBOT` for the file `robot` of `a.b`. -/
def guardBase (package stem : String) : String :=
  String.ofList ((package ++ "_" ++ stem).toList.map guardChar)

/-- The header of a file: `<a/b/robot.hpp>` for the file `robot` of `a.b`. -/
def headerInclude (package stem : String) : String :=
  "<" ++ Text.replaceChar '.' "/" package ++ "/" ++ stem ++ ".hpp>"

end QiIdl.Cpp
