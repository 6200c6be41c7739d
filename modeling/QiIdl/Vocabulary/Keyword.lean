/-!
# Keywords

The reserved words of the language. A keyword has one canonical spelling and may have others that mean the
same; the case of letters counts. No name may be spelled like a keyword.
-/

namespace QiIdl

/-- A reserved word. Those that Lean reserves too carry a mark. -/
inductive Keyword where
  | package
  | importKw
  | fromKw
  | interface
  | fn
  | emit
  | prop
  | struct
  | const
  | typedef
  | enum
  | endKw
  | object
  | atKw
  | var
  | trueKw
  | falseKw
deriving DecidableEq, Repr

/-- What a keyword is for. -/
inductive KeywordCategory where
  | package
  | declaration
  | statement
  | literal
deriving DecidableEq, Repr

namespace Keyword

/-- Every keyword, in the order of the language reference. -/
def all : List Keyword :=
  [.package, .importKw, .fromKw, .interface, .fn, .emit, .prop, .struct, .const, .typedef, .enum, .endKw,
   .object, .atKw, .var, .trueKw, .falseKw]

/-- The canonical spelling. -/
def spelling : Keyword → String
  | package => "package"
  | importKw => "import"
  | fromKw => "from"
  | interface => "interface"
  | fn => "fn"
  | emit => "emit"
  | prop => "prop"
  | struct => "struct"
  | const => "const"
  | typedef => "typedef"
  | enum => "enum"
  | endKw => "end"
  | object => "object"
  | atKw => "at"
  | var => "var"
  | trueKw => "true"
  | falseKw => "false"

/-- Other spellings. Older files announce a signal with `out`. -/
def aliases : Keyword → List String
  | emit => ["out"]
  | _ => []

def category : Keyword → KeywordCategory
  | package | importKw | fromKw => .package
  | object | atKw | var => .statement
  | trueKw | falseKw => .literal
  | _ => .declaration

/-- The name a message gives to a keyword. -/
def name : Keyword → String
  | package => "Package"
  | importKw => "Import"
  | fromKw => "From"
  | interface => "Interface"
  | fn => "Fn"
  | emit => "Emit"
  | prop => "Prop"
  | struct => "Struct"
  | const => "Const"
  | typedef => "Typedef"
  | enum => "Enum"
  | endKw => "End"
  | object => "Object"
  | atKw => "At"
  | var => "Var"
  | trueKw => "True"
  | falseKw => "False"

/-- The keyword of a spelling. Canonical spellings come first. -/
def ofSpelling? (s : String) : Option Keyword :=
  (all.find? (·.spelling == s)).or (all.find? (·.aliases.contains s))

end Keyword

def KeywordCategory.name : KeywordCategory → String
  | package => "Package"
  | declaration => "Declaration"
  | statement => "Statement"
  | literal => "Literal"

end QiIdl
