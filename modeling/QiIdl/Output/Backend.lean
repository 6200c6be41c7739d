import QiIdl.Output.Diagnostic

/-!
# Outputs

What a file can be turned into: five kinds of C++ code, and three texts that need no other file.
-/

namespace QiIdl

/-- A kind of output. -/
inductive Backend where
  | cppInterface
  | cppLocal
  | cppRemote
  | cppBind
  | cppGmock
  | qilang
  | sexpr
  | doc
deriving DecidableEq, Repr

namespace Backend

def all : List Backend := [.cppInterface, .cppLocal, .cppRemote, .cppBind, .cppGmock, .qilang, .sexpr, .doc]

def name : Backend → String
  | cppInterface => "cpp_interface"
  | cppLocal => "cpp_local"
  | cppRemote => "cpp_remote"
  | cppBind => "cpp_bind"
  | cppGmock => "cpp_gmock"
  | qilang => "qilang"
  | sexpr => "sexpr"
  | doc => "doc"

/-- The short name of a kind of output. -/
def alias? : Backend → Option String
  | cppInterface => some "cppi"
  | cppLocal => some "cppl"
  | cppRemote => some "cppr"
  | cppBind => some "cppb"
  | cppGmock => some "cppg"
  | qilang | sexpr | doc => none

def ofName? (name : String) : Option Backend := all.find? fun b => b.name == name || b.alias? == some name

/-- Whether references must be resolved before this output is made. -/
def needsResolution : Backend → Bool
  | qilang | sexpr | doc => false
  | _ => true

end Backend

/-- Why output could not be made: a construct that it cannot express, or a reference that was not resolved. -/
inductive GenError where
  | unsupported (backend : Backend) (construct : String) (location : Location)
  | unresolved (name : String) (location : Location)
deriving DecidableEq, Repr

def GenError.message : GenError → String
  | unsupported backend construct location =>
    s!"{location.text}: {construct} is not supported by the {backend.name} backend"
  | unresolved name location => s!"{location.text}: type '{name}' was not resolved"

end QiIdl
