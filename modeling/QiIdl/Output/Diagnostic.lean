import QiIdl.Source.Position

/-!
# Diagnostics

What is reported about files that are already read: packages out of place, names that mean nothing, things an
output cannot express. Reports are kept in the order in which they are made.
-/

namespace QiIdl

/-- How serious a report is. -/
inductive Severity where
  | info
  | warning
  | error
deriving DecidableEq, Repr

namespace Severity

def text : Severity → String
  | info => "info"
  | warning => "warning"
  | error => "error"

def rank : Severity → Nat
  | info => 0
  | warning => 1
  | error => 2

/-- The more serious of two severities. -/
def max (a b : Severity) : Severity := if a.rank < b.rank then b else a

end Severity

/-- A remark to a report, mostly about another place. -/
structure Note where
  location : Location
  message : String
deriving DecidableEq, Repr

/-- A report. -/
structure Diagnostic where
  severity : Severity
  location : Location
  message : String
  notes : List Note
deriving DecidableEq, Repr

namespace Diagnostic

/-- A report without remarks. -/
def plain (severity : Severity) (location : Location) (message : String) : Diagnostic :=
  ⟨severity, location, message, []⟩

/-- Adds a remark after those there are. -/
def withNote (d : Diagnostic) (location : Location) (message : String) : Diagnostic :=
  { d with notes := d.notes ++ [⟨location, message⟩] }

/-- A report as it is shown: a line of its own, then one for each remark. -/
def text (d : Diagnostic) : String :=
  s!"{d.location.text}: {d.severity.text}: {d.message}"
    ++ String.join (d.notes.map fun n => s!"\n{n.location.text}: note: {n.message}")

def isError (d : Diagnostic) : Bool := d.severity == .error

def render (ds : List Diagnostic) : String := String.join (ds.map fun d => d.text ++ "\n")

/-- The most serious severity of some reports. -/
def worst? : List Diagnostic → Option Severity
  | [] => none
  | d :: ds => some (ds.foldl (fun s e => s.max e.severity) d.severity)

end Diagnostic

/-- What can be wrong with packages and the names in them. -/
inductive Problem where
  | missingPackage
  | extraPackage (previous : Location)
  | directoryMismatch (package directory : String)
  | alreadyExported (name : String) (previous : Location)
  | packageNotFound (package : String)
  | symbolNotFound (name package : String)
  | notAType (name package : String)
  | unresolved (name : String)
deriving DecidableEq, Repr

namespace Problem

def message : Problem → String
  | missingPackage => "missing package declaration"
  | extraPackage _ => "extra package declaration"
  | directoryMismatch package directory =>
    s!"package name '{package}' do not match parent directory name '{directory}'"
  | alreadyExported name _ => s!"symbol '{name}' already exported"
  | packageNotFound package => s!"Can't find package '{package}'"
  | symbolNotFound name package => s!"Can't find '{name}' in package '{package}'"
  | notAType name package => s!"'{name}' in package '{package}' is not a type"
  | unresolved name => s!"Can't resolve '{name}'"

/-- What was there before, for a problem that is about two places. -/
def previous? : Problem → Option Location
  | extraPackage previous | alreadyExported _ previous => some previous
  | _ => none

def diagnostic (location : Location) (p : Problem) : Diagnostic :=
  ⟨.error, location, p.message, p.previous?.toList.map (⟨·, "previous declared here"⟩)⟩

end Problem
end QiIdl
