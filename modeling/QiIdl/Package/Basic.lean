import QiIdl.Ast.Arena
import QiIdl.Output.Diagnostic
import QiIdl.Source.Fault
import QiIdl.Disk.Basic
import QiIdl.Table

/-!
# Packages

A package is the set of files that declare it. What stands at the top of its files under a name is exported
under that name; an import statement makes the exports of another package visible to its file.
-/

namespace QiIdl

/-- A source file that was read, with the package it declares. -/
structure SourceFile where
  path : Path
  package : String
  source : String
  ast : Ast

namespace SourceFile

/-- The name of a file as places in it show it. -/
def name (f : SourceFile) : String := f.path.text

/-- The name of a file without its directories and its extension. -/
def stem (f : SourceFile) : String := f.path.stem

def imports (f : SourceFile) : List (Import Mark) :=
  f.ast.roots.filterMap fun | .imports d => some d | _ => none

end SourceFile

/-- The name that a node at the top of a file is exported under. -/
def Node.exportedName? {α : Type} : Node α → Option String
  | .interface d => some d.name
  | .struct d => some d.name
  | .fn d => some d.name
  | .const d => some d.name
  | .typedef d => some d.name
  | .enum d => some d.name
  | .object (.object _ _ _ name _) => some name
  | _ => none

/-- A node that a package makes visible. -/
structure Export where
  name : String
  file : SourceFile
  node : Node Mark

def Export.location (e : Export) : Location := e.file.ast.location e.node

/-- An import statement of a file of a package. -/
structure ImportUse where
  file : Path
  stmt : Import Mark
  location : Location

/-- A package: its files, those whose exports and imports are entered, what it exports and imports, how many
exports were refused because their name was taken, and with how many include directories its files were located
last. -/
structure Package where
  name : String
  files : Table Path SourceFile
  registered : List Path
  exports : Table String Export
  imports : Table String (List ImportUse)
  duplicates : Nat
  locatedWith : Option Nat

namespace Package

def empty (name : String) : Package := ⟨name, [], [], [], [], 0, none⟩

/-- Adds a file, unless there is one of its path. -/
def addFile (p : Package) (f : SourceFile) : Package :=
  if p.files.contains f.path then p else { p with files := p.files.insert f.path f }

/-- Whether all files are registered, after they were located with so many include directories. -/
def isLoaded (p : Package) (includes : Nat) : Bool :=
  p.locatedWith == some includes && p.files.keys.all p.registered.contains

/-- Adds an import statement behind the others of the same package. -/
def addImport (p : Package) (use : ImportUse) : Package :=
  { p with imports := p.imports.alter use.stmt.package fun uses => uses.getD [] ++ [use] }

/-- Adds an export. If its name is taken, the first one stays and is given back. -/
def addExport (p : Package) (e : Export) : Package × Option Export :=
  match p.exports.find? e.name with
  | some previous => ({ p with duplicates := p.duplicates + 1 }, some previous)
  | none => ({ p with exports := p.exports.insert e.name e }, none)

/-- Enters what a node at the top of a file exports or imports, with the report of a name that is taken. -/
def register (file : SourceFile) (p : Package) (node : Node Mark) : Package × List Diagnostic :=
  match node, node.exportedName? with
  | .imports d, _ => (p.addImport ⟨file.path, d, file.ast.location node⟩, [])
  | _, some name =>
    match p.addExport ⟨name, file, node⟩ with
    | (p, some previous) =>
      (p, [(Problem.alreadyExported name previous.location).diagnostic (file.ast.location node)])
    | (p, none) => (p, [])
  | _, none => (p, [])

/-- Enters what some nodes at the top of a file export and import. -/
def registerAll (file : SourceFile) (p : Package) : List (Node Mark) → Package × List Diagnostic
  | [] => (p, [])
  | node :: nodes =>
    let (p, first) := p.register file node
    let (p, others) := p.registerAll file nodes
    (p, first ++ others)

/-- Enters what a file exports and imports, once. -/
def registerFile (p : Package) (file : SourceFile) : Package × List Diagnostic :=
  if p.registered.contains file.path then (p, [])
  else
    let (p, reports) := p.registerAll file file.ast.roots
    ({ p with registered := file.path :: p.registered }, reports)

/-- The packages that are imported, each with the place of its first import. -/
def importedPackages (p : Package) : List (String × Location) :=
  p.imports.filterMap fun (name, uses) => uses.head?.map fun use => (name, use.location)

end Package

/-! ## What a name means -/

/-- What a custom type can be. -/
inductive SymbolKind where
  | interface
  | struct
  | enum
deriving DecidableEq, Repr

/-- The word for what a custom type is. -/
def SymbolKind.text : SymbolKind → String
  | interface => "interface"
  | struct => "struct"
  | enum => "enum"

/-- What a reference to a custom type means. -/
structure Resolution where
  package : String
  name : String
  kind : SymbolKind
deriving DecidableEq, Repr

/-- Why packages could not be loaded or references could not be resolved. -/
inductive PackageError where
  | disk (path : String) (error : DiskError)
  | faults (file source : String) (faults : List Fault)
  | structural (problem : Problem) (location : Location)
  | notFound (package : String)
  | resolution (message : String) (location : Location)
  | failed (package : String) (count : Nat)

def PackageError.message : PackageError → String
  | disk path error => s!"Error reading '{path}': {error.message}"
  | faults file source all => Fault.textAll file source all
  | structural problem location => s!"{location.text}: {problem.message}"
  | notFound package => s!"Can't find package '{package}'"
  | resolution message location => s!"{location.text}: {message}"
  | failed package count => s!"{count} error(s) in package '{package}'"

end QiIdl
