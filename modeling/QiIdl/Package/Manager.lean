import QiIdl.Grammar.File
import QiIdl.Package.Basic
import QiIdl.Package.Locate

/-!
# Loading packages

A manager knows the files and packages that were loaded so far. Its operations look at the disk as it is when
they run, and read each file at most once. When an operation fails, what it has learnt before stays known, and
so does what it has reported.
-/

namespace QiIdl

/-- What was loaded: packages and files, the include directories in the order in which they are searched, what
the references of each file mean, where the files of packages were found with how many include directories, the
reports, and the number of files read. -/
structure Manager where
  packages : Table String Package
  files : Table Path SourceFile
  includes : List Include
  resolutions : Table Path (Table Nat Resolution)
  located : Table String (Nat × List Path)
  diagnostics : List Diagnostic
  reads : Nat

/-- An operation on a manager. -/
abbrev Managed := EStateM PackageError Manager

namespace Manager

def empty : Manager := ⟨[], [], [], [], [], [], 0⟩

/-- The files of a package, in increasing order of their paths. -/
def packageFiles (m : Manager) (name : String) : List SourceFile :=
  ((m.packages.find? name).map (·.files.values)).getD []

def findExport (m : Manager) (package name : String) : Option Export :=
  (m.packages.find? package).bind (·.exports.find? name)

/-- What a reference of a file means. -/
def resolution? (m : Manager) (file : Path) (id : Nat) : Option Resolution :=
  (m.resolutions.find? file).bind (·.find? id)

def hasError (m : Manager) : Bool := m.diagnostics.any (·.isError)

/-- Adds an include directory in front of the others, unless it is there. -/
def addInclude (i : Include) (m : Manager) : Manager :=
  if m.includes.any (·.components == i.components) then m else { m with includes := i :: m.includes }

def report (d : Diagnostic) (m : Manager) : Manager := { m with diagnostics := m.diagnostics ++ [d] }

/-- Adds a file to the files and to its package. -/
def addFile (f : SourceFile) (m : Manager) : Manager :=
  { m with
    files := m.files.insert f.path f
    packages := m.packages.alter f.package fun p => (p.getD (.empty f.package)).addFile f }

def registerFile (name : String) (m : Manager) (f : SourceFile) : Manager :=
  match m.packages.find? name with
  | none => m
  | some p =>
    let (p, reports) := p.registerFile f
    { m with packages := m.packages.insert name p, diagnostics := m.diagnostics ++ reports }

/-- Notes with how many include directories a package was located. -/
def markLocated (name : String) (includes : Nat) (m : Manager) : Manager :=
  match m.packages.find? name with
  | none => m
  | some p => { m with packages := m.packages.insert name { p with locatedWith := some includes } }

end Manager

namespace Managed

/-- Fails with a problem, which is reported. -/
def structural {β : Type} (location : Location) (p : Problem) : Managed β := do
  modify (·.report (p.diagnostic location))
  throw (.structural p location)

/-- Adds an include directory, given by a spelled path. -/
def addInclude (disk : Disk) (spelled : String) : Managed Unit :=
  modify (·.addInclude (.ofText disk spelled))

/-! ## Reading a file -/

/-- The package statements of a file, with their names. -/
def packageStatements (ast : Ast) : List (String × Location) :=
  ast.roots.filterMap fun n =>
    match n with
    | .package _ name => some (name, ast.location n)
    | _ => none

def fileStart (file : String) : Location := ⟨some file, ⟨1, 1⟩, ⟨1, 1⟩⟩

/-- The package that a file declares, and where. There must be one declaration and no more. -/
def declaredPackage (ast : Ast) : Managed (String × Location) :=
  match packageStatements ast with
  | [] => structural (fileStart ast.file) .missingPackage
  | [declared] => pure declared
  | (_, previous) :: (_, location) :: _ => structural location (.extraPackage previous)

/-- Takes the segments of a package name, the last first, off the names of directories, the innermost first.
What is left is given back, or the first directory of another name. -/
def dropDirectories : Path → Path → Except String Path
  | [], directories => .ok directories
  | _ :: _, [] => .error ""
  | segment :: segments, directory :: directories =>
    if segment = directory then dropDirectories segments directories else .error directory.word

/-- The directory that holds the directories of a package. Those that hold the file must spell the package
name. -/
def packageRoot (path : Path) (package : String) (location : Location) : Managed Path :=
  match dropDirectories (Path.ofPackage package).reverse path.dropLast.reverse with
  | .ok directories => pure directories.reverse
  | .error directory => structural location (.directoryMismatch package directory)

/-- Turns an error of the disk into one of the manager. -/
def ofDisk {β : Type} (path : String) : Except DiskError β → Managed β
  | .ok b => pure b
  | .error e => throw (.disk path e)

/-- Reads a file that is not known yet. -/
def readSource (disk : Disk) (path : Path) : Managed SourceFile := do
  let source ← ofDisk path.text (disk.read path)
  modify fun m => { m with reads := m.reads + 1 }
  match parseSource source path.text with
  | .error faults => throw (.faults path.text source faults)
  | .ok ast => do
    let (package, location) ← declaredPackage ast
    let root ← packageRoot path package location
    modify (·.addInclude (.known root))
    let file : SourceFile := ⟨path, package, source, ast⟩
    modify (·.addFile file)
    pure file

/-- The file at a place: the one that is known, or else the one that is read. -/
def fileAt (disk : Disk) (path : Path) : Managed SourceFile := do
  match (← get).files.find? path with
  | some file => pure file
  | none => readSource disk path

/-- The file of a spelled path. It must be on the disk, even if it is known. -/
def parseFile (disk : Disk) (spelled : String) : Managed SourceFile := do
  let path ← ofDisk spelled (disk.resolve spelled)
  fileAt disk path

/-- The file of a path that was found before. It must still be on the disk. -/
def parseFound (disk : Disk) (path : Path) : Managed SourceFile := do
  let path ← ofDisk path.text (disk.follow [] path)
  fileAt disk path

/-- All source files below a spelled path. -/
def parseDirectory (disk : Disk) (spelled : String) : Managed (List SourceFile) :=
  (disk.sources spelled).mapM (parseFound disk)

/-! ## Loading a package -/

/-- The source files of a package. They are searched again only after an include directory was added. -/
def locatedFiles (disk : Disk) (name : String) : Managed (List Path) := do
  let m ← get
  let count := m.includes.length
  match m.located.find? name with
  | some (with?, paths) => if with? = count then pure paths else search m count
  | none => search m count
where
  search (m : Manager) (count : Nat) : Managed (List Path) := do
    let paths := locate disk m.includes name
    set { m with located := m.located.insert name (count, paths) }
    pure paths

/-- Whether a package is loaded for the include directories there are. -/
def isLoaded (name : String) : Managed Bool := do
  let m ← get
  pure ((m.packages.find? name).any (·.isLoaded m.includes.length))

/-- Reads and registers the files of a package, which must have some. -/
def readPackage (disk : Disk) (name : String) (location : Location) : Managed Unit := do
  let count := (← get).includes.length
  (← locatedFiles disk name).forM fun path => discard (parseFound disk path)
  let files := (← get).packageFiles name
  if files.isEmpty then
    modify (·.report ((Problem.packageNotFound name).diagnostic location))
    throw (.notFound name)
  modify fun m => files.foldl (·.registerFile name) m
  modify (·.markLocated name count)

/-- Loads a package that is asked for at some place. A package with a name that is exported twice never
loads. -/
def loadPackage (disk : Disk) (name : String) (location : Location) : Managed Unit := do
  if !(← isLoaded name) then readPackage disk name location
  match ((← get).packages.find? name).map (·.duplicates) with
  | some (count + 1) => throw (.failed name (count + 1))
  | _ => pure ()

def parsePackage (disk : Disk) (name : String) : Managed Unit := loadPackage disk name .none

/-- The files of an input: a file, a directory, or else a package. -/
def parse (disk : Disk) (input : String) : Managed (List SourceFile) := do
  if disk.isFile input then
    let file ← parseFile disk input
    pure [file]
  else if disk.isDirectory input then parseDirectory disk input
  else
    parsePackage disk input
    pure ((← get).packageFiles input)

end Managed
end QiIdl
