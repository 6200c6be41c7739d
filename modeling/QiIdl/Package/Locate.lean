import QiIdl.Disk.Basic
import QiIdl.Table

/-!
# Finding packages

The files of a package `a.b` are the source files in directories `a/b` anywhere below the include directories.
Directories whose name starts with a dot, and those named `target`, are passed over; so is, by nobody's choice, what a
directory does not show. A name that is no text starts with nothing and is searched.
-/

namespace QiIdl

/-- Whether a directory of this name is passed over. -/
def isHidden : Name → Bool
  | .text s => s.toList.head? == some '.' || s == "target"
  | .raw .. => false

/-- Whether a file of this name is a source file: its extension is `qi`. -/
def isSource : Name → Bool
  | .text s => (Name.splitText s).2 == some "qi"
  | .raw bytes _ =>
    let ending := (Name.text ".qi").bytes
    ending.isSuffixOf bytes.data.toList && bytes.data.toList != ending

namespace Entry

mutual

/-- The source files in an entry and below it. -/
def sources (place : Path) : Entry → List Path
  | .file _ => []
  | .directory es shows => sourcesAmong place shows es

/-- The source files among some entries and below them, as far as the entries are shown. -/
def sourcesAmong (place : Path) (shows : Name → Bool) : List (Name × Entry) → List Path
  | [] => []
  | (name, e) :: rest =>
    (if !shows name then []
    else if e.isDirectory then
      if isHidden name then [] else e.sources (place ++ [name])
    else if isSource name then [place ++ [name]] else [])
      ++ sourcesAmong place shows rest

end

mutual

/-- An entry and the directories below it, each with its path. -/
def directories (place : Path) : Entry → List (Path × Entry)
  | .file text => [(place, .file text)]
  | .directory es shows => (place, .directory es shows) :: directoriesAmong place shows es

def directoriesAmong (place : Path) (shows : Name → Bool) : List (Name × Entry) → List (Path × Entry)
  | [] => []
  | (name, e) :: rest =>
    (if shows name && e.isDirectory && !isHidden name then e.directories (place ++ [name]) else [])
      ++ directoriesAmong place shows rest

end

end Entry

/-- Some paths in increasing order, each once. -/
def sortPaths (paths : List Path) : List Path := (Table.ofEntries (paths.map fun p => (p, ()))).keys

/-- The source files below a spelled path. -/
def Disk.sources (disk : Disk) (spelled : String) : List Path :=
  match disk.resolve spelled with
  | .ok place => sortPaths (((disk.root.find? place).map (·.sources place)).getD [])
  | .error _ => []

/-! ## Include directories -/

/-- A directory in which packages are searched: its path if it was there when it was added, else its spelling. -/
inductive Include where
  | known (path : Path)
  | unknown (spelled : String)
deriving DecidableEq

namespace Include

/-- The include directory of a spelled path. -/
def ofText (disk : Disk) (spelled : String) : Include :=
  match disk.resolve spelled with
  | .ok path => known path
  | .error _ => unknown spelled

def text : Include → String
  | known path => path.text
  | unknown spelled => spelled

/-- What counts when include directories are compared. -/
def components : Include → Bool × Path
  | known path => (true, path)
  | unknown spelled => pathComponents spelled

def place? (disk : Disk) : Include → Option Path
  | known path => some path
  | unknown spelled => (disk.resolve spelled).toOption

end Include

/-- The names that the directories of a package end with. A name with a piece that starts at the root of the
disk is the name of no package. -/
def packageDirectories? (name : String) : Option Path :=
  let segments := Text.segments name
  if segments.any isAbsolute then none
  else some ((segments.flatMap slashPieces).filter fun (piece : Name) => piece != "")

/-- The source files of a package below one directory. -/
def Entry.packageSources (directories place : Path) (e : Entry) : List Path :=
  (e.directories []).flatMap fun (relative, found) =>
    if directories.isSuffixOf relative then found.sources (place ++ relative) else []

/-- The source files of a package below an include directory. -/
def Include.packageSources (disk : Disk) (directories : Path) (i : Include) : List Path :=
  match i.place? disk with
  | some place => ((disk.root.find? place).map (·.packageSources directories place)).getD []
  | none => []

/-- The source files of a package below some include directories, in increasing order. -/
def locate (disk : Disk) (includes : List Include) (name : String) : List Path :=
  match packageDirectories? name with
  | some directories => sortPaths (includes.flatMap (·.packageSources disk directories))
  | none => []

end QiIdl
