import QiIdl.Disk.Path

/-!
# Disks

The files that a run of the compiler sees: a tree of directories with files in them, and the directory that
spelled paths start from.

There are two ways to come upon what is in a directory. Who knows its name can ask for it. Who does not has to list
the directory, and a directory need not let itself be listed, or may leave out some of what is in it. So a file can be
there for whoever spells its path, and for nobody who searches.
-/

namespace QiIdl

/-- A file with its text, which is missing if its bytes are no text, or a directory with what is in it and the names
that it shows when it is listed. -/
inductive Entry where
  | file (text : Option String)
  | directory (entries : List (Name × Entry)) (shows : Name → Bool := fun _ => true)

structure Disk where
  root : Entry
  here : Path

/-- What can go wrong with a file. -/
inductive DiskError where
  | notFound
  | notDirectory
  | isDirectory
  | notText
deriving DecidableEq, Repr

def DiskError.message : DiskError → String
  | notFound => "No such file or directory (os error 2)"
  | notDirectory => "Not a directory (os error 20)"
  | isDirectory => "Is a directory (os error 21)"
  | notText => "stream did not contain valid UTF-8"

namespace Entry

def empty : Entry := .directory []

def isDirectory : Entry → Bool
  | file _ => false
  | directory .. => true

/-- What is in an entry. -/
def entries : Entry → List (Name × Entry)
  | file _ => []
  | directory es _ => es

/-- Whether an entry shows a name when it is listed. -/
def shows : Entry → Name → Bool
  | file _ => fun _ => true
  | directory _ shows => shows

/-- What a path leads to. -/
def find? : Entry → Path → Option Entry
  | e, [] => some e
  | e, name :: rest =>
    match e.entries.lookup name with
    | some child => child.find? rest
    | none => none

/-- The entries of a directory with one of them changed, or a new one at the end. -/
def change (name : Name) (f : Option Entry → Entry) : List (Name × Entry) → List (Name × Entry)
  | [] => [(name, f none)]
  | (n, e) :: rest => if n = name then (n, f (some e)) :: rest else (n, e) :: change name f rest

/-- Changes what a path leads to. Directories on the way are made. -/
def alter (f : Option Entry → Entry) : Path → Option Entry → Entry
  | [], e => f e
  | name :: rest, e =>
    let e := e.getD .empty
    .directory (change name (alter f rest) e.entries) e.shows

/-- Removes what a path leads to. -/
def erase : Path → Entry → Entry
  | [], e => e
  | [name], e => .directory (e.entries.filter (·.1 != name)) e.shows
  | name :: rest, e =>
    .directory (e.entries.map fun (n, child) => (n, if n = name then child.erase rest else child)) e.shows
termination_by structural p => p

end Entry

namespace Disk

/-- The place that a piece of a spelled path leads to from a directory. -/
def step (disk : Disk) (place : Path) (piece : Name) : Except DiskError Path :=
  match disk.root.find? place with
  | none => .error .notFound
  | some (.file _) => .error .notDirectory
  | some (.directory entries _) =>
    if piece = "" ∨ piece = "." then .ok place
    else if piece = ".." then .ok place.dropLast
    else if (entries.lookup piece).isSome then .ok (place ++ [piece])
    else .error .notFound

/-- The place that the pieces of a spelled path lead to from a directory. -/
def follow (disk : Disk) (place pieces : Path) : Except DiskError Path :=
  pieces.foldlM disk.step place

/-- The directory that a spelled path starts from. -/
def start (disk : Disk) (spelled : String) : Path := if isAbsolute spelled then [] else disk.here

/-- The place that a spelled path leads to. -/
def resolve (disk : Disk) (spelled : String) : Except DiskError Path :=
  if spelled.isEmpty then .error .notFound else disk.follow (disk.start spelled) (slashPieces spelled)

/-- What a spelled path leads to. -/
def entry? (disk : Disk) (spelled : String) : Option Entry :=
  match disk.resolve spelled with
  | .ok place => disk.root.find? place
  | .error _ => none

def isFile (disk : Disk) (spelled : String) : Bool := (disk.entry? spelled).any (!·.isDirectory)

def isDirectory (disk : Disk) (spelled : String) : Bool := (disk.entry? spelled).any (·.isDirectory)

def read (disk : Disk) (place : Path) : Except DiskError String :=
  match disk.root.find? place with
  | none => .error .notFound
  | some (.directory ..) => .error .isDirectory
  | some (.file none) => .error .notText
  | some (.file (some text)) => .ok text

/-- The disk with another entry at a path. Directories on the way are made. -/
def put (disk : Disk) (place : Path) (e : Entry) : Disk :=
  { disk with root := disk.root |> some |> Entry.alter (fun _ => e) place }

/-- The disk with a directory at a path. What is in it stays. -/
def makeDirectory (disk : Disk) (place : Path) : Disk :=
  { disk with root := disk.root |> some |> Entry.alter (·.getD .empty) place }

def erase (disk : Disk) (place : Path) : Disk := { disk with root := disk.root.erase place }

/-- Whether a path is spelled like that of a directory: it ends in a slash or in dots. -/
def isSpelledAsDirectory (spelled : String) : Bool :=
  ["", ".", ".."].contains ((slashPieces spelled).getLastD "").word

/-- Where a file of a spelled path would be written. Its directory must be there, and it must neither be a
directory itself nor be spelled like one. -/
def target (disk : Disk) (spelled : String) : Except DiskError Path :=
  match ((slashPieces spelled).filter fun (piece : Name) => piece != "").reverse with
  | [] => .error (if spelled.isEmpty then .notFound else .isDirectory)
  | name :: way => do
    let directory ← disk.follow (disk.start spelled) way.reverse
    match disk.root.find? directory with
    | some (.directory entries _) =>
      if isSpelledAsDirectory spelled || (entries.lookup name).any (·.isDirectory) then .error .isDirectory
      else .ok (directory ++ [name])
    | _ => .error .notDirectory

/-- The disk after a file of a spelled path was written. -/
def write (disk : Disk) (spelled text : String) : Except DiskError Disk := do
  let place ← disk.target spelled
  pure (disk.put place (.file (some text)))

end Disk
end QiIdl
