import QiIdl.CommandLine

/-!
# The program

Copies what is needed of the machine's disk, runs the command on the copy, and prints and writes what it leaves.
Copied are the inputs and the include directories with everything below them, and then the include directories
that loading adds, until there are no more.
-/

namespace QiIdl

/-- The place of a path of the machine, as a path. -/
def placeOf (path : String) : IO Path := do
  let place ← IO.FS.realPath path
  pure ((slashPieces place.toString).filter fun (piece : Name) => piece != "")

/-- A file or a directory of the machine with everything below it. The texts of files that are no source files
are left out. -/
partial def copyEntry (path : String) : IO Entry := do
  let place := (← IO.currentDir) / path
  if ← place.isDir then
    let found ← try place.readDir catch _ => pure #[]
    let entries ← found.toList.mapM fun e => do
      let child ← copyEntry e.path.toString
      pure (Name.text e.fileName, child)
    pure (.directory entries)
  else if isSource (.text (place.fileName.getD "")) then
    try
      let bytes ← IO.FS.readBinFile place
      pure (.file (String.fromUTF8? bytes))
    catch _ => pure (.file none)
  else pure (.file none)

/-- Adds the directories that a spelled path goes through. -/
def copyWay (spelled : String) (disk : Disk) : IO Disk := do
  let pieces := slashPieces spelled
  let mut disk := disk
  for count in List.range (pieces.length + 1) do
    let way := "/".intercalate ((pieces.take count).map Name.shown)
    let spot := (← IO.currentDir) / way
    if ← spot.isDir then
      disk := disk.makeDirectory (← placeOf spot.toString)
  pure disk

/-- Adds a file or a directory, with everything below it, and the way to it. -/
def copyPath (spelled : String) (disk : Disk) : IO Disk := do
  let disk ← copyWay spelled disk
  let spot := (← IO.currentDir) / spelled
  if ← spot.isDir then
    pure (disk.put (← placeOf spot.toString) (← copyEntry spelled))
  else if ← spot.pathExists then
    let bytes ← IO.FS.readBinFile spot
    pure (disk.put (← placeOf spot.toString) (.file (String.fromUTF8? bytes)))
  else pure disk

/-- Adds the include directories that loading asks for, until there are no more. -/
partial def copyIncludes (o : Options) (copied : List Path) (disk : Disk) : IO Disk := do
  let missing := (includesAfter disk (o.backend.getD .qilang) o.includes o.inputs).filter (!copied.contains ·)
  if missing.isEmpty then pure disk
  else
    let mut disk := disk
    for path in missing do
      disk ← copyPath path.text disk
    copyIncludes o (copied ++ missing) disk

/-- The part of the machine's disk that the options ask for. -/
def copyDisk (o : Options) : IO Disk := do
  let here ← placeOf (← IO.currentDir).toString
  let mut disk : Disk := (Disk.mk .empty here).makeDirectory here
  for spelled in o.includes ++ o.inputs do
    disk ← copyPath spelled disk
  for spelled in o.output.toList do
    disk ← copyWay spelled disk
  copyIncludes o [] disk

/-- Writes the output file, if there is one. -/
def writeOutput (o : Options) (disk : Disk) : IO Unit := do
  match o.output with
  | none => pure ()
  | some path =>
    match disk.resolve path >>= disk.read with
    | .ok text => IO.FS.writeFile path text
    | .error _ => pure ()

/-- Prints what a run leaves. -/
def finish (r : CommandResult) : IO UInt32 := do
  IO.eprint r.stderr
  IO.print r.stdout
  pure r.status.toUInt32

/-- Runs the command on the machine's disk. -/
def runOnMachine (arguments : List String) : IO UInt32 := do
  match readArguments .empty arguments with
  | .ok (.compile o) => do
    let r := runOptions (← copyDisk o) o
    if r.status = 0 then writeOutput o r.disk
    finish r
  | _ => finish (runCommand ⟨.empty, []⟩ arguments)

end QiIdl

def main (arguments : List String) : IO UInt32 := QiIdl.runOnMachine arguments
