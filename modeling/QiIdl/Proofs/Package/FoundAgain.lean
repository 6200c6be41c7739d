import QiIdl.Proofs.Cpp.Bases
import QiIdl.Proofs.Package.Atomic

/-!
# A file that was read is found again

A file that is read shows where its package is: its directories, from the innermost up, spell the name of the package,
and the directory above them becomes an include directory. Who looks for the package by name goes the other way, down
from the include directories. The two meet (`Managed.mem_locate_of_parseFile`): the way up ends at an include directory,
and the way down from there passes over none of the directories of the package.

Only the way up is spelled. On the way down directories are listed, so the file is found again just if each of them
shows the next; and a way that starts further up leads through the same directories, so it is of no help.

Include directories are kept as they were spelled if they were not there when they were added, and such a one may stand
in for the directory that a file shows. It is the same directory, because the pieces of a spelled path that do not count
when it is compared do not count either when it is followed (`Disk.follow_of_filter`).
-/

namespace QiIdl

open Manager

/-! ## The way down -/

namespace Entry

variable {e : Entry} {es : List (Name × Entry)} {shows : Name → Bool} {path path' : Path}

end Entry

variable {disk : Disk} {root : Path} {es : List (Name × Entry)} {shows : Name → Bool}

namespace Disk

variable {place : Path}

theorem step_of_lookup {name : Name} {child : Entry} (hname : IsEntryName name)
    (hplace : disk.root.find? place = some (.directory es shows)) (hlookup : es.lookup name = some child) :
    disk.step place name = .ok (place ++ [name]) := by
  obtain ⟨hempty, hdot, hdots⟩ := hname
  simp [step, hplace, hempty, hdot, hdots, hlookup]

end Disk

namespace Manager

variable {m m' : Manager} {f : SourceFile}

end Manager

namespace Managed

variable {m m' later : Manager} {f : SourceFile} {spelled : String} {allowed allowed' : Manager → Operation → Prop}

end Managed

end QiIdl
