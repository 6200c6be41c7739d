import QiIdl.Text.Mended
import QiIdl.Text.Pieces

/-!
# Paths

A path is the list of names from the root of the disk down. A disk keeps names as bytes. They are the bytes of a text
as a rule, but a disk does not see to that, so a name may also be bytes that are no text.

A spelled path is text, with slashes between its pieces; what it leads to depends on the disk, but how it compares with
another does not.
-/

namespace QiIdl

open Std

/-- The name of a file or a directory: a text, or bytes that are none. -/
inductive Name where
  | text (text : String)
  | raw (bytes : ByteArray) (noText : ¬bytes.IsValidUTF8)

instance : Coe String Name := ⟨.text⟩

namespace Name

def bytes : Name → List UInt8
  | text s => s.toByteArray.data.toList
  | raw bytes _ => bytes.data.toList

/-- A name is told by its bytes. -/
theorem bytes_inj {name name' : Name} : name.bytes = name'.bytes ↔ name = name' := by
  have harray {a b : ByteArray} : a.data.toList = b.data.toList ↔ a = b := by
    rw [Array.toList_inj, ByteArray.ext_iff]
  constructor
  · intro h
    cases name with
    | text s =>
      cases name' with
      | text s' => rw [String.toByteArray_inj.mp (harray.mp h)]
      | raw b hb => exact absurd s.isValidUTF8 (harray.mp h ▸ hb)
    | raw b hb =>
      cases name' with
      | text s' => exact absurd s'.isValidUTF8 (harray.mp h ▸ hb)
      | raw b' hb' =>
        obtain rfl := harray.mp h
        rfl
  · rintro rfl
    rfl

instance : DecidableEq Name := fun _ _ => decidable_of_iff _ bytes_inj

/-- Names are ordered by their bytes. -/
instance : Ord Name := ⟨fun name name' => compare name.bytes name'.bytes⟩

instance : LT Name := ⟨fun name name' => name.bytes < name'.bytes⟩

instance : TransOrd Name := inferInstanceAs (TransCmp (compareOn bytes))

instance : LawfulEqOrd Name where
  compare_self {name} := (compare_eq_iff_eq (a := name.bytes)).mpr rfl
  eq_of_compare h := bytes_inj.mp (compare_eq_iff_eq.mp h)

/-- A name as it is shown. -/
def shown : Name → String
  | text s => s
  | raw bytes _ => Text.mended bytes.data.toList

/-- A name as a word. One that is no text is no word. -/
def word : Name → String
  | text s => s
  | raw .. => ""

/-- A file name without its extension, and the extension. A dot at the start does not begin one. -/
def splitText (name : String) : String × Option String :=
  match Text.splitLast name with
  | some (stem, extension) => if stem.isEmpty then (name, none) else (stem, some extension)
  | none => (name, none)

/-- The same for bytes. -/
def splitBytes (bytes : List UInt8) : List UInt8 × Option (List UInt8) :=
  let dot : UInt8 := 0x2E
  match bytes.reverse.dropWhile (· != dot) with
  | _ :: b :: rest => ((b :: rest).reverse, some (bytes.reverse.takeWhile (· != dot)).reverse)
  | _ => (bytes, none)

/-- A file name without its extension, as a word. -/
def stem : Name → String
  | text s => (splitText s).1
  | raw bytes _ => (String.fromUTF8? ⟨(splitBytes bytes.data.toList).1.toArray⟩).getD ""

end Name

/-- The names from the root down. -/
abbrev Path := List Name

namespace Path

def text (p : Path) : String := "/" ++ "/".intercalate (p.map Name.shown)

/-- The file name at the end of a path without its extension. -/
def stem (p : Path) : String := (p.getLastD "").stem

/-- The directories that the name of a package spells. -/
def ofPackage (package : String) : Path := (Text.segments package).map Name.text

end Path

def slashPieces (s : String) : Path := (Text.pieces '/' s.toList).map fun piece => .text (String.ofList piece)

/-- Whether a spelled path starts at the root. -/
def isAbsolute (s : String) : Bool := s.toList.head? == some '/'

/-- What counts of a spelled path when it is compared with another: whether it starts at the root, and its
pieces. Empty pieces do not count, nor do single dots but one at the start. -/
def pathComponents (s : String) : Bool × Path :=
  let pieces := slashPieces s
  let here : Path := if pieces.head? == some "." then ["."] else []
  (isAbsolute s, here ++ pieces.filter fun (p : Name) => p != "" && p != ".")

end QiIdl
