import QiIdl.Source.Span

/-!
# Lines and columns

People are shown places as a line and a column, both counted from one; columns count bytes. A line index knows
where the lines of one text start. An offset beyond the end of the text counts on along the last line.
-/

namespace QiIdl

/-- A line and a column, counted from one. -/
structure Position where
  line : Nat
  column : Nat
deriving DecidableEq, Repr

/-- Lines and columns are counted in words of 32 bits, and start again from zero beyond them. -/
def Position.ofCounts (line column : Nat) : Position := ⟨line % Nat.pow 2 32, column % Nat.pow 2 32⟩

/-- The offsets at which the lines of a text start, in increasing order. -/
structure LineIndex where
  starts : List Nat
deriving DecidableEq, Repr

namespace LineIndex

/-- The offsets just after the line feeds of a text that starts at `offset`. -/
def startsAfterFeeds (offset : Nat) : List Char → List Nat
  | [] => []
  | c :: cs =>
    let next := offset + c.utf8Size
    if c = '\n' then next :: startsAfterFeeds next cs else startsAfterFeeds next cs

/-- The index of a text. The first line starts at offset zero. -/
def ofText (cs : List Char) : LineIndex := ⟨0 :: startsAfterFeeds 0 cs⟩

/-- The line that holds an offset, and how far into it the offset is. -/
def position (index : LineIndex) (offset : Nat) : Position :=
  let before := index.starts.takeWhile (· ≤ offset)
  .ofCounts before.length (offset - before.getLastD 0 + 1)

end LineIndex

/-- Where something stands: a file and the two ends of a stretch of it. Something that no file holds has no
file name. -/
structure Location where
  file : Option String
  start : Position
  stop : Position
deriving DecidableEq, Repr

namespace Location

/-- The location of what no file holds. -/
def none : Location := ⟨.none, ⟨0, 0⟩, ⟨0, 0⟩⟩

def isNone (l : Location) : Bool := l.file.isNone

/-- A location as messages show it, by its start. -/
def text (l : Location) : String :=
  match l.file with
  | some file => s!"{file}:{l.start.line}:{l.start.column}"
  | .none => "<no location>"

end Location
end QiIdl
