/-!
# Pieces of a text

Splitting at a character, and the lines of a text. A line ends at a line feed, with the carriage return before
it if there is one; a text that ends in a line feed has no empty line after it.
-/

namespace QiIdl.Text

/-- The pieces between the occurrences of a character. There is always at least one. -/
def pieces (sep : Char) : List Char → List (List Char)
  | [] => [[]]
  | c :: cs =>
    if c = sep then [] :: pieces sep cs
    else
      match pieces sep cs with
      | [] => [[c]]
      | p :: ps => (c :: p) :: ps

/-- A line without the carriage return it ends in. -/
def dropReturn (line : List Char) : List Char :=
  if line.getLast? = some '\r' then line.dropLast else line

/-- The lines among the pieces between line feeds: each but the last was ended by a line feed, and the last is
a line only if something stands on it. -/
def linesOfPieces : List (List Char) → List (List Char)
  | [] => []
  | [last] => if last.isEmpty then [] else [last]
  | piece :: rest => dropReturn piece :: linesOfPieces rest

def lines (cs : List Char) : List (List Char) := linesOfPieces (pieces '\n' cs)

/-- The dot-separated segments of a name. -/
def segments (name : String) : List String := (pieces '.' name.toList).map String.ofList

/-- A dotted name cut at its last dot, or nothing for a plain name. -/
def splitLast (name : String) : Option (String × String) :=
  match (segments name).reverse with
  | last :: rest@(_ :: _) => some (".".intercalate rest.reverse, last)
  | _ => none

/-- A text with every occurrence of one character replaced by a word. -/
def replaceChar (c : Char) (word : String) (s : String) : String :=
  word.intercalate ((pieces c s.toList).map String.ofList)

end QiIdl.Text
