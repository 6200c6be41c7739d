import QiIdl.Text.Runs

/-!
# Blank characters

The characters with the Unicode property `White_Space`. Documentation text is trimmed by it and its words are
told apart by it. The lexer does not use it: between tokens only the space, the tab and the carriage return
are skipped.
-/

namespace QiIdl.Text

/-- The code points with the property `White_Space`. -/
def blankRuns : Runs := [
  (9, 5), (18, 1), (100, 1), (26, 1), (5599, 1), (2431, 11), (29, 2), (5, 1), (47, 1), (4000, 1)]

def isBlank (c : Char) : Bool := blankRuns.contains c.toNat

def trimLeft (cs : List Char) : List Char := cs.dropWhile isBlank

def trimRight (cs : List Char) : List Char := (cs.reverse.dropWhile isBlank).reverse

/-- A text without the blanks at its two ends. -/
def trim (cs : List Char) : List Char := trimRight (trimLeft cs)

end QiIdl.Text
