/-!
# Sets of code points

A character class is written down as the runs of code points it covers. A run is told by how many code points are passed
over before it and how many it covers, so there is no way to write down runs that overlap or are out of order. A search
walks along and can stop at the first run that starts beyond the character.
-/

namespace QiIdl.Text

/-- Runs of code points, from zero on: the length of the gap before each, and its own. -/
abbrev Runs := List (Nat × Nat)

/-- Whether some run covers a code point. The search ends at the first run above it. -/
def Runs.contains : Runs → Nat → Bool
  | [], _ => false
  | (gap, size) :: rest, n => if n < gap then false else n - gap < size || Runs.contains rest (n - gap - size)

end QiIdl.Text
