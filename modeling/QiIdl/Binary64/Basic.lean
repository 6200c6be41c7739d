/-!
# Non-negative binary64 numbers

A float literal has no sign, so its value is a non-negative double. The non-negative doubles in increasing
order are numbered from zero, and a double is known by its number here: 0 is zero, 1 is the smallest positive
double, and infinity comes after all finite ones. The number is also the bit pattern of the double, so two
literals are equal exactly when their bits are.

Every finite double is a multiple of 2⁻¹⁰⁷⁴, and `Binary64.units` says which. Up to the first 2⁵³ the doubles
are all such multiples; after that the distance between neighbours doubles every 2⁵² doubles.
-/

namespace QiIdl

/-- A non-negative double, by its place among them in increasing order. -/
structure Binary64 where
  rank : Nat
deriving DecidableEq, Repr

namespace Binary64

/-- The number of doubles over which the distance between neighbours stays the same. -/
def binadeSize : Nat := Nat.pow 2 52

/-- The double after all finite ones. -/
def infinity : Binary64 := ⟨2047 * binadeSize⟩

def isInfinite (x : Binary64) : Bool := infinity.rank ≤ x.rank

/-- How often the distance between neighbours has doubled below the double of this rank. -/
def binade (rank : Nat) : Nat := rank / binadeSize - 1

/-- The value of the double of this rank, as a multiple of 2⁻¹⁰⁷⁴. -/
def units (rank : Nat) : Nat := (rank - binade rank * binadeSize) * Nat.pow 2 (binade rank)

/-- The power of two that `units` counts in, as a number of halvings. -/
def unitBits : Nat := 1074

end Binary64
end QiIdl
