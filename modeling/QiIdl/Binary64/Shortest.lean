import QiIdl.Binary64.Nearest

/-!
# The shortest decimal of a double

A double is written with the fewest digits that still read back as it. The decimals that read back as a double
fill an interval around it, from halfway to the double below to halfway to the double above, ends included when
the double is even. `shortest` looks through the grids of multiples of 10ⁱ, from coarse to fine, for the first
with a point in the interval; if a grid has one, one of the two grid points next to the value is in it. Of two,
the nearer is taken, and the upper one when both are equally near.
-/

namespace QiIdl.Binary64

/-- A decimal `coefficient · 10 ^ exponent`. -/
structure Decimal where
  coefficient : Nat
  exponent : Int
deriving DecidableEq, Repr

/-- The decimals that read back as a double, all counted in units of 2⁻¹⁰⁷⁵. -/
structure Interval where
  low : Nat
  value : Nat
  high : Nat
  closed : Bool

/-- The interval of a finite double other than zero. -/
def interval (x : Binary64) : Interval where
  low := units (x.rank - 1) + units x.rank
  value := 2 * units x.rank
  high := units x.rank + units (x.rank + 1)
  closed := x.rank % 2 == 0

/-- Whether a point lies in the interval, both scaled by the same factor. -/
def Interval.holds (i : Interval) (factor point : Nat) : Bool :=
  let low := i.low * factor
  let high := i.high * factor
  (low < point || (i.closed && low == point)) && (point < high || (i.closed && point == high))

/-- The point of the grid of multiples of 10ⁱ that is nearest to the value, among those in the interval. -/
def Interval.onGrid (i : Interval) (exponent : Int) : Option Decimal :=
  let factor := Nat.pow 10 (-exponent).toNat
  let step := Nat.pow 2 (unitBits + 1) * Nat.pow 10 exponent.toNat
  let value := i.value * factor
  let below := value / step
  let lower := i.holds factor (below * step)
  let upper := i.holds factor ((below + 1) * step)
  if upper && (!lower || step ≤ 2 * (value - below * step)) then some ⟨below + 1, exponent⟩
  else if lower then some ⟨below, exponent⟩
  else none

/-- The first grid with a point in the interval, among `count + 1` grids from the given one down. -/
def Interval.search (i : Interval) : (count : Nat) → (exponent : Int) → Decimal
  | 0, exponent => (i.onGrid exponent).getD ⟨0, exponent⟩
  | count + 1, exponent => (i.onGrid exponent).getD (i.search count (exponent - 1))

/-- The exponent of the leading digit of a double's value. Every positive double is above 10⁻³⁴⁰. -/
def leadingExponent (x : Binary64) : Int :=
  (digitCount (units x.rank * Nat.pow 10 340 / Nat.pow 2 unitBits) : Int) - 341

/-- A decimal without trailing zeros in its coefficient. The count bounds the zeros that are dropped. -/
def Decimal.normal : (count : Nat) → Decimal → Decimal
  | 0, d => d
  | count + 1, d =>
    if d.coefficient % 10 = 0 ∧ d.coefficient ≠ 0 then
      Decimal.normal count ⟨d.coefficient / 10, d.exponent + 1⟩
    else d

/-- The shortest decimal that reads back as a finite double other than zero. Seventeen digits always do. -/
def shortest (x : Binary64) : Decimal :=
  ((interval x).search 17 (leadingExponent x)).normal 20

end QiIdl.Binary64
