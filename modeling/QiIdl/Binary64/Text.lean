import QiIdl.Binary64.Shortest

/-!
# The text of a double

A double is written with its shortest digits. Values from 10⁻⁴ up to but not including 10¹⁶ are written
positionally and always show a decimal point; others are written with one digit before the point and an
exponent, without a point when there is only one digit.
-/

namespace QiIdl.Binary64

/-- The exponents of the leading digit for which a decimal is written positionally. -/
structure Layout where
  least : Int
  beyond : Int

/-- How float literals are written. -/
def literalLayout : Layout := ⟨-4, 16⟩

/-- A decimal written out in full. -/
def Decimal.positional (d : Decimal) : List Char :=
  let digits := Nat.toDigits 10 d.coefficient
  let zeros (n : Int) := List.replicate n.toNat '0'
  let places := digits.length + d.exponent
  if 0 ≤ d.exponent then digits ++ zeros d.exponent ++ ['.', '0']
  else if 0 < places then digits.take places.toNat ++ '.' :: digits.drop places.toNat
  else '0' :: '.' :: (zeros (-places) ++ digits)

/-- A whole number with its sign, if it is negative. -/
def signed (n : Int) : List Char :=
  if n < 0 then '-' :: Nat.toDigits 10 n.natAbs else Nat.toDigits 10 n.natAbs

/-- A decimal written with an exponent. -/
def Decimal.scientific (d : Decimal) : List Char :=
  let digits := Nat.toDigits 10 d.coefficient
  let mantissa := if digits.length ≤ 1 then digits else digits.take 1 ++ '.' :: digits.drop 1
  mantissa ++ 'e' :: signed (digits.length - 1 + d.exponent)

/-- A decimal in the notation that suits its size. -/
def Decimal.text (layout : Layout) (d : Decimal) : List Char :=
  let leading := digitCount d.coefficient - 1 + d.exponent
  if layout.least ≤ leading ∧ leading < layout.beyond then d.positional else d.scientific

def text (x : Binary64) : String :=
  if x.isInfinite then "inf"
  else if x.rank = 0 then "0.0"
  else String.ofList ((shortest x).text literalLayout)

end QiIdl.Binary64
