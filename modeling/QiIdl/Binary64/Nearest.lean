import QiIdl.Binary64.Basic

/-!
# The double nearest to a decimal

Reading a decimal gives the double nearest to it, the even one of two that are equally near, and infinity for
a value that is at least as near to the double that would follow the largest one. All of it is exact
arithmetic on natural numbers.
-/

namespace QiIdl.Binary64

/-- A quotient rounded to the nearest whole number, to the even one of two that are equally near. -/
def roundEven (num den : Nat) : Nat :=
  let q := num / den
  let twice := 2 * (num % den)
  if twice < den then q
  else if den < twice then q + 1
  else q + q % 2

/-- The double nearest to a ratio. -/
def ofRatio (num den : Nat) : Binary64 :=
  let scaled := num * Nat.pow 2 unitBits
  let whole := scaled / den
  let b := if whole < 2 * binadeSize then 0 else Nat.log2 whole - 52
  ⟨min (b * binadeSize + roundEven scaled (den * Nat.pow 2 b)) infinity.rank⟩

/-- The number of decimal digits of a number. -/
def digitCount (n : Nat) : Nat := (Nat.toDigits 10 n).length

/-- The double nearest to `coefficient · 10 ^ exponent`. Decimals beyond every finite double, and those below
half of the smallest positive one, are told by their size alone, so that no huge power is computed. -/
def ofDecimal (coefficient : Nat) (exponent : Int) : Binary64 :=
  let magnitude := digitCount coefficient + exponent
  if coefficient = 0 ∨ magnitude ≤ -324 then ⟨0⟩
  else if 310 ≤ magnitude then infinity
  else if 0 ≤ exponent then ofRatio (coefficient * Nat.pow 10 exponent.toNat) 1
  else ofRatio coefficient (Nat.pow 10 (-exponent).toNat)

end QiIdl.Binary64
