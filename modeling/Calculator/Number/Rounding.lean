/-
  Calculator/Number/Rounding.lean
  ===============================
  **Rounding to nearest, ties to even.**  Every number that the calculator
  computes or reads is the rounding of an exact quotient, and this module holds
  the one function that rounds.  It works on a quotient of natural numbers that
  counts units, so that subnormal results need no case of their own: the
  exponent is the excess of the quotient's length over 53 bits, and it is zero
  for everything shorter.
-/
import Calculator.Number.Binary64

namespace Calculator

/-- The integer nearest to `num / den`, the even one of two equally near. -/
def divHalfEven (num den : Nat) : Nat :=
  let q := num / den
  let r := num % den
  if 2 * r > den ∨ (2 * r = den ∧ q % 2 = 1) then q + 1 else q

/-- The magnitude nearest to `num / den` units, the one with an even significand of two
equally near; `none` when the value is too large for the format.  A significand that is
rounded up to `2 ^ 53` is the least one of the next exponent. -/
def Magnitude.nearest? (num den : Nat) : Option Magnitude :=
  let exp := (num / den).log2 - 52
  let mant := divHalfEven num (den * 2 ^ exp)
  if mant = 2 ^ 53 then ofPair? (2 ^ 52) (exp + 1) else ofPair? mant exp

namespace Binary64

/-- The number with a given sign and magnitude, the infinity if the magnitude overflowed. -/
def ofMagnitude? (neg : Bool) : Option Magnitude → Binary64
  | some m => finite neg m
  | none => inf neg

/-- The number of a given sign nearest to `num / den` units. -/
def ofRatio (neg : Bool) (num den : Nat) : Binary64 :=
  ofMagnitude? neg (Magnitude.nearest? num den)

/-- The number of a given sign nearest to a natural number. -/
def ofWhole (neg : Bool) (n : Nat) : Binary64 := ofRatio neg (n * unitsPerOne) 1

/-- The number nearest to a signed number of units; `zeroNeg` is the sign of a zero. -/
def ofUnits (zeroNeg : Bool) (n : Int) : Binary64 :=
  ofRatio (if n = 0 then zeroNeg else decide (n < 0)) n.natAbs 1

end Binary64

end Calculator
