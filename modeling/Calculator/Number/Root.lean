/-
  Calculator/Number/Root.lean
  ===========================
  **Integer roots, square root and cube root** (`sqrt`, `cbrt`).  The integer root is found one
  binary digit at a time: the root of `n` is twice the root of `n / 2 ^ d`, or
  one more.  Square and cube roots of numbers are the rounding of an integer
  root that is exact or marked as inexact by a last digit below the rounding
  position, so that they are correctly rounded.
-/
import Calculator.Number.Rounding

namespace Calculator

/-- The greatest `r` of at most `bits` bits with `r ^ degree ≤ n`. -/
def floorRoot (degree : Nat) : (bits : Nat) → Nat → Nat
  | 0, _ => 0
  | bits + 1, n =>
    let r := 2 * floorRoot degree bits (n / 2 ^ degree)
    if (r + 1) ^ degree ≤ n then r + 1 else r

/-- The integer square root. -/
def floorSqrt (n : Nat) : Nat := floorRoot 2 (n.log2 / 2 + 1) n

/-- The integer cube root. -/
def floorCbrt (n : Nat) : Nat := floorRoot 3 (n.log2 / 3 + 1) n

namespace Binary64

/-- The square root: `√(u * 2 ^ -1074) = √(u * 2 ^ 1074)` units.  The rounded quotient is
the doubled integer root, plus one when the root is not exact. -/
def sqrt : Binary64 → Binary64
  | finite neg m =>
    if m.units = 0 then finite neg m
    else if neg then nan
    else
      let n := m.units * unitsPerOne
      let r := floorSqrt n
      ofRatio false (if r * r = n then 2 * r else 2 * r + 1) 2
  | inf false => inf false
  | _ => nan

/-- The cube root: `∛(u * 2 ^ -1074) = ∛u * 2 ^ 716` units, because `1074 = 3 * 358`.
The radicand is scaled by `2 ^ 600` so that the integer root has two hundred more bits
than its integral part. -/
def cbrt : Binary64 → Binary64
  | finite neg m =>
    let n := m.units * 2 ^ 600
    let r := floorCbrt n
    ofRatio neg ((if r * r * r = n then 2 * r else 2 * r + 1) * 2 ^ 716) (2 ^ 201)
  | inf neg => inf neg
  | nan => nan

end Binary64

end Calculator
