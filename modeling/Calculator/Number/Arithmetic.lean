/-
  Calculator/Number/Arithmetic.lean
  =================================
  **The arithmetic operations** `+ - * /`, the remainder, and rounding to an
  integer.  No operation fails: a quotient by zero, a remainder by zero and the
  differences of infinities have the infinities and NaNs of the format.

  On finite numbers each operation is exact arithmetic on units followed by one
  rounding.  The remainder and the integer roundings need no rounding at all,
  because their results are numbers of the format.
-/
import Calculator.Number.Rounding

namespace Calculator.Binary64

/-! ### Sum, difference, product and quotient -/

/-- The sum.  A sum of zero is positive unless both operands are negative. -/
def add : Binary64 → Binary64 → Binary64
  | finite s m, finite t n =>
    ofUnits (s && t) ((finite s m).units + (finite t n).units)
  | finite _ _, inf t => inf t
  | inf s, finite _ _ => inf s
  | inf s, inf t => if s = t then inf s else nan
  | _, _ => nan

/-- The difference: the sum with the opposite number. -/
def sub (x y : Binary64) : Binary64 := add x y.negate

/-- The product.  A product of two numbers of units is divided by `2 ^ 1074`. -/
def mul : Binary64 → Binary64 → Binary64
  | finite s m, finite t n => ofRatio (s ^^ t) (m.units * n.units) unitsPerOne
  | finite s m, inf t => if m.units = 0 then nan else inf (s ^^ t)
  | inf s, finite t n => if n.units = 0 then nan else inf (s ^^ t)
  | inf s, inf t => inf (s ^^ t)
  | _, _ => nan

/-- The quotient (`div`).  A non-zero number divided by zero is an infinity with the sign of the
quotient, and zero divided by zero is a NaN. -/
def div : Binary64 → Binary64 → Binary64
  | finite s m, finite t n =>
    if n.units = 0 then
      if m.units = 0 then nan else inf (s ^^ t)
    else ofRatio (s ^^ t) (m.units * unitsPerOne) n.units
  | finite s _, inf t => zero (s ^^ t)
  | inf s, finite t _ => inf (s ^^ t)
  | _, _ => nan

/-- The reciprocal (`recip`). -/
def recip (x : Binary64) : Binary64 := div (one false) x

/-- The remainder of the quotient truncated toward zero, where it is defined: it has the sign
of the dividend and is exact.  An infinity has no remainder, and there is none by zero. -/
def rem? : Binary64 → Binary64 → Option Binary64
  | nan, _ => some nan
  | _, nan => some nan
  | inf _, _ => none
  | finite s m, inf _ => some (finite s m)
  | finite s m, finite _ n =>
    if n.units = 0 then none else some (ofRatio s (m.units % n.units) 1)

/-- The remainder, and a NaN where there is none (`fmod`). -/
def rem (x y : Binary64) : Binary64 := (rem? x y).getD nan

/-! ### Rounding to an integer -/

/-- The sign that stays and the integer that a rounding of the magnitude gives (`_integral`). -/
def roundTo (wholeOf : Bool → Nat → Nat) : Binary64 → Binary64
  | finite s m => ofWhole s (wholeOf s m.units)
  | x => x

/-- The quotient by the units in one, toward zero. -/
def truncated (units : Nat) : Nat := units / unitsPerOne

/-- The quotient by the units in one, away from zero. -/
def augmented (units : Nat) : Nat := (units + (unitsPerOne - 1)) / unitsPerOne

/-- The greatest integer not above the number; a zero keeps the number's sign (`floor`). -/
def floor : Binary64 → Binary64 :=
  roundTo fun s u => if s then augmented u else truncated u

/-- The least integer not below the number; a zero keeps the number's sign (`ceil`). -/
def ceil : Binary64 → Binary64 :=
  roundTo fun s u => if s then truncated u else augmented u

/-- A number that is one half or more. -/
def isHalfOrMore : Binary64 → Bool
  | nan => false
  | inf s => !s
  | finite s m => !s && unitsPerOne ≤ 2 * m.units

/-- What a magnitude has above its integral part, as a difference of numbers. -/
def excess (m : Magnitude) : Binary64 := sub (finite false m) (ofWhole false m.whole)

/-- The nearest integer, the one farther from zero of two equally near (`round_half_away`): the
integral part of the magnitude, or one more if the magnitude has one half or more above it. -/
def round : Binary64 → Binary64
  | finite s m => ofWhole s (if (excess m).isHalfOrMore then m.whole + 1 else m.whole)
  | x => x

end Calculator.Binary64
