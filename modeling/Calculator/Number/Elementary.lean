/-
  Calculator/Number/Elementary.lean
  =================================
  **Elementary functions of numbers**: exponential and logarithms, circular and
  hyperbolic functions and their inverses (`exp` to `atanh`).  Each is computed in
  fixed point and rounded once.  No function fails: outside the real domain the result is a
  NaN, at a pole it is an infinity, and a result too large for the format is an
  infinity of its sign.  An odd function keeps the sign of a zero.
-/
import Calculator.Number.FixedPoint
import Calculator.Number.Arithmetic

namespace Calculator

/-- The magnitude in fixed point, which is exact. -/
def Magnitude.fixed (m : Magnitude) : Nat := m.units <<< (FixedPoint.fractionBits - 1074)

/-- From `2048` on the exponential, in either direction, leaves the range of the format. -/
def Magnitude.isExtreme (m : Magnitude) : Bool := 2048 * unitsPerOne ≤ m.units

namespace Binary64

open FixedPoint (fractionBits)

/-! ### From fixed point to numbers -/

/-- The number nearest to a quotient of two values in fixed point. -/
def ofQuotient (neg : Bool) (x y : Nat) : Binary64 := ofRatio neg (x * unitsPerOne) y

/-- The number nearest to a signed value in fixed point. -/
def ofFixed (x : Int) : Binary64 := ofQuotient (x < 0) x.natAbs FixedPoint.one

/-- The magnitude nearest to the exponential of a value in fixed point. -/
def expMagnitude? (x : Int) : Option Magnitude :=
  let (m, k) := FixedPoint.exp x
  Magnitude.nearest? (m * unitsPerOne * 2 ^ k.toNat) (FixedPoint.one * 2 ^ (-k).toNat)

/-! ### Exponential and logarithms -/

/-- The exponential. -/
def exp : Binary64 → Binary64
  | finite s m =>
    if m.isExtreme then if s then zero false else inf false
    else ofMagnitude? false (expMagnitude? (if s then -(m.fixed : Int) else m.fixed))
  | inf s => if s then zero false else inf false
  | nan => nan

/-- A logarithm: `f` gives it for a positive magnitude, and the pole at zero and the
negative numbers are common to all. -/
def logarithm (f : Magnitude → Binary64) : Binary64 → Binary64
  | finite s m => if m.units = 0 then inf true else if s then nan else f m
  | inf false => inf false
  | _ => nan

/-- The natural logarithm. -/
def ln : Binary64 → Binary64 :=
  logarithm fun m => ofFixed (FixedPoint.ln m.fixed)

/-- The logarithm to a base given in fixed point. -/
def logOver (base : Nat) : Binary64 → Binary64 :=
  logarithm fun m =>
    let x := FixedPoint.ln m.fixed
    ofQuotient (x < 0) x.natAbs base

/-- The binary logarithm. -/
def log2 : Binary64 → Binary64 := logOver FixedPoint.ln2

/-- The decimal logarithm. -/
def log10 : Binary64 → Binary64 := logOver (FixedPoint.ln (10 * FixedPoint.one)).toNat

/-- The logarithm of a number in a base: the quotient of the natural logarithms. -/
def log (x base : Binary64) : Binary64 := div (ln x) (ln base)

/-- The natural logarithm of one plus the number. -/
def log1p : Binary64 → Binary64
  | finite s m =>
    if m.units = 0 then finite s m
    else if s then
      if m.units = unitsPerOne then inf true
      else if unitsPerOne < m.units then nan
      else ofFixed (FixedPoint.ln (FixedPoint.one - m.fixed))
    else ofFixed (FixedPoint.ln (FixedPoint.one + m.fixed))
  | inf false => inf false
  | _ => nan

/-! ### Circular functions -/

/-- The sine. -/
def sin : Binary64 → Binary64
  | finite s m =>
    let y := (FixedPoint.sinCos m.units).1
    ofQuotient (s ^^ decide (y < 0)) y.natAbs FixedPoint.one
  | _ => nan

/-- The cosine. -/
def cos : Binary64 → Binary64
  | finite _ m => ofFixed (FixedPoint.sinCos m.units).2
  | _ => nan

/-- The tangent. -/
def tan : Binary64 → Binary64
  | finite s m =>
    let (y, x) := FixedPoint.sinCos m.units
    ofQuotient (s ^^ decide (y < 0) ^^ decide (x < 0)) y.natAbs x.natAbs
  | _ => nan

/-- The inverse sine, from minus to plus a quarter turn. -/
def asin : Binary64 → Binary64
  | finite s m =>
    if unitsPerOne < m.units then nan
    else
      let x := m.fixed
      ofQuotient s
        (FixedPoint.angle x (floorSqrt (FixedPoint.one * FixedPoint.one - x * x))) FixedPoint.one
  | _ => nan

/-- The inverse cosine, from zero to a half turn. -/
def acos : Binary64 → Binary64
  | finite s m =>
    if unitsPerOne < m.units then nan
    else
      let x := m.fixed
      let a := FixedPoint.angle (floorSqrt (FixedPoint.one * FixedPoint.one - x * x)) x
      ofQuotient false (if s then 2 * FixedPoint.quarter - a else a) FixedPoint.one
  | _ => nan

/-- The inverse tangent, from minus to plus a quarter turn. -/
def atan : Binary64 → Binary64
  | finite s m => ofQuotient s (FixedPoint.angle m.fixed FixedPoint.one) FixedPoint.one
  | inf s => ofQuotient s FixedPoint.quarter FixedPoint.one
  | nan => nan

/-! ### Hyperbolic functions -/

/-- The exponential of a magnitude and of its opposite, in fixed point. -/
def expPair (m : Magnitude) : Nat × Nat :=
  let (e, k) := FixedPoint.exp m.fixed
  let up := e <<< k.toNat
  (up, FixedPoint.quotient FixedPoint.one up)

/-- The hyperbolic sine. -/
def sinh : Binary64 → Binary64
  | finite s m =>
    if m.isExtreme then inf s
    else
      let (up, down) := expPair m
      ofQuotient s (up - down) (2 * FixedPoint.one)
  | x => x

/-- The hyperbolic cosine. -/
def cosh : Binary64 → Binary64
  | finite _ m =>
    if m.isExtreme then inf false
    else
      let (up, down) := expPair m
      ofQuotient false (up + down) (2 * FixedPoint.one)
  | inf _ => inf false
  | nan => nan

/-- The hyperbolic tangent. -/
def tanh : Binary64 → Binary64
  | finite s m =>
    if m.isExtreme then one s
    else
      let (e, k) := FixedPoint.exp (-(2 * m.fixed : Nat))
      let t := e >>> (-k).toNat
      ofQuotient s (FixedPoint.one - t) (FixedPoint.one + t)
  | inf s => one s
  | nan => nan

/-- The inverse hyperbolic sine: `ln (x + √(x² + 1))`. -/
def asinh : Binary64 → Binary64
  | finite s m =>
    let x := m.fixed
    let v := x + floorSqrt (x * x + FixedPoint.one * FixedPoint.one)
    ofQuotient s (FixedPoint.ln v).toNat FixedPoint.one
  | x => x

/-- The inverse hyperbolic cosine: `ln (x + √(x² - 1))`. -/
def acosh : Binary64 → Binary64
  | finite s m =>
    if s ∨ m.units < unitsPerOne then nan
    else
      let x := m.fixed
      let v := x + floorSqrt (x * x - FixedPoint.one * FixedPoint.one)
      ofQuotient false (FixedPoint.ln v).toNat FixedPoint.one
  | inf false => inf false
  | _ => nan

/-- The inverse hyperbolic tangent: `ln ((1 + x) / (1 - x)) / 2`. -/
def atanh : Binary64 → Binary64
  | finite s m =>
    if m.units = unitsPerOne then inf s
    else if unitsPerOne < m.units then nan
    else
      let x := m.fixed
      let v := FixedPoint.quotient (FixedPoint.one + x) (FixedPoint.one - x)
      ofQuotient s (FixedPoint.ln v).toNat (2 * FixedPoint.one)
  | _ => nan

/-! ### The circle's constants -/

/-- The ratio of a half turn to the radius. -/
def pi : Binary64 := ofQuotient false (2 * FixedPoint.quarter) FixedPoint.one

/-- The ratio of a full turn to the radius. -/
def tau : Binary64 := ofQuotient false (4 * FixedPoint.quarter) FixedPoint.one

/-- The base of the natural logarithm. -/
def euler : Binary64 := exp (one false)

end Binary64

end Calculator
