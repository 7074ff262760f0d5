/-
  Calculator/Number/FixedPoint.lean
  =================================
  **Real functions in fixed point.**  The elementary functions are computed on
  integers that count `2 ^ -1300`.  The least magnitude of the format is
  `2 ^ -1074`, so every argument is exact at this scale and even the smallest
  result keeps more than two hundred correct bits: rounding it afterwards gives
  the nearest number, because no value of these functions at a number of the
  format is known to come that close to the middle between two numbers, the
  exact cases apart, which come out exact.

  Each series is written from its last term inward, `a + z * (b + z * (c + …))`,
  so that it is one structural recursion on the number of its terms.
-/
import Calculator.Number.Root

namespace Calculator.FixedPoint

/-- The number of fractional bits. -/
def fractionBits : Nat := 1300

/-- One in fixed point. -/
def one : Nat := 2 ^ fractionBits

/-- The product of two values in fixed point, rounded down. -/
def times (x y : Nat) : Nat := (x * y) >>> fractionBits

/-- The quotient of two values in fixed point, rounded down. -/
def quotient (x y : Nat) : Nat := (x <<< fractionBits) / y

/-! ### Logarithm and exponential -/

/-- The tail `1/index + z/(index + 2) + z²/(index + 4) + …` of `count` terms. -/
def areaTail (z : Nat) : (count index : Nat) → Nat
  | 0, _ => 0
  | count + 1, index => one / index + times z (areaTail z count (index + 2))

/-- The inverse hyperbolic tangent of a value up to one third. -/
def areaTangent (x : Nat) : Nat := times x (areaTail (times x x) 420 1)

/-- The logarithm of two: twice the inverse hyperbolic tangent of one third. -/
def ln2 : Nat := 2 * areaTangent (one / 3)

/-- The natural logarithm of a positive value.  The value is `m * 2 ^ k` with `m` from one
up to two, and `ln m` is twice the inverse hyperbolic tangent of `(m - 1) / (m + 1)`. -/
def ln (x : Nat) : Int :=
  let length := x.log2
  let m := if fractionBits ≤ length then x >>> (length - fractionBits)
    else x <<< (fractionBits - length)
  2 * (areaTangent (quotient (m - one) (m + one)) : Int) + ((length : Int) - fractionBits) * ln2

/-- The tail `1 + x/index * (1 + x/(index + 1) * …)` of `count` factors. -/
def expTail (x : Nat) : (count index : Nat) → Nat
  | 0, _ => one
  | count + 1, index => one + times x (expTail x count (index + 1)) / index

/-- The exponential as `m * 2 ^ k`, with `m` in fixed point from one up to two. -/
def exp (x : Int) : Nat × Int :=
  (expTail (x % ln2).toNat 260 1, x / ln2)

/-! ### Angles -/

/-- Extra fractional bits of the circle's constants, so that the largest number of the
format still has a remainder of full precision after whole quarter turns are taken away. -/
def extraBits : Nat := 1100

/-- The tail `p/index - p/(n² * (index + 2)) + …` of the inverse tangent of `1/n`. -/
def inverseTail (square : Nat) : (count power index : Nat) → Int
  | 0, _, _ => 0
  | count + 1, power, index =>
    (power / index : Nat) - inverseTail square count (power / square) (index + 2)

/-- The inverse tangent of `1/n`, with the extra bits. -/
def inverseTangent (n : Nat) : Int :=
  inverseTail (n * n) 530 (2 ^ (fractionBits + extraBits) / n) 1

/-- A quarter turn, with the extra bits: `π/2 = 8 * atan (1/5) - 2 * atan (1/239)`. -/
def wideQuarter : Nat := (8 * inverseTangent 5 - 2 * inverseTangent 239).toNat

/-- A quarter turn. -/
def quarter : Nat := wideQuarter >>> extraBits

/-- The tail `1 - z/(index * (index + 1)) * (1 - …)` of `count` factors. -/
def circularTail (z : Nat) : (count index : Nat) → Int
  | 0, _ => one
  | count + 1, index =>
    one - ((z * circularTail z count (index + 2)) >>> fractionBits) / (index * (index + 1) : Nat)

/-- The sine and cosine of a magnitude given in units.  What is left of it after whole
quarter turns lies in the first quadrant, and their number says how to turn it back. -/
def sinCos (units : Nat) : Int × Int :=
  let wide := units <<< (fractionBits + extraBits - 1074)
  let x := (wide % wideQuarter) >>> extraBits
  let z := times x x
  let sin := ((x : Int) * circularTail z 150 2) >>> fractionBits
  let cos := circularTail z 150 1
  match wide / wideQuarter % 4 with
  | 0 => (sin, cos)
  | 1 => (cos, -sin)
  | 2 => (-sin, -cos)
  | _ => (-cos, sin)

/-- The tail `1/index - z/(index + 2) + z²/(index + 4) - …` of `count` terms. -/
def arcTail (z : Nat) : (count index : Nat) → Int
  | 0, _ => 0
  | count + 1, index =>
    (one / index : Nat) - ((z * arcTail z count (index + 2)) >>> fractionBits)

/-- The tangent of half the angle with a given tangent. -/
def halfTangent (t : Nat) : Nat := quotient t (one + floorSqrt (one * one + t * t))

/-- The inverse tangent of a value up to one, from the series at a quarter of the angle. -/
def arcTangent (t : Nat) : Nat :=
  let h := halfTangent (halfTangent t)
  4 * (((h : Int) * arcTail (times h h) 300 1) >>> fractionBits).toNat

/-- The angle of the point `(x, y)` of the first quadrant, seen from the origin. -/
def angle (y x : Nat) : Nat :=
  if y ≤ x then arcTangent (quotient y x) else quarter - arcTangent (quotient x y)

end Calculator.FixedPoint
