/-
  Calculator/Number/Power.lean
  ============================
  **Powers** (`power`).  A power never fails.  The cases are, in order: an exponent of
  zero and a base of one give one, whatever the other operand; any other NaN
  operand gives a NaN; an infinite exponent compares the base with one; an
  infinite or zero base gives an infinity or a zero; a negative base with an
  exponent that is no integer gives a NaN.  In all that is left the sign is the
  base's if the exponent is an odd integer, and the magnitude is that of a
  positive real power.

  The mathematical library refuses finite operands that have no finite power.
  The calculator does not: it finds the infinity or the NaN from the operands.

  A real power can be a number of the format, or lie exactly half way between
  two, only when the base is a perfect power of two times an odd number with
  the root that the exponent's denominator asks for.  Those powers are computed
  exactly; all others are exponentials of `exponent * ln base`.
-/
import Calculator.Number.Elementary

namespace Calculator

/-! ### Exact powers -/

/-- The positive dyadic number `odd * 2 ^ exponent`. -/
structure Dyadic where
  odd : Nat
  exponent : Int

/-- Moves at most `count` factors of two into the exponent. -/
def Dyadic.reduce : (count : Nat) → Dyadic → Dyadic
  | 0, d => d
  | count + 1, d =>
    if d.odd % 2 = 0 then reduce count ⟨d.odd / 2, d.exponent + 1⟩ else d

/-- The exact square root, if it is dyadic. -/
def Dyadic.sqrt? (d : Dyadic) : Option Dyadic :=
  let r := floorSqrt d.odd
  if r * r = d.odd ∧ d.exponent % 2 = 0 then some ⟨r, d.exponent / 2⟩ else none

/-- The exact root of degree `2 ^ count`, if it is dyadic. -/
def Dyadic.root? : (count : Nat) → Dyadic → Option Dyadic
  | 0, d => some d
  | count + 1, d => d.sqrt?.bind (root? count)

namespace Magnitude

/-- The magnitude as a dyadic number with an odd significand. -/
def toDyadic (m : Magnitude) : Dyadic := .reduce 53 ⟨m.mant, (m.exp : Int) - 1074⟩

/-- The magnitude nearest to `1 / 2 ^ shift` times a quotient, for a shift of any sign. -/
def nearestShifted? (num den : Nat) (shift : Int) : Option Magnitude :=
  nearest? (num * unitsPerOne * 2 ^ (-shift).toNat) (den * 2 ^ shift.toNat)

/-- The power of a positive magnitude, where it can be a dyadic number: the exponent is
`n / 2 ^ k`, the base has a dyadic root of degree `2 ^ k`, and the power of that root is
small enough to matter.  A power of two from `2 ^ 1100` on is out of range, and a power
above the sixty-fourth of another odd number has too many digits to be near a number of
the format.  The outer `none` says that the power is not of this kind. -/
def exactPow? (base : Magnitude) (inverse : Bool) (exponent : Magnitude) :
    Option (Option Magnitude) :=
  let y := Dyadic.reduce 53 ⟨exponent.mant, (exponent.exp : Int) - 1074⟩
  let n := y.odd * 2 ^ y.exponent.toNat
  match Dyadic.root? (-y.exponent).toNat base.toDyadic with
  | none => none
  | some root =>
    if n ≤ 64 ∨ (root.odd = 1 ∧ n ≤ 1100) then
      let shift := root.exponent * n
      if inverse then some (nearestShifted? 1 (root.odd ^ n) shift)
      else some (nearestShifted? (root.odd ^ n) 1 (-shift))
    else none

/-- The power of a positive magnitude as an exponential; `none` if it is too large. -/
def realPow? (base : Magnitude) (inverse : Bool) (exponent : Magnitude) : Option Magnitude :=
  let product := (FixedPoint.ln base.fixed * exponent.units) >>> (1074 : Nat)
  let x := if inverse then -product else product
  if 2048 * (FixedPoint.one : Int) ≤ x then none
  else if x ≤ -2048 * (FixedPoint.one : Int) then some .zero
  else Binary64.expMagnitude? x

/-- The power of a positive magnitude; `none` if it is too large for the format. -/
def pow? (base : Magnitude) (inverse : Bool) (exponent : Magnitude) : Option Magnitude :=
  (base.exactPow? inverse exponent).getD (base.realPow? inverse exponent)

end Magnitude

/-! ### The power of numbers -/

namespace Binary64

/-- The power `base ^ exponent` as the standard of the format defines it. -/
def standardPow (base exponent : Binary64) : Binary64 :=
  match base, exponent with
  | base, finite t n =>
    if n.units = 0 then one false
    else if base = one false then one false
    else
      let s := base.neg && exponent.isOdd
      match base with
      | nan => nan
      | inf _ => if t then zero s else inf s
      | finite r m =>
        if m.units = 0 then if t then inf s else zero s
        else if r && !n.isWhole then nan
        else ofMagnitude? s (m.pow? t n)
  | base, inf t =>
    match base with
    | nan => nan
    | inf _ => if t then zero false else inf false
    | finite _ m =>
      if m = .one then one false
      else if decide (unitsPerOne < m.units) != t then inf false
      else zero false
  | base, nan => if base = one false then one false else nan

/-- Why a power of finite operands is refused. -/
inductive Refusal where
  /-- A zero has a negative exponent, or a negative base an exponent that is no integer. -/
  | domain
  /-- The power is too large for the format. -/
  | overflow
  deriving DecidableEq, Repr

/-- The power of the mathematical library.  For finite operands it is refused where the standard
has an infinity or a NaN. -/
def checkedPow (base exponent : Binary64) : Except Refusal Binary64 :=
  match standardPow base exponent with
  | finite s m => .ok (finite s m)
  | inf s =>
    if base.isFinite && exponent.isFinite then
      .error (if base.isZero then .domain else .overflow)
    else .ok (inf s)
  | nan => if base.isFinite && exponent.isFinite then .error .domain else .ok nan

/-- The power, which never fails (`power`).  A refusal does not say what the power is, and the
operands decide it. -/
def pow (base exponent : Binary64) : Binary64 :=
  match checkedPow base exponent with
  | .ok x => x
  | .error .overflow => inf (base.isNegative && exponent.isOdd)
  | .error .domain =>
    if base.isZero && exponent.isNegative then inf (exponent.isOdd && base.neg)
    else nan

end Binary64

end Calculator
