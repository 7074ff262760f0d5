/-
  Calculator/Number/Binary64.lean
  ===============================
  **Double-precision numbers** as a data type of their own: a NaN, an infinity
  with a sign, or a finite number with a sign and a magnitude.

  A magnitude is counted in *units*.  One unit is `2 ^ -1074`, the least
  positive number of the format, so every magnitude is a whole number of units
  and every question about finite numbers is a question about natural numbers.
  A magnitude is stored as `mant * 2 ^ exp` units in its one canonical form:
  the significand has at most 53 bits, and exactly 53 unless the exponent is
  zero.  Two magnitudes of one value are therefore equal, and a pair outside
  the canonical range has no number of the format at all.

  There is one NaN: its sign and payload never show in an answer.
-/
namespace Calculator

/-- Powers of natural numbers are the core library's, whatever algebra is imported beside
them. -/
@[default_instance 20000]
instance (priority := high) powNat : Pow Nat Nat := instPowNat

/-! ### Magnitudes -/

/-- The absolute value of a finite number, `mant * 2 ^ exp` units, in canonical form. -/
structure Magnitude where
  mant : Nat
  exp : Nat
  canonical : mant < 2 ^ 53 ∧ exp ≤ 2045 ∧ (exp = 0 ∨ 2 ^ 52 ≤ mant)
  deriving DecidableEq, Repr

/-- How many units make one: the denominator of every value of the format. -/
def unitsPerOne : Nat := 2 ^ 1074

/-- The magnitude as a number of units. -/
def Magnitude.units (m : Magnitude) : Nat := m.mant * 2 ^ m.exp

/-- The magnitude zero. -/
def Magnitude.zero : Magnitude := ⟨0, 0, by decide⟩

/-- The magnitude one. -/
def Magnitude.one : Magnitude := ⟨2 ^ 52, 1022, by decide⟩

/-- The canonical magnitude `mant * 2 ^ exp`, if the pair is canonical. -/
def Magnitude.ofPair? (mant exp : Nat) : Option Magnitude :=
  if h : mant < 2 ^ 53 ∧ exp ≤ 2045 ∧ (exp = 0 ∨ 2 ^ 52 ≤ mant) then some ⟨mant, exp, h⟩
  else none

/-- A magnitude without a fraction. -/
def Magnitude.isWhole (m : Magnitude) : Bool := m.units % unitsPerOne = 0

/-- The integral part of a magnitude. -/
def Magnitude.whole (m : Magnitude) : Nat := m.units / unitsPerOne

/-! ### Numbers -/

/-- A double-precision number. -/
inductive Binary64 where
  | nan
  | inf (neg : Bool)
  | finite (neg : Bool) (mag : Magnitude)
  deriving DecidableEq, Repr

namespace Binary64

/-- The zero of a given sign. -/
def zero (neg : Bool) : Binary64 := finite neg .zero

/-- The number one of a given sign. -/
def one (neg : Bool) : Binary64 := finite neg .one

/-- The sign bit.  A NaN has none. -/
def neg : Binary64 → Bool
  | nan => false
  | inf s => s
  | finite s _ => s

/-- The opposite number: only the sign changes, zeros included. -/
def negate : Binary64 → Binary64
  | nan => nan
  | inf s => inf (!s)
  | finite s m => finite (!s) m

/-- The absolute value. -/
def abs : Binary64 → Binary64
  | nan => nan
  | inf _ => inf false
  | finite _ m => finite false m

/-- The signed number of units of a finite number, and zero for the others. -/
def units : Binary64 → Int
  | finite true m => -(m.units : Int)
  | finite false m => m.units
  | _ => 0

/-- Neither an infinity nor a NaN. -/
def isFinite : Binary64 → Bool
  | finite _ _ => true
  | _ => false

/-- A zero of either sign. -/
def isZero : Binary64 → Bool
  | finite _ m => m.units = 0
  | _ => false

/-- A number below zero.  The negative zero is none. -/
def isNegative : Binary64 → Bool
  | nan => false
  | inf s => s
  | finite s m => s && m.units != 0

/-- A finite odd integer.  From `2 ^ 53` on every number is even. -/
def isOdd : Binary64 → Bool
  | finite _ m => m.isWhole && m.whole % 2 = 1
  | _ => false

/-! ### Encoding -/

/-- The number with a given interchange encoding: a sign bit, eleven exponent bits and
fifty-two fraction bits.  Every encoding of a NaN is read as the one NaN. -/
def ofBits (bits : UInt64) : Binary64 :=
  let word := bits.toNat
  let sign : Bool := word / 2 ^ 63 = 1
  let field := word / 2 ^ 52 % 2 ^ 11
  let fraction := word % 2 ^ 52
  if field = 2047 then
    if fraction = 0 then inf sign else nan
  else
    match Magnitude.ofPair? (if field = 0 then fraction else 2 ^ 52 + fraction) (field - 1) with
    | some m => finite sign m
    | none => nan

/-- The interchange encoding.  The magnitude's own encoding is `mant + exp * 2 ^ 52`,
because the implicit bit of a normal significand carries into the exponent field. -/
def toBits (x : Binary64) : UInt64 :=
  let magnitude : Nat :=
    match x with
    | nan => 4095 * 2 ^ 51
    | inf _ => 2047 * 2 ^ 52
    | finite _ m => m.mant + m.exp * 2 ^ 52
  UInt64.ofNat (magnitude + if x.neg then 2 ^ 63 else 0)

end Binary64

end Calculator
