/-
  Calculator/Number/Text.lean
  ===========================
  **How numbers are written.**  There are three forms.

  * The *number text* of answers and renderings (`format_number`): an integer in full, any other
    number as its shortest decimal in positional form, never with an exponent.
  * The *debug text* of messages about values: the shortest decimal, positional
    with a fraction for magnitudes from `10 ^ -4` up to `10 ^ 16`, and with an
    exponent elsewhere.
  * The *scientific text* of a requested number of significant digits.
-/
import Calculator.Number.Decimal

namespace Calculator

/-! ### Layouts of a decimal -/

namespace Decimal

/-- Digits with a point, and zeros to reach the point from either side. -/
def positional (d : Decimal) : List Char :=
  let digits := d.digitChars
  let places := (-d.exponent).toNat
  if 0 ≤ d.exponent then digits ++ List.replicate d.exponent.toNat '0'
  else if places < digits.length then
    digits.take (digits.length - places) ++ '.' :: digits.drop (digits.length - places)
  else '0' :: '.' :: (List.replicate (places - digits.length) '0' ++ digits)

/-- The place of the point counted from before the first digit. -/
def pointPlace (d : Decimal) : Int := d.digitChars.length + d.exponent

/-- An exponent mark with a sign and at least two digits. -/
def exponentMark (n : Int) : List Char :=
  let digits := Nat.toDigits 10 n.natAbs
  'e' :: (if n < 0 then '-' else '+') :: (if digits.length < 2 then '0' :: digits else digits)

/-- One digit, the others after a point, and an exponent. -/
def scientific (d : Decimal) : List Char :=
  let mantissa :=
    match d.digitChars with
    | [] => []
    | [c] => [c]
    | c :: rest => c :: '.' :: rest
  mantissa ++ exponentMark (d.pointPlace - 1)

end Decimal

/-! ### The texts of a number -/

/-- Writes a sign before a text. -/
def signed (neg : Bool) (text : List Char) : String :=
  String.ofList (if neg then '-' :: text else text)

namespace Magnitude

/-- The number text of a magnitude. -/
def numberText (m : Magnitude) : List Char :=
  if m.isWhole then Nat.toDigits 10 m.whole else m.shortest.positional

/-- The debug text of a magnitude.  Zero has a fraction too. -/
def debugText (m : Magnitude) : List Char :=
  if m.units = 0 then "0.0".toList
  else
    let d := m.shortest
    if -4 < d.pointPlace ∧ d.pointPlace ≤ 16 then
      if 0 ≤ d.exponent then d.positional ++ ".0".toList else d.positional
    else d.scientific

end Magnitude

namespace Binary64

/-- The text of a number in answers and renderings (`format_number`). -/
def numberText : Binary64 → String
  | nan => "NaN"
  | inf s => signed s "inf".toList
  | finite s m => signed s m.numberText

/-- The text of a number in messages about values. -/
def debugText : Binary64 → String
  | nan => "nan"
  | inf s => signed s "inf".toList
  | finite s m => signed s m.debugText

/-- The text of a number in `count` significant digits.  Zero and the numbers that are not
finite keep their number text. -/
def scientificText (count : Nat) : Binary64 → String
  | finite s m =>
    if m.units = 0 then (finite s m).numberText else signed s (m.significant count).scientific
  | x => x.numberText

end Binary64

end Calculator
