/-
  Calculator/Number/Decimal.lean
  ==============================
  **Decimals, and the shortest decimal of a number.**  A decimal is a natural
  number of units of a power of ten.  Reading one rounds it to the nearest
  number, so any decimal of any length has one double-precision value.

  The way back looks for the fewest digits that read back.  A magnitude is a
  whole number of units of `10 ^ -1074`, because `2 ^ -1074 = 5 ^ 1074 / 10 ^ 1074`,
  so its decimal expansion is finite and every shorter decimal beside it is a
  prefix of that expansion, or such a prefix plus one.  The search keeps one
  digit, then two, and so on, and takes the first prefix that reads back; the
  full expansion ends it.  Of two neighbours that both read back it takes the
  nearer one, and the even one at an exact tie.
-/
import Calculator.Number.Rounding

namespace Calculator

/-! ### Decimals -/

/-- The decimal `digits * 10 ^ exponent`. -/
structure Decimal where
  digits : Nat
  exponent : Int
  deriving DecidableEq, Repr

namespace Decimal

/-- The decimal that the digits before and after a point denote. -/
def ofDigits (whole fraction : List Char) : Decimal :=
  ⟨Nat.ofDigitChars 10 (whole ++ fraction) 0, -(fraction.length : Int)⟩

/-- The magnitude nearest to a decimal; `none` if it is too large for the format. -/
def toMagnitude? (d : Decimal) : Option Magnitude :=
  Magnitude.nearest? (d.digits * 10 ^ d.exponent.toNat * unitsPerOne) (10 ^ (-d.exponent).toNat)

/-- The number nearest to a decimal. -/
def toBinary64 (d : Decimal) : Binary64 := Binary64.ofMagnitude? false d.toMagnitude?

/-- Moves at most `count` zeros at the end of the digits into the exponent. -/
def trimZeros : (count : Nat) → Decimal → Decimal
  | 0, d => d
  | count + 1, d =>
    if d.digits % 10 = 0 then trimZeros count ⟨d.digits / 10, d.exponent + 1⟩ else d

/-- The digits of the decimal. -/
def digitChars (d : Decimal) : List Char := Nat.toDigits 10 d.digits

/-- The same decimal with no zero at the end of its digits. -/
def trim (d : Decimal) : Decimal := trimZeros d.digitChars.length d

end Decimal

/-! ### The shortest decimal of a magnitude -/

namespace Magnitude

/-- The magnitude in units of `10 ^ -1074`: its exact decimal expansion. -/
def expansion (m : Magnitude) : Nat := m.units * 5 ^ 1074

/-- The number of digits of the expansion. -/
def expansionLength (m : Magnitude) : Nat := (Nat.toDigits 10 m.expansion).length

/-- The decimal of `digits` on the grid that drops the last `dropped` digits of the
expansion. -/
def gridPoint (digits dropped : Nat) : Decimal := ⟨digits, (dropped : Int) - 1074⟩

/-- Which of two decimals reads back as the magnitude, and of two that do the nearer one. -/
def readsBack? (m : Magnitude) (below above : Decimal) (belowIsNearer : Bool) : Option Decimal :=
  if below.toMagnitude? = some m then
    if above.toMagnitude? = some m then
      if belowIsNearer then some below else some above
    else some below
  else if above.toMagnitude? = some m then some above
  else none

/-- The magnitude's neighbour on the grid that drops `dropped` digits, if one of the two
reads back. -/
def onGrid? (m : Magnitude) (dropped : Nat) : Option Decimal :=
  let step := 10 ^ dropped
  let low := m.expansion / step
  let excess := m.expansion % step
  m.readsBack? (gridPoint low dropped) (gridPoint (low + 1) dropped)
    (2 * excess < step ∨ (2 * excess = step ∧ low % 2 = 0))

/-- The first decimal that reads back on the grids that drop `dropped` digits or fewer. -/
def firstOnGrid (m : Magnitude) : (dropped : Nat) → Decimal
  | 0 => gridPoint m.expansion 0
  | dropped + 1 => (m.onGrid? (dropped + 1)).getD (firstOnGrid m dropped)

/-- The decimal of fewest digits that reads back as the magnitude. -/
def shortest (m : Magnitude) : Decimal := (m.firstOnGrid (m.expansionLength - 1)).trim

/-- The decimal of `count` significant digits nearest to the magnitude, ties to even.
Digits that are rounded up to a power of ten start with a one in the next place. -/
def significant (m : Magnitude) (count : Nat) : Decimal :=
  let dropped := m.expansionLength - count
  let digits := divHalfEven m.expansion (10 ^ dropped)
  if digits = 10 ^ count then gridPoint (10 ^ (count - 1)) (dropped + 1)
  else gridPoint digits dropped

end Magnitude

end Calculator
