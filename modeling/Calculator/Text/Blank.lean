/-
  Calculator/Text/Blank.lean
  ==========================
  **Blank characters**: the characters that leave a line blank.  They are the
  white space of Unicode and the four ASCII separators.
-/
namespace Calculator

/-- The first and last code points of each run of blank characters. -/
def blankRuns : List (Nat × Nat) := [
  (0x09, 0x0d), (0x1c, 0x20), (0x85, 0x85), (0xa0, 0xa0), (0x1680, 0x1680), (0x2000, 0x200a),
  (0x2028, 0x2029), (0x202f, 0x202f), (0x205f, 0x205f), (0x3000, 0x3000)]

/-- Whether a character is blank. -/
def isBlank (c : Char) : Bool :=
  blankRuns.any fun (first, last) => first ≤ c.toNat && c.toNat ≤ last

/-- Whether a line holds nothing but blank characters. -/
def isBlankLine (line : String) : Bool := line.toList.all isBlank

end Calculator
