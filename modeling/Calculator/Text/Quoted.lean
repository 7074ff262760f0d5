/-
  Calculator/Text/Quoted.lean
  ===========================
  **Quoted texts.**  Messages show a text in quotes, so that blanks and invisible
  characters in it can be seen.  The quote is single, unless the text holds a
  single quote and no double one.  A backslash and the quote in use follow a
  backslash; line feed, carriage return and tab have letters; any other
  character that is not printable is written by its code in the shortest of
  three widths.
-/
import Calculator.Text.Printable

namespace Calculator.Quoted

/-- The code of a character in at least `width` hexadecimal digits. -/
def hexDigits (width : Nat) (c : Char) : List Char :=
  let digits := Nat.toDigits 16 c.toNat
  List.replicate (width - digits.length) '0' ++ digits

/-- How a character is written between quotes of the given kind. -/
def escape (quote c : Char) : List Char :=
  if c = '\\' ∨ c = quote then ['\\', c]
  else if c = '\n' then ['\\', 'n']
  else if c = '\r' then ['\\', 'r']
  else if c = '\t' then ['\\', 't']
  else if isPrintable c then [c]
  else if c.toNat < 0x100 then '\\' :: 'x' :: hexDigits 2 c
  else if c.toNat < 0x10000 then '\\' :: 'u' :: hexDigits 4 c
  else '\\' :: 'U' :: hexDigits 8 c

/-- The quote that goes around a text. -/
def quoteFor (text : List Char) : Char :=
  if '\'' ∈ text ∧ '"' ∉ text then '"' else '\''

end Calculator.Quoted

namespace Calculator

/-- A text in quotes. -/
def quoted (text : String) : String :=
  let chars := text.toList
  let quote := Quoted.quoteFor chars
  String.ofList (quote :: (chars.flatMap (Quoted.escape quote) ++ [quote]))

end Calculator
