/-
  Calculator/Token/Scan.lean
  ==========================
  **Scanning a source into tokens** (`tokenize`).  Spaces and line feeds separate
  tokens and are otherwise skipped.  At any other character the scanner reads a lexeme: an
  identifier, a number, or the first symbol whose text stands there.  A
  character that starts no lexeme is an error at its offset, and the first one
  in the source is the one reported.
-/
import Calculator.Token

namespace Calculator

/-! ### Character classes -/

/-- A character that only separates tokens (`_WHITESPACE`). -/
def isSeparator (c : Char) : Bool := c = ' ' || c = '\n'

/-- A character that can start an identifier: an ASCII letter or an underscore. -/
def isNameStart (c : Char) : Bool := c.isAlpha || c = '_'

/-- A character that can stand inside an identifier: an ASCII letter or digit, or an
underscore. -/
def isNamePart (c : Char) : Bool := c.isAlphanum || c = '_'

/-! ### Lexemes at the front of a text -/

namespace Lexeme

/-- The identifier at the front of a text, and its length (`_lex_ident`). -/
def identifier? : List Char → Option (Lexeme × Nat)
  | [] => none
  | c :: rest =>
    if isNameStart c then
      let name := c :: rest.takeWhile isNamePart
      some (identifier (String.ofList name), name.length)
    else none

/-- The number at the front of a text, and its length (`_lex_number`).  Digits may stand on both
sides of the point, before it or after it, or alone. -/
def number? (text : List Char) : Option (Lexeme × Nat) :=
  let whole := text.takeWhile Char.isDigit
  match text.drop whole.length with
  | '.' :: rest =>
    let fraction := rest.takeWhile Char.isDigit
    if whole = [] ∧ fraction = [] then none
    else some (number (Decimal.ofDigits whole fraction).toBinary64,
      whole.length + 1 + fraction.length)
  | _ =>
    if whole = [] then none
    else some (number (Decimal.ofDigits whole []).toBinary64, whole.length)

/-- The symbol at the front of a text, and its length (`_lex_symbol`). -/
def symbol? (text : List Char) : Option (Lexeme × Nat) :=
  (Symbol.all.find? fun s => s.chars.isPrefixOf text).map fun s => (symbol s, s.chars.length)

/-- The lexeme at the front of a text, and its length (`_RECOGNIZERS`). -/
def read? (text : List Char) : Option (Lexeme × Nat) :=
  (identifier? text).or ((number? text).or (symbol? text))

end Lexeme

/-! ### Scanning -/

/-- A character that starts no token, and its offset (`InvalidTokenError`). -/
structure InvalidToken where
  offset : Nat
  char : Char
  deriving DecidableEq, Repr

/-- The tokens of a text that stands at an offset of its source.  The first `skip` characters
belong to a lexeme that has already been read. -/
def tokensFrom (offset skip : Nat) : List Char → Except InvalidToken (List Token)
  | [] => .ok []
  | c :: rest =>
    match skip with
    | skip + 1 => tokensFrom (offset + 1) skip rest
    | 0 =>
      if isSeparator c then tokensFrom (offset + 1) 0 rest
      else
        match Lexeme.read? (c :: rest) with
        | none => .error ⟨offset, c⟩
        | some (lexeme, length) =>
          match tokensFrom (offset + 1) (length - 1) rest with
          | .ok tokens => .ok (⟨lexeme, offset, offset + length⟩ :: tokens)
          | .error e => .error e

/-- The tokens of a source (`tokenize`). -/
def tokenize (source : String) : Except InvalidToken (List Token) :=
  tokensFrom 0 0 source.toList

/-- Characters of a lexeme that has been read are passed over. -/
theorem tokensFrom_skip (offset skip : Nat) (text : List Char) :
    tokensFrom offset skip text = tokensFrom (offset + skip) 0 (text.drop skip) := by
  induction text generalizing offset skip with
  | nil => simp [tokensFrom]
  | cons c rest ih =>
    cases skip with
    | zero => rfl
    | succ skip =>
      rw [tokensFrom, ih, List.drop_succ_cons, Nat.add_assoc, Nat.add_comm 1]

end Calculator
