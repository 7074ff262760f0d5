/-
  Calculator/Toml/Scalar.lean
  ===========================
  **Keys, strings, numbers, dates and times of a TOML document.**  Every reader
  takes the text that is left and gives a result together with the text after
  it, or nothing when the text does not start as it should.

  A key is bare or quoted, or several of these with points between them.  A
  string stands in double quotes, with escapes, or in single quotes, without
  any; in three of either it may have several lines.  Digits of a number may have
  single underscores between them.  The date of a date with a time is set off
  from the time by a blank or a letter, and an offset may follow the time.
-/
import Calculator.Toml.Value

namespace Calculator.Toml

/-! ### Characters -/

/-- A blank that may stand between the parts of a statement. -/
def isBlank (c : Char) : Bool := c = ' ' || c = '\t'

/-- A control character that no string and no comment may hold. -/
def isControl (c : Char) : Bool := (c.toNat < 32 && c != '\t') || c.toNat = 127

/-- A character of a bare key. -/
def isBareKeyPart (c : Char) : Bool := c.isAlphanum || c = '-' || c = '_'

/-- A hexadecimal digit. -/
def isHexDigit (c : Char) : Bool :=
  c.isDigit || ('a' ≤ c && c ≤ 'f') || ('A' ≤ c && c ≤ 'F')

/-- The value of a hexadecimal digit. -/
def hexValue (c : Char) : Nat :=
  if c.isDigit then c.toNat - '0'.toNat else c.toLower.toNat - 'a'.toNat + 10

/-- The value of digits in a base up to sixteen. -/
def valueOf (base : Nat) (digits : List Char) : Nat :=
  digits.foldl (fun n c => n * base + hexValue c) 0

/-- The text after its leading blanks. -/
def skipBlanks (text : List Char) : List Char := text.dropWhile isBlank

/-! ### Strings -/

/-- The character of a one-letter escape. -/
def escaped? : Char → Option Char
  | 'b' => some '\x08'
  | 't' => some '\t'
  | 'n' => some '\n'
  | 'f' => some '\x0c'
  | 'r' => some '\r'
  | '"' => some '"'
  | '\\' => some '\\'
  | _ => none

/-- The character with a given code in hexadecimal. -/
def charOfHex? (digits : List Char) : Option Char :=
  let code := valueOf 16 digits
  if digits.all isHexDigit ∧ code.isValidChar then some (Char.ofNat code) else none

/-- Puts a character in front of the text of a string. -/
def before (c : Char) : List Char × List Char → List Char × List Char
  | (chars, rest) => (c :: chars, rest)

/-- The rest of a string in double quotes. -/
def basicString? : List Char → Option (List Char × List Char)
  | [] => none
  | '"' :: rest => some ([], rest)
  | '\\' :: 'u' :: a :: b :: c :: d :: rest =>
    match charOfHex? [a, b, c, d] with
    | some char => (basicString? rest).map (before char)
    | none => none
  | '\\' :: 'U' :: a :: b :: c :: d :: e :: f :: g :: h :: rest =>
    match charOfHex? [a, b, c, d, e, f, g, h] with
    | some char => (basicString? rest).map (before char)
    | none => none
  | '\\' :: letter :: rest =>
    match escaped? letter with
    | some char => (basicString? rest).map (before char)
    | none => none
  | c :: rest => if isControl c || c = '\\' then none else (basicString? rest).map (before c)

/-- The rest of a string in single quotes. -/
def literalString? : List Char → Option (List Char × List Char)
  | [] => none
  | '\'' :: rest => some ([], rest)
  | c :: rest => if isControl c then none else (literalString? rest).map (before c)

/-- A string on one line, as text. -/
def string? : List Char → Option (String × List Char)
  | '"' :: rest => (basicString? rest).map fun (chars, rest) => (String.ofList chars, rest)
  | '\'' :: rest => (literalString? rest).map fun (chars, rest) => (String.ofList chars, rest)
  | _ => none

/-! ### Strings of several lines -/

/-- The text after blanks and line ends. -/
def skipBlankLines (text : List Char) : List Char := text.dropWhile fun c => isBlank c || c = '\n'

/-- The text after a line end that is escaped by a backslash, and after all blanks and line ends
that follow it.  Blanks may stand before the line end, and before the end of the document. -/
def skipLineEnd? (text : List Char) : Option (List Char) :=
  match skipBlanks text with
  | [] => some []
  | '\n' :: rest => some (skipBlankLines rest)
  | _ => none

/-- The rest of a string in three double quotes.  At most `count` characters are read. -/
def basicLines? : (count : Nat) → List Char → Option (List Char × List Char)
  | 0, _ => none
  | count + 1, text =>
    match text with
    | [] => none
    | '"' :: '"' :: '"' :: rest => some ([], rest)
    | '\\' :: 'u' :: a :: b :: c :: d :: rest =>
      match charOfHex? [a, b, c, d] with
      | some char => (basicLines? count rest).map (before char)
      | none => none
    | '\\' :: 'U' :: a :: b :: c :: d :: e :: f :: g :: h :: rest =>
      match charOfHex? [a, b, c, d, e, f, g, h] with
      | some char => (basicLines? count rest).map (before char)
      | none => none
    | '\\' :: letter :: rest =>
      match escaped? letter with
      | some char => (basicLines? count rest).map (before char)
      | none =>
        if isBlank letter || letter = '\n' then
          (skipLineEnd? (letter :: rest)).bind (basicLines? count)
        else none
    | c :: rest =>
      if (isControl c && c != '\n') || c = '\\' then none
      else (basicLines? count rest).map (before c)

/-- The rest of a string in three single quotes. -/
def literalLines? : List Char → Option (List Char × List Char)
  | [] => none
  | '\'' :: '\'' :: '\'' :: rest => some ([], rest)
  | c :: rest =>
    if isControl c && c != '\n' then none else (literalLines? rest).map (before c)

/-- Up to two quotes more belong to the string. -/
def withQuotes (quote : Char) : List Char × List Char → String × List Char
  | (chars, rest) =>
    let more := (rest.take 2).takeWhile (· = quote)
    (String.ofList (chars ++ more), rest.drop more.length)

/-- The text after a line end, if it starts with one. -/
def skipFirstLineEnd : List Char → List Char
  | '\n' :: rest => rest
  | text => text

/-- A string on one line or on several, as text. -/
def anyString? : List Char → Option (String × List Char)
  | '"' :: '"' :: '"' :: rest =>
    (basicLines? (rest.length + 1) (skipFirstLineEnd rest)).map (withQuotes '"')
  | '\'' :: '\'' :: '\'' :: rest =>
    (literalLines? (skipFirstLineEnd rest)).map (withQuotes '\'')
  | text => string? text

/-! ### Keys -/

/-- One part of a key. -/
def keyPart? (text : List Char) : Option (String × List Char) :=
  let bare := text.takeWhile isBareKeyPart
  if bare = [] then string? text
  else some (String.ofList bare, text.drop bare.length)

/-- The parts of a key after the first, and the blanks after it.  At most `count` parts are
read. -/
def moreKeyParts? : (count : Nat) → List Char → Option (List String × List Char)
  | 0, _ => none
  | count + 1, text =>
    match skipBlanks text with
    | '.' :: rest => do
      let (part, rest) ← keyPart? (skipBlanks rest)
      let (parts, rest) ← moreKeyParts? count rest
      return (part :: parts, rest)
    | rest => some ([], rest)

/-- A key, as its parts. -/
def key? (text : List Char) : Option (List String × List Char) := do
  let (part, rest) ← keyPart? text
  let (parts, rest) ← moreKeyParts? (rest.length + 1) rest
  return (part :: parts, rest)

/-! ### Numbers -/

/-- Further digits, each of which may follow an underscore. -/
def moreDigits (isDigit : Char → Bool) : List Char → List Char × List Char
  | '_' :: c :: rest =>
    if isDigit c then before c (moreDigits isDigit rest) else ([], '_' :: c :: rest)
  | c :: rest => if isDigit c then before c (moreDigits isDigit rest) else ([], c :: rest)
  | [] => ([], [])

/-- One or more digits. -/
def digits? (isDigit : Char → Bool) : List Char → Option (List Char × List Char)
  | c :: rest => if isDigit c then some (before c (moreDigits isDigit rest)) else none
  | [] => none

/-- A sign, which is positive when there is none. -/
def signOf : List Char → Bool × List Char
  | '+' :: rest => (false, rest)
  | '-' :: rest => (true, rest)
  | rest => (false, rest)

/-- The integral digits of a decimal number: a zero alone, or digits that start otherwise. -/
def wholeDigits? : List Char → Option (List Char × List Char)
  | '0' :: rest => some (['0'], rest)
  | text => digits? Char.isDigit text

/-- The digits after a point, if there are any. -/
def fraction (text : List Char) : List Char × List Char :=
  match text with
  | '.' :: rest => (digits? Char.isDigit rest).getD ([], text)
  | _ => ([], text)

/-- The exponent, if there is one. -/
def exponent? (text : List Char) : Option (Int × List Char) :=
  match text with
  | c :: rest =>
    if c = 'e' ∨ c = 'E' then
      let (neg, rest) := signOf rest
      (digits? Char.isDigit rest).map fun (digits, rest) =>
        (if neg then -(valueOf 10 digits : Int) else valueOf 10 digits, rest)
    else none
  | [] => none

/-- A decimal integer or a float. -/
def decimal? (text : List Char) : Option (Value × List Char) := do
  let (neg, rest) := signOf text
  let (whole, rest) ← wholeDigits? rest
  let (places, rest) := fraction rest
  let (shift, rest, hasExponent) :=
    match exponent? rest with
    | some (shift, rest) => (shift, rest, true)
    | none => (0, rest, false)
  if places = [] ∧ !hasExponent then
    let n : Int := valueOf 10 whole
    return (.integer (if neg then -n else n), rest)
  else
    let d : Decimal := Decimal.ofDigits whole places
    let x := (Decimal.mk d.digits (d.exponent + shift)).toBinary64
    return (.float (if neg then x.negate else x), rest)

/-- An integer in another base, after its mark. -/
def based? : List Char → Option (Value × List Char)
  | '0' :: 'x' :: rest => integerOf 16 isHexDigit rest
  | '0' :: 'o' :: rest => integerOf 8 (fun c => '0' ≤ c && c ≤ '7') rest
  | '0' :: 'b' :: rest => integerOf 2 (fun c => c = '0' || c = '1') rest
  | _ => none
where
  /-- Digits of a base as an integer. -/
  integerOf (base : Nat) (isDigit : Char → Bool) (text : List Char) :
      Option (Value × List Char) :=
    (digits? isDigit text).map fun (digits, rest) => (.integer (valueOf base digits), rest)

/-- The text after a word, if it starts with the word. -/
def after? (word : String) (text : List Char) : Option (List Char) :=
  word.toList.isPrefixOf? text

/-- A float that is not finite. -/
def special? (text : List Char) : Option (Value × List Char) :=
  let (neg, rest) := signOf text
  ((after? "inf" rest).map fun rest => (.float (.inf neg), rest)).or
    ((after? "nan" rest).map fun rest => (.float .nan, rest))

/-- A number. -/
def number? (text : List Char) : Option (Value × List Char) :=
  (based? text).or ((decimal? text).or (special? text))

/-- A truth value. -/
def boolean? (text : List Char) : Option (Value × List Char) :=
  ((after? "true" text).map fun rest => (.boolean true, rest)).or
    ((after? "false" text).map fun rest => (.boolean false, rest))

/-! ### Dates and times -/

/-- A number of two digits in a range. -/
def twoDigits? (first last : Nat) : List Char → Option (Nat × List Char)
  | a :: b :: rest =>
    let n := valueOf 10 [a, b]
    if a.isDigit && b.isDigit && first ≤ n && n ≤ last then some (n, rest) else none
  | _ => none

/-- A character in front of what is read. -/
def past? (c : Char) : List Char → Option (List Char)
  | d :: rest => if d = c then some rest else none
  | [] => none

/-- The first six digits after a point as microseconds.  Further digits are passed over. -/
def microseconds (text : List Char) : Nat × List Char :=
  match past? '.' text with
  | none => (0, text)
  | some rest =>
    let digits := rest.takeWhile Char.isDigit
    let kept := digits.take 6
    if digits = [] then (0, text)
    else (valueOf 10 kept * 10 ^ (6 - kept.length), rest.drop digits.length)

def time? (text : List Char) : Option (Time × List Char) := do
  let (hour, rest) ← twoDigits? 0 23 text
  let (minute, rest) ← twoDigits? 0 59 (← past? ':' rest)
  let (second, rest) ← twoDigits? 0 59 (← past? ':' rest)
  let (microsecond, rest) := microseconds rest
  return (⟨hour, minute, second, microsecond⟩, rest)

def date? (text : List Char) : Option (Date × List Char) := do
  let year := text.take 4
  if year.length < 4 || !year.all Char.isDigit then none
  let (month, rest) ← twoDigits? 1 12 (← past? '-' (text.drop 4))
  let (day, rest) ← twoDigits? 1 31 (← past? '-' rest)
  return (⟨valueOf 10 year, month, day⟩, rest)

/-- The offset of a time, in minutes, if there is one. -/
def offset? (text : List Char) : Option (Int × List Char) :=
  match text with
  | sign :: rest =>
    if sign = 'Z' || sign = 'z' then some (0, rest)
    else if sign = '+' || sign = '-' then do
      let (hours, rest) ← twoDigits? 0 23 rest
      let (minutes, rest) ← twoDigits? 0 59 (← past? ':' rest)
      let offset : Int := 60 * hours + minutes
      return (if sign = '-' then -offset else offset, rest)
    else none
  | [] => none

/-- The number of days of a month. -/
def daysOf (year month : Nat) : Nat :=
  if month = 2 then
    if year % 4 = 0 && (year % 100 != 0 || year % 400 = 0) then 29 else 28
  else if month ∈ [4, 6, 9, 11] then 30
  else 31

/-- Whether a date is on the calendar. -/
def Date.isValid (d : Date) : Bool := 0 < d.year && d.day ≤ daysOf d.year d.month

/-- A date, which a time may follow after a blank or a letter. -/
def dateTime? (text : List Char) : Option (Date × Option (Time × Option Int) × List Char) := do
  let (date, rest) ← date? text
  match rest with
  | mark :: later =>
    if mark = 'T' || mark = 't' || mark = ' ' then
      match time? later with
      | some (time, rest) =>
        match offset? rest with
        | some (offset, rest) => return (date, some (time, some offset), rest)
        | none => return (date, some (time, none), rest)
      | none => return (date, none, rest)
    else return (date, none, rest)
  | [] => return (date, none, rest)

/-- A value that is no string and holds no other.  What starts with a date is nothing else, also
when the date is not on the calendar. -/
def plainValue? (text : List Char) : Option (Value × List Char) :=
  match dateTime? text with
  | some (date, time, rest) =>
    if date.isValid then
      match time with
      | none => some (.date date, rest)
      | some (time, offset) => some (.dateTime date time offset, rest)
    else none
  | none =>
    ((time? text).map fun (time, rest) => (.time time, rest)).or
      ((boolean? text).or (number? text))

end Calculator.Toml
