/-
  Calculator/Toml/Value.lean
  ==========================
  **Values of a TOML document**, and their texts in messages.

  A value need not have a text.  An integer of more than 4300 digits is never
  written in decimal, and the text of a container holds the texts of what is in
  it, so that containers that are nested too deeply use up the call stack.
-/
import Calculator.Number.Text
import Calculator.Text.Quoted

namespace Calculator.Toml

structure Date where
  year : Nat
  month : Nat
  day : Nat
  deriving DecidableEq, Repr

structure Time where
  hour : Nat
  minute : Nat
  second : Nat
  microsecond : Nat
  deriving DecidableEq, Repr

/-- A value of a document.  A table keeps the order of its keys.  The offset of a date with a time
is in minutes, and a local one has none. -/
inductive Value where
  | string (text : String)
  | integer (n : Int)
  | float (x : Binary64)
  | boolean (b : Bool)
  | date (d : Date)
  | time (t : Time)
  | dateTime (d : Date) (t : Time) (offset : Option Int)
  | array (items : List Value)
  | table (entries : List (String × Value))
  deriving Repr, Inhabited

/-- The entries of a table, by key. -/
abbrev Table := List (String × Value)

/-! ### Texts of dates and times -/

/-- A list of texts with commas between them. -/
def listed (texts : List String) : String := ", ".intercalate texts

def Date.numbers (d : Date) : List Nat := [d.year, d.month, d.day]

/-- The numbers of a time.  Zeros at the end are left out, but not the minute. -/
def Time.numbers (t : Time) : List Nat :=
  if t.microsecond ≠ 0 then [t.hour, t.minute, t.second, t.microsecond]
  else if t.second ≠ 0 then [t.hour, t.minute, t.second]
  else [t.hour, t.minute]

/-- The text of an offset, which is whole days and the seconds of a day. -/
def offsetText (minutes : Int) : String :=
  if minutes = 0 then "datetime.timezone.utc"
  else
    let days := minutes / 1440
    let seconds := 60 * (minutes % 1440)
    let parts := (if days = 0 then [] else ["days=" ++ toString days])
      ++ (if seconds = 0 then [] else ["seconds=" ++ toString seconds])
    "datetime.timezone(datetime.timedelta(" ++ listed parts ++ "))"

def dateTimeText (d : Date) (t : Time) (offset : Option Int) : String :=
  let zone := (offset.map fun minutes => "tzinfo=" ++ offsetText minutes).toList
  "datetime.datetime(" ++ listed ((d.numbers ++ t.numbers).map toString ++ zone) ++ ")"

/-! ### Texts of values -/

/-- Why a value has no text. -/
inductive TextFailure where
  /-- An integer is too long. -/
  | tooLong
  /-- Containers are nested too deeply. -/
  | tooDeep
  deriving DecidableEq, Repr

/-- The number of digits that an integer may have in a text. -/
def maxDigits : Nat := 4300

/-- The decimal text of an integer. -/
def integerText (n : Int) : Except TextFailure String :=
  if 10 ^ maxDigits ≤ n.natAbs then .error .tooLong else .ok (toString n)

namespace Value

mutual

/-- The text of a value in messages, if containers may stand in each other up to a depth. -/
def debugText (room : Nat) : Value → Except TextFailure String
  | .string text => .ok (quoted text)
  | .integer n => integerText n
  | .float x => .ok x.debugText
  | .boolean b => .ok (if b then "True" else "False")
  | .date d => .ok ("datetime.date(" ++ listed (d.numbers.map toString) ++ ")")
  | .time t => .ok ("datetime.time(" ++ listed (t.numbers.map toString) ++ ")")
  | .dateTime d t offset => .ok (dateTimeText d t offset)
  | .array items => (itemTexts room items).map fun texts => "[" ++ listed texts ++ "]"
  | .table entries => (entryTexts room entries).map fun texts => "\x7b" ++ listed texts ++ "\x7d"

/-- The texts of the items of an array. -/
def itemTexts : (room : Nat) → List Value → Except TextFailure (List String)
  | _, [] => .ok []
  | 0, _ :: _ => .error .tooDeep
  | room + 1, v :: rest => do
    let text ← v.debugText room
    let texts ← itemTexts (room + 1) rest
    return text :: texts

/-- The texts of the entries of a table. -/
def entryTexts : (room : Nat) → List (String × Value) → Except TextFailure (List String)
  | _, [] => .ok []
  | 0, _ :: _ => .error .tooDeep
  | room + 1, (key, v) :: rest => do
    let text ← v.debugText room
    let texts ← entryTexts (room + 1) rest
    return (quoted key ++ ": " ++ text) :: texts

end

end Value

end Calculator.Toml
