/-
  Calculator/Location.lean
  ========================
  **Places in a source text** (`ErrorContext`), as a person counts them: lines and
  columns from one, together with the line itself, so that a message can mark the place.
  Only a line feed ends a line.
-/
namespace Calculator

/-- A line, a column, and the text of the line if it is known. -/
structure Location where
  line : Int
  column : Int
  snippet : Option String
  deriving DecidableEq, Repr

namespace Location

/-- The part of a text after its last line feed. -/
def lastLine (text : List Char) : List Char :=
  (text.reverse.takeWhile (· ≠ '\n')).reverse

/-- The location of an offset, which is first brought into the range of the source
(`from_source`). -/
def ofOffset (source : String) (offset : Int) : Location :=
  let text := source.toList
  let before := text.take offset.toNat
  let after := text.drop offset.toNat
  let lineStart := lastLine before
  { line := before.count '\n' + 1
    column := lineStart.length + 1
    snippet := some (String.ofList (lineStart ++ after.takeWhile (· ≠ '\n'))) }

/-- What stands before the line in a marked snippet: its number in at least four places and
a bar. -/
def margin (line : Int) : String :=
  let number := toString line
  String.ofList (List.replicate (4 - number.length) ' ') ++ number ++ " | "

/-- The line with its margin, and a mark under the column (`_format_snippet`). -/
def marked (line column : Int) (snippet : String) : String :=
  let indent := ((margin line).length + column - 1).toNat
  margin line ++ snippet ++ "\n" ++ String.ofList (List.replicate indent ' ') ++ "^^^"

/-- The location as text, with the marked line below it if the line is known (`format`). -/
def text (l : Location) : String :=
  let place := toString l.line ++ ":" ++ toString l.column
  match l.snippet with
  | none => place
  | some snippet => place ++ "\n" ++ marked l.line l.column snippet

end Location

end Calculator
