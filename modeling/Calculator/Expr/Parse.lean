/-
  Calculator/Expr/Parse.lean
  ==========================
  **Reading tokens as an expression.**  A descent from an offset on reads an
  expression and leaves the tokens after it alone (`parse_tokens`); a whole list of
  tokens is an expression if none are left (`parse`).

  The procedures of a descent take their frames from the call stack of the
  interpreter, which holds a thousand.  Some are in use before the parser is
  entered, and a procedure needs a few more for its helpers (`peek`, `at`,
  `match`, `expect`, `advance`, `column`).  What is left is the room of the
  descent.  A descent that needs more is refused (the `RecursionError` that
  `parse_tokens` turns into a syntax error).
-/
import Calculator.Expr.Safety

namespace Calculator

/-- The call stack of the interpreter outside of the parser's procedures: the frames in use where
the parser is entered, together with those that the helpers of a procedure need. -/
class CallStack where
  inUse : Nat
  inUse_le : inUse ≤ 150

namespace CallStack

/-- The number of frames that the interpreter allows at once. -/
def recursionLimit : Nat := 1000

/-- The frames that are left to the parser's procedures. -/
def room [s : CallStack] : Nat := recursionLimit - s.inUse

theorem le_room [s : CallStack] : 850 ≤ room := by
  have hle := s.inUse_le
  simp only [room, recursionLimit]
  omega

theorem room_le [s : CallStack] : room ≤ 1000 := Nat.sub_le _ _

/-- A stack on which nothing is in use. -/
abbrev unused : CallStack := ⟨0, by decide⟩

end CallStack

namespace Expr

/-- Reads an expression from the token at an offset on, and gives the offset after it
(`parse_tokens`).  Tokens after the expression are no error. -/
def parseFrom (room : Option Nat) (tokens : List Token) (offset : Nat) :
    Except SyntaxError (Expr × Nat) :=
  ((Descent.start offset).run room tokens (Descent.halts_start tokens offset)).get
    (Descent.isSome_run room tokens offset)

/-- Reads a whole list of tokens as one expression. -/
def parseWithin (room : Option Nat) (tokens : List Token) : Except SyntaxError Expr :=
  match parseFrom room tokens 0 with
  | .ok (e, offset) =>
    if offset < tokens.length then .error (.inputLeft (placeAt tokens offset)) else .ok e
  | .error why => .error why

variable [CallStack]

/-- Reads a whole list of tokens as one expression, on the call stack of the interpreter
(`parse`). -/
def parse (tokens : List Token) : Except SyntaxError Expr :=
  parseWithin (some CallStack.room) tokens

end Expr

end Calculator
