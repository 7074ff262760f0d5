/-
  Calculator/Session.lean
  =======================
  **Sessions**: sources evaluated in turn on one memory (`eval_source`).  A source is scanned
  and read as a whole before anything of it is evaluated, so a lexical or
  syntax error leaves the memory as it was.  Every stage that succeeds leaves
  an event in the session's trace, and so does every completed assignment.
-/
import Calculator.Expr.Evaluate
import Calculator.Expr.Parse
import Calculator.Location
import Calculator.Token.Scan

namespace Calculator

/-! ### Errors -/

/-- The message of a lexical error. -/
def InvalidToken.message (e : InvalidToken) : String :=
  "Invalid token " ++ quoted (String.singleton e.char) ++ " at offset " ++ toString e.offset

/-- Why a source has no value (`LexError`, `ParseError`, `EvalError`). -/
inductive Error where
  | lexical (e : InvalidToken)
  | syntactic (e : SyntaxError)
  | evaluation (e : EvalError)
  deriving DecidableEq, Repr

namespace Error

/-- The message of an error. -/
def message : Error → String
  | lexical e => e.message
  | syntactic e => e.message
  | evaluation e => e.message

/-- The offset in the source at which an error points, if it points at one (`error_column`). -/
def column? : Error → Option Nat
  | lexical e => some e.offset
  | syntactic e => some e.place.column
  | evaluation _ => none

/-- The location in the source at which an error points. -/
def location? (e : Error) (source : String) : Option Location :=
  e.column?.map fun column => .ofOffset source column

end Error

/-! ### Evaluating sources -/

variable [CallStack]

/-- The expression that a source is, together with its tokens (`parse_expr`). -/
def readSource (source : String) : Except Error (List Token × Expr) :=
  match tokenize source with
  | .error e => .error (.lexical e)
  | .ok tokens =>
    match Expr.parse tokens with
    | .error e => .error (.syntactic e)
    | .ok e => .ok (tokens, e)

/-- A source is read if it is scanned and its tokens are read. -/
theorem readSource_eq_ok_iff {source : String} {tokens : List Token} {e : Expr} :
    readSource source = .ok (tokens, e) ↔
      tokenize source = .ok tokens ∧ Expr.parse tokens = .ok e := by
  rw [readSource]
  cases tokenize source with
  | error why => simp
  | ok found =>
    cases hparse : Expr.parse found with
    | error why =>
      constructor
      · simp [hparse]
      · rintro ⟨hfound, htokens⟩
        rw [Except.ok.inj hfound, htokens] at hparse
        simp at hparse
    | ok whole =>
      simp only [hparse, Except.ok.injEq, Prod.mk.injEq]
      constructor
      · rintro ⟨rfl, rfl⟩
        exact ⟨rfl, hparse⟩
      · rintro ⟨rfl, htokens⟩
        exact ⟨rfl, Except.ok.inj (hparse.symm.trans htokens)⟩

/-- What happens while a source is evaluated, as the log records it. -/
inductive Event where
  | tokenized (characters tokens : Nat)
  | parsed (tokens : Nat) (rendering : String)
  | assigned (name : String) (value : Binary64)
  | evaluated (tokens : Nat) (value : Binary64)
  deriving DecidableEq, Repr

/-- The text of an event. -/
def Event.message : Event → String
  | tokenized characters tokens =>
    "Tokenized " ++ toString characters ++ " chars into " ++ toString tokens ++ " tokens"
  | parsed tokens rendering => "Parsed " ++ toString tokens ++ " tokens: " ++ rendering
  | assigned name value => "Assigned " ++ name ++ " = " ++ value.debugText
  | evaluated tokens value =>
    "Evaluated " ++ toString tokens ++ " tokens to " ++ value.debugText

/-- The evaluation of one source: its events, its value or error, and the memory after it. -/
structure Turn where
  events : List Event
  outcome : Except Error Binary64
  memory : Memory

/-- Evaluates a source in a memory (`eval_source`). -/
def evaluateSource (source : String) (memory : Memory) : Turn :=
  match tokenize source with
  | .error e => ⟨[], .error (.lexical e), memory⟩
  | .ok tokens =>
    let scanned : Event := .tokenized source.length tokens.length
    match Expr.parse tokens with
    | .error e => ⟨[scanned], .error (.syntactic e), memory⟩
    | .ok e =>
      let result := e.evaluate memory
      let events := scanned :: .parsed tokens.length e.render
        :: result.writes.map fun (name, value) => .assigned name value
      match result.outcome with
      | .error why => ⟨events, .error (.evaluation why), result.memory⟩
      | .ok value => ⟨events ++ [.evaluated tokens.length value], .ok value, result.memory⟩

end Calculator
