/-
  Calculator/Prompt.lean
  ======================
  **The interactive prompt** (`run_repl`).  Every line is evaluated in one memory,
  and its result or error is printed (`evaluate_line`).  A blank line is skipped,
  and the prompt ends with its input or with an interrupt.

  The stages of a line are steps that may raise something, and only the errors of
  the calculator are caught (`CscError`): a stage that reads past the end of a
  list, or a text that cannot be written, would end the prompt.

  Texts are printed by a console library, which is a parameter: a terminal says
  what it writes for a text, and which texts it cannot write.
-/
import Calculator.Session
import Calculator.Settings
import Calculator.Text.Blank

namespace Calculator

/-! ### Output -/

/-- The standard output (`console`) and the standard error (`err_console`). -/
inductive Stream where
  | out
  | err
  deriving DecidableEq, Repr

/-- How a text is set off from others (`STYLES`). -/
inductive Style where
  | plain
  | title
  | subtitle
  | error
  | muted
  | tree
  deriving DecidableEq, Repr

/-- What the console library is asked for. -/
inductive Print where
  /-- A text on lines of its own, which are not broken (`console.print`). -/
  | line (stream : Stream) (style : Style) (text : String)
  /-- The text before an input (`console.input`). -/
  | prompt (text : String)
  deriving DecidableEq, Repr

/-- Where a text is printed. -/
def Print.stream : Print → Stream
  | line stream _ _ => stream
  | prompt _ => .out

/-- What the console library writes for a text; nothing if it cannot be written. -/
class Terminal where
  written? : Print → Option String

/-- The terminal writes every text. -/
class Terminal.Writes [Terminal] : Prop where
  isSome_written? : ∀ p, (Terminal.written? p).isSome

/-- A terminal that writes texts as they are. -/
abbrev Terminal.plain : Terminal where
  written? := fun
    | .line _ _ text => some (text ++ "\n")
    | .prompt text => some text

instance : @Terminal.Writes .plain := @Terminal.Writes.mk .plain fun p => by cases p <;> rfl

/-- A text that has been printed, and what was written for it. -/
structure Written where
  print : Print
  text : String
  deriving DecidableEq, Repr

/-! ### Steps -/

/-- What ends a step before its end. -/
inductive Raised where
  /-- An error of the calculator (`CscError`). -/
  | known (e : Error)
  /-- A list is read past its end. -/
  | outOfRange
  /-- A text cannot be written. -/
  | unwritable
  deriving DecidableEq, Repr

/-- What a conversation has reached: the memory, and what has been written. -/
structure Conversation where
  memory : Memory
  written : List Written
  deriving DecidableEq, Repr

/-- A step of a conversation.  What it has done before something is raised stays done. -/
abbrev Action := ExceptT Raised (StateM Conversation)

namespace Action

/-- Carries out a step. -/
def run {α : Type} (x : Action α) (c : Conversation) : Except Raised α × Conversation :=
  StateT.run (ExceptT.run x) c

/-- The outcome of a stage; there is none if it has read past the end of a list. -/
def ofOutcome {ε α : Type} (error : ε → Error) : Option (Except ε α) → Action α
  | none => throw .outOfRange
  | some (.error why) => throw (.known (error why))
  | some (.ok a) => return a

end Action

section Lines

variable [CallStack] [Terminal]

/-- Prints a text. -/
def print (p : Print) : Action Unit :=
  match Terminal.written? p with
  | none => throw .unwritable
  | some text => modify fun c => { c with written := c.written ++ [⟨p, text⟩] }

/-! ### One line -/

/-- Scans a line (`tokenize`). -/
def scanLine (line : String) : Action (List Token) :=
  .ofOutcome .lexical (some (tokenize line))

/-- Reads the tokens of a line (`parse`). -/
def readLine (tokens : List Token) : Action Expr := do
  let (e, offset) ← .ofOutcome .syntactic
    ((Expr.Descent.start 0).run (some CallStack.room) tokens (Expr.Descent.halts_start tokens 0))
  if offset < tokens.length then
    throw (.known (.syntactic (.inputLeft (Expr.placeAt tokens offset))))
  return e

/-- Prints the canonical text of an expression (`print_tree`). -/
def printTree (e : Expr) : Action Unit :=
  match (Expr.renderTasks [.visit e] []).bind List.head? with
  | none => throw .outOfRange
  | some text => print (.line .out .tree text)

/-- Evaluates an expression in the memory (`evaluate`). -/
def evaluateRead (e : Expr) : Action Binary64 := do
  let c ← get
  match Expr.runTasks [.visit e] ⟨[], c.memory, []⟩ with
  | none => throw .outOfRange
  | some result =>
    set { c with memory := result.memory }
    .ofOutcome .evaluation (some result.outcome)

/-- Prints a result (`print_result`). -/
def printResult (value : Binary64) : Action Unit := print (.line .out .plain value.numberText)

/-- Prints an error, and where it is in the source if that is known (`print_error`). -/
def printError (message : String) (location : Option Location) : Action Unit := do
  print (.line .err .error ("✗ " ++ message))
  match location with
  | none => return
  | some location => print (.line .err .muted location.text)

/-- The value of a line.  With `tree` its canonical text is printed as soon as it has been
read. -/
def attemptLine (tree : Bool) (line : String) : Action Binary64 := do
  let e ← readLine (← scanLine line)
  if tree then printTree e
  evaluateRead e

/-- Evaluates a line, and prints its result or its error (`evaluate_line`).  Gives whether the line
has a value. -/
def evaluateLine (tree : Bool) (line : String) : Action Bool := do
  let found ← tryCatch (do return some (← attemptLine tree line)) fun
    | .known e => do
      printError e.message (e.location? line)
      return none
    | raised => throw raised
  match found with
  | none => return false
  | some value =>
    printResult value
    return true

/-! ### The loop -/

namespace Prompt

/-- The version that the banner and the version notice show. -/
def version : String := "0.3.0"

/-- The logo of the banner (`LOGO`). -/
def logo : String :=
  "\n ██████ ███████  ██████\n██      ██      ██\n██      ███████ ██\n██           ██ ██\n"
    ++ " ██████ ███████  ██████\n"

/-- Prints the banner (`print_banner`). -/
def printBanner : Action Unit := do
  print (.line .out .title logo)
  print (.line .out .subtitle version)

/-- What the terminal gives when a line is asked for. -/
inductive Reading where
  | line (text : String)
  | interrupt
  | ending
  deriving DecidableEq, Repr

/-- Prints how the input ended (`print_message`). -/
def printFarewell (interrupted : Bool) : Action Unit :=
  print (.line .out .muted (if interrupted then "CTRL-C" else "CTRL-D"))

/-- Asks for lines and evaluates them until the input ends or is interrupted.  There is no
input after the last of the readings. -/
def loop (settings : Settings) (tree : Bool) (readings : List Reading) : Action Unit := do
  print (.prompt settings.prompt)
  match readings with
  | .line text :: rest =>
    unless isBlankLine text do
      let _ ← evaluateLine tree text
    loop settings tree rest
  | .interrupt :: _ => printFarewell true
  | .ending :: _ => printFarewell false
  | [] => printFarewell false

/-- A whole session of the prompt (`run_repl`). -/
def session (settings : Settings) (tree : Bool) (readings : List Reading) : Action Unit := do
  if settings.banner then printBanner
  loop settings tree readings

/-- The lines of an input.  The last one need not have an end. -/
def linesOf (input : String) : List String :=
  let lines := input.splitOn "\n"
  if lines.getLast? = some "" then lines.dropLast else lines

/-- What the terminal gives for an input, which may end with an interrupt. -/
def readingsOf (input : String) (interrupted : Bool) : List Reading :=
  (linesOf input).map .line ++ [if interrupted then .interrupt else .ending]

end Prompt

end Lines

end Calculator
