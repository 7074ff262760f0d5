/-
  Calculator/Main.lean
  ====================
  **The program** (`main`).  It reads the settings file and the environment, and
  prints what the command line's plan comes to.  The prompt answers every line as
  soon as it has been read.
-/
import Calculator.CommandLine

open Calculator Calculator.CommandLine

section Program

attribute [local instance] CallStack.unused Terminal.plain

/-- Prints on the standard output and the standard error. -/
def printBoth (out err : String) : IO Unit := do
  if out ≠ "" then
    IO.print out
    (← IO.getStdout).flush
  if err ≠ "" then
    IO.eprint err

/-- Carries out a step, prints what it has written, and gives its result and the memory after
it. -/
def perform {α : Type} (x : Action α) (memory : Memory) : IO (Except Raised α × Memory) := do
  let (result, c) := x.run ⟨memory, []⟩
  printBoth (writtenTo .out c.written) (writtenTo .err c.written)
  return (result, c.memory)

/-- The text of a file, if it can be read. -/
def readFile? (path : String) : IO (Option String) := do
  try
    return some (← IO.FS.readFile path)
  catch _ =>
    return none

/-- Reads lines and answers them until the input ends or something is raised. -/
partial def converseWith (settings : Settings) (tree : Bool) (memory : Memory) : IO UInt32 := do
  let _ ← perform (print (.prompt settings.prompt)) memory
  let line ← (← IO.getStdin).getLine
  if line = "" then
    let _ ← perform (Prompt.printFarewell false) memory
    return 0
  let text := (line.dropEndWhile '\n').toString
  if isBlankLine text then converseWith settings tree memory
  else
    match ← perform (evaluateLine tree text) memory with
    | (.ok _, memory) => converseWith settings tree memory
    | (.error _, _) => return 1

def main (arguments : List String) : IO UInt32 := do
  let path := (((options? arguments).bind Options.file).map plainPath).getD settingsFile
  let file ← readFile? path
  let level ← IO.getEnv levelVariable
  match planFor CallStack.room arguments (fun _ => file) level with
  | .prompt settings tree =>
    if settings.banner then
      let _ ← perform Prompt.printBanner .empty
    converseWith settings tree .empty
  | plan =>
    let ending := plan.carryOut []
    printBoth ending.out ending.err
    return ending.code.toUInt32

end Program
