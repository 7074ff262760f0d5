/-
  Calculator/CommandLine.lean
  ===========================
  **The command line** (`calc`).  The words of an expression are joined with
  spaces and evaluated once; without any word the interactive prompt starts.
  Options may stand anywhere before a double dash.  A word that starts with a dash
  and is no option belongs to the expression, so that a sum may start with a
  minus.
-/
import Calculator.Prompt

namespace Calculator.CommandLine

/-! ### Options -/

/-- What the arguments ask for. -/
structure Options where
  /-- The words of the expression. -/
  words : List String
  /-- The settings file to read instead of the usual one. -/
  file : Option String
  /-- The level of the log. -/
  level : Option String
  /-- Whether canonical texts are printed. -/
  tree : Bool
  /-- Whether only the version is asked for. -/
  version : Bool
  deriving DecidableEq, Repr

namespace Options

/-- No argument. -/
def none : Options := ⟨[], .none, .none, false, false⟩

/-- Adds a word of the expression. -/
def addWord (o : Options) (word : String) : Options := { o with words := o.words ++ [word] }

end Options

/-- An option with a value. -/
inductive Setting where
  | file
  | level

/-- Gives an option its value.  A later value replaces an earlier one. -/
def Setting.set (value : String) (o : Options) : Setting → Options
  | file => { o with file := some value }
  | level => { o with level := some value }

/-- What one argument is. -/
inductive Argument where
  /-- A word of the expression. -/
  | word
  /-- Options without values. -/
  | flags (apply : Options → Options)
  /-- An option whose value is in the argument itself. -/
  | given (setting : Setting) (value : String) (apply : Options → Options)
  /-- An option whose value is the next argument. -/
  | awaiting (setting : Setting) (apply : Options → Options)
  /-- An option with a value that it does not take. -/
  | misused

/-- The flags and the value of letters after a single dash.  Letters that are no options stay
together as a word. -/
def lettersOf : List Char → (other : List Char) → (Options → Options) → Argument
  | [], other, apply =>
    .flags fun o =>
      if other = [] then apply o else (apply o).addWord (String.ofList ('-' :: other))
  | 'c' :: rest, other, apply =>
    let apply o :=
      if other = [] then apply o else (apply o).addWord (String.ofList ('-' :: other))
    if rest = [] then .awaiting .file apply else .given .file (String.ofList rest) apply
  | 'v' :: rest, other, apply => lettersOf rest other fun o => { apply o with version := true }
  | letter :: rest, other, apply => lettersOf rest (other ++ [letter]) apply

/-- An argument as an option with two dashes, if it is one. -/
def longOption? (text : List Char) : Option Argument :=
  let name := String.ofList (text.takeWhile (· ≠ '='))
  let value := text.drop name.length
  let valued (setting : Setting) : Argument :=
    match value with
    | [] => .awaiting setting id
    | _ :: chars => .given setting (String.ofList chars) id
  let flag (apply : Options → Options) : Argument :=
    if value = [] then .flags apply else .misused
  match name with
  | "--config" => some (valued .file)
  | "--log-level" => some (valued .level)
  | "--tree" => some (flag fun o => { o with tree := true })
  | "--version" => some (flag fun o => { o with version := true })
  | _ => none

/-- What an argument is.  Two dashes alone are not looked at here. -/
def Argument.of (argument : String) : Argument :=
  let text := argument.toList
  match longOption? text, text with
  | some found, _ => found
  | none, '-' :: '-' :: _ => .word
  | none, '-' :: c :: rest => lettersOf (c :: rest) [] id
  | none, _ => .word

/-- Takes the arguments in turn; nothing when an option is misused or lacks its value.  After
two dashes every argument is a word. -/
def optionsFrom (o : Options) : List String → Option Options
  | [] => some o
  | argument :: rest =>
    if argument = "--" then some { o with words := o.words ++ rest }
    else
      match Argument.of argument with
      | .word => optionsFrom (o.addWord argument) rest
      | .flags apply => optionsFrom (apply o) rest
      | .given setting value apply => optionsFrom (setting.set value (apply o)) rest
      | .awaiting setting apply =>
        match rest with
        | [] => none
        | value :: rest => optionsFrom (setting.set value (apply o)) rest
      | .misused => none

/-- What the arguments ask for. -/
def options? (arguments : List String) : Option Options := optionsFrom .none arguments

/-! ### What to do -/

/-- What a run does. -/
inductive Plan where
  /-- Complains about the arguments. -/
  | usage
  /-- Shows the version. -/
  | version
  /-- Refuses the settings of a file. -/
  | refused (file : String) (why : SettingsError)
  /-- Breaks off while the settings are checked. -/
  | broken
  /-- Evaluates a source once. -/
  | once (source : String) (tree : Bool)
  /-- Starts the prompt. -/
  | prompt (settings : Settings) (tree : Bool)

/-- A path without the steps that stay in place. -/
def plainPath (path : String) : String :=
  let steps := (path.splitOn "/").filter (· ≠ ".")
  "/".intercalate steps

/-- What a run does with its arguments, the files that it can read, and the level in the
environment.  The version comes before everything else, and a settings file that is asked
for has to be a file. -/
def planFor (room : Nat) (arguments : List String) (fileAt : String → Option String)
    (level : Option String) : Plan :=
  match options? arguments with
  | none => .usage
  | some o =>
    if o.version then .version
    else
      let name := (o.file.map plainPath).getD settingsFile
      let file := fileAt name
      if o.file.isSome && file.isNone then .usage
      else
        match Settings.resolve Toml.read? room file o.file.isSome level with
        | .error (.refused why) => .refused name why
        | .error _ => .broken
        | .ok settings =>
          if o.words = [] then .prompt settings o.tree
          else .once (" ".intercalate o.words) o.tree

/-! ### Doing it -/

/-- How a run ends: its exit code, and what is on its two outputs. -/
structure Ending where
  code : Nat
  out : String
  err : String
  deriving DecidableEq, Repr

/-- What has been written to an output. -/
def writtenTo (stream : Stream) (written : List Written) : String :=
  String.join ((written.filter fun w => w.print.stream = stream).map Written.text)

/-- How a run ends that does nothing but a step.  What the step raises ends the run. -/
def Ending.of {α : Type} (codeOf : α → Nat) (x : Action α) : Ending :=
  let (result, c) := x.run ⟨.empty, []⟩
  let code :=
    match result with
    | .ok a => codeOf a
    | .error _ => 1
  ⟨code, writtenTo .out c.written, writtenTo .err c.written⟩

/-- The version notice, with the entries of the environment left open (`version_callback`). -/
def versionNotice : String :=
  "CSC version " ++ Prompt.version
    ++ "\n\nEnvironment:\n  Python:\n  Platform:\n  Location:\n"

/-- Carries out a plan on what the terminal gives. -/
def Plan.carryOut [CallStack] [Terminal] (readings : List Prompt.Reading) : Plan → Ending
  | usage => ⟨2, "", "usage"⟩
  | version => ⟨0, versionNotice, ""⟩
  | refused file why => .of (fun _ => 2) (printError (why.message file) none)
  | broken => ⟨1, "", ""⟩
  | once source tree => .of (fun found => if found then 0 else 1) (evaluateLine tree source)
  | prompt settings tree => .of (fun _ => 0) (Prompt.session settings tree readings)

end Calculator.CommandLine
