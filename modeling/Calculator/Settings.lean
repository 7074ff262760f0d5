/-
  Calculator/Settings.lean
  ========================
  **Settings**: the prompt, whether a banner is shown, and the level of the log
  (`CscConfig`).  They come from a settings file in TOML (`load_config`) and from
  the environment, which overrides the file's level (`resolve_config`).  Every
  setting is optional.  A file with a value of the wrong kind is refused
  (`ConfigError`), and the first fault in the order of the checks is the one
  reported.

  The checks are steps that can also fail in another way, which no message
  foresees: a section may be no table, and the value of the level may have no
  text.  The reader of TOML is a parameter; it gives a table or finds the document
  malformed.
-/
import Calculator.Toml.Document

namespace Calculator

/-! ### Log levels -/

/-- The levels of the log (`_LOG_LEVELS`). -/
inductive LogLevel where
  | debug
  | info
  | warning
  | error
  | critical
  deriving DecidableEq, Repr

namespace LogLevel

/-- Every level, from the most to the least talkative. -/
def all : List LogLevel := [debug, info, warning, error, critical]

/-- The name of a level. -/
def name : LogLevel → String
  | debug => "DEBUG"
  | info => "INFO"
  | warning => "WARNING"
  | error => "ERROR"
  | critical => "CRITICAL"

/-- The upper-case form of a character.  Outside ASCII only the characters whose upper-case
form is an ASCII letter can occur in the name of a level. -/
def upperCase (c : Char) : Char :=
  if c = 'ı' then 'I' else if c = 'ſ' then 'S' else c.toUpper

/-- The level with a given name, in upper or lower case. -/
def ofName? (name : String) : Option LogLevel :=
  all.find? fun level => level.name.toList = name.toList.map upperCase

end LogLevel

/-! ### Errors -/

/-- Where a level comes from. -/
inductive LevelOrigin where
  | file
  | environment
  deriving DecidableEq, Repr

/-- Why settings are refused. -/
inductive SettingsError where
  /-- A file was asked for and is not there. -/
  | unreadable
  /-- The file is no TOML document. -/
  | malformed
  /-- The prompt is no text. -/
  | promptExpected
  /-- The banner setting is no truth value. -/
  | bannerExpected
  /-- The level is none of the levels.  The value is shown. -/
  | unknownLevel (value : String) (origin : LevelOrigin)
  deriving DecidableEq, Repr

/-- The name of the settings file. -/
def settingsFile : String := "csc.toml"

/-- The name of the environment variable that overrides the level. -/
def levelVariable : String := "CSC_LOG_LEVEL"

/-- The name by which messages about a file call the origin of a level. -/
def LevelOrigin.name (file : String) : LevelOrigin → String
  | .file => file
  | .environment => levelVariable

/-- The message of an error about the settings in a file. -/
def SettingsError.message (file : String) : SettingsError → String
  | unreadable => "Cannot read " ++ file
  | malformed => "Invalid TOML in " ++ file
  | promptExpected => "repl.prompt must be a string in " ++ file
  | bannerExpected => "repl.banner must be true or false in " ++ file
  | unknownLevel value origin =>
    "Invalid log level " ++ value ++ " in " ++ origin.name file ++ "; expected one of "
      ++ ", ".intercalate (LogLevel.all.map LogLevel.name)

/-- How settings fail. -/
inductive SettingsFailure where
  /-- They are refused with a message. -/
  | refused (why : SettingsError)
  /-- An entry is looked for in a section that is no table. -/
  | notTable (name : String)
  /-- The value of the level has no text. -/
  | textless (why : Toml.TextFailure)
  deriving DecidableEq, Repr

/-! ### Settings -/

/-- The settings of a run. -/
structure Settings where
  prompt : String
  banner : Bool
  level : LogLevel
  /-- Whether they were read from a file. -/
  fromFile : Bool
  deriving DecidableEq, Repr

namespace Settings

/-- The settings without a file. -/
def default : Settings := ⟨"> ", true, .warning, false⟩

/-- A section of a file, which is empty when it is missing. -/
def sectionOf (name : String) (file : Toml.Table) : Except SettingsFailure Toml.Table :=
  match file.lookup name with
  | none => .ok []
  | some (.table entries) => .ok entries
  | some _ => .error (.notTable name)

/-- The level that a value names, if it is a text. -/
def namedLevel? : Toml.Value → Option LogLevel
  | .string name => LogLevel.ofName? name
  | _ => none

/-- The level that a value names (`_normalize_level`).  The text of the value is needed first, to
look for a level of this name and to show it when there is none. -/
def levelOf (room : Nat) (value : Toml.Value) (origin : LevelOrigin) :
    Except SettingsFailure LogLevel :=
  match value.debugText room, namedLevel? value with
  | .error why, _ => .error (.textless why)
  | .ok _, some level => .ok level
  | .ok text, none => .error (.refused (.unknownLevel text origin))

/-- The prompt that a section asks for. -/
def promptOf (entries : Toml.Table) : Except SettingsFailure String :=
  match entries.lookup "prompt" with
  | none => .ok default.prompt
  | some (.string text) => .ok text
  | some _ => .error (.refused .promptExpected)

/-- Whether a section asks for a banner. -/
def bannerOf (entries : Toml.Table) : Except SettingsFailure Bool :=
  match entries.lookup "banner" with
  | none => .ok default.banner
  | some (.boolean b) => .ok b
  | some _ => .error (.refused .bannerExpected)

/-- The level that a section asks for. -/
def levelIn (room : Nat) (entries : Toml.Table) : Except SettingsFailure LogLevel :=
  match entries.lookup "level" with
  | none => .ok default.level
  | some value => levelOf room value .file

/-- The settings of a file: its sections for the prompt and the log, in this order. -/
def ofTable (room : Nat) (file : Toml.Table) : Except SettingsFailure Settings := do
  let repl ← sectionOf "repl" file
  let prompt ← promptOf repl
  let banner ← bannerOf repl
  let level ← levelIn room (← sectionOf "logging" file)
  return ⟨prompt, banner, level, true⟩

/-- The text of a file as it is read.  A carriage return ends a line too, alone or with a line
feed. -/
def plainText (text : String) : String :=
  String.ofList ((Toml.unifyLineEnds text.toList).map fun c => if c = '\r' then '\n' else c)

section Reading

variable (read? : String → Option Toml.Table) (room : Nat)

/-- The settings of the text of a file (`load_config`). -/
def ofText (text : String) : Except SettingsFailure Settings :=
  match read? (plainText text) with
  | none => .error (.refused .malformed)
  | some file => ofTable room file

/-- The settings from a file, if there is one, and the environment's level, if there is one
and it is not empty (`resolve_config`).  A file that was asked for has to be there. -/
def resolve (file : Option String) (required : Bool) (level : Option String) :
    Except SettingsFailure Settings := do
  let settings ←
    match file with
    | some text => ofText read? room text
    | none => if required then .error (.refused .unreadable) else .ok default
  match level.filter (· ≠ "") with
  | none => return settings
  | some name => return { settings with level := ← levelOf room (.string name) .environment }

end Reading

end Settings

/-! ### The version -/

/-- The version that a project file declares, if there is such a file and the version is not
empty, and otherwise the version of a program without one (`get_version`). -/
def declaredVersion (projectFile : Option String) : String :=
  let undeclared := "0.0.0"
  match projectFile.bind Toml.read? with
  | none => undeclared
  | some file =>
    match file.lookup "project" with
    | some (.table entries) =>
      match entries.lookup "version" with
      | some (.string version) => if version = "" then undeclared else version
      | _ => undeclared
    | _ => undeclared

end Calculator
