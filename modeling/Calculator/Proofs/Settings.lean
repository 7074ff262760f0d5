/-
  Calculator/Proofs/Settings.lean
  ===============================
  **How settings can fail.**  The checks of a settings file end in settings or in
  a refusal with a message, with two exceptions.  Before a check can look at an
  entry it looks for the section of the entry, and a section that is there but is
  no table breaks the run off without a message.  And the check of the level needs
  the text of its value, which some values do not have.  The sections are looked at
  in the order of the checks, so the one for the log is reached only if the entries
  of the prompt have passed.

  Everywhere else settings come with one of the five levels, or are refused.  The
  level is the environment's if the environment has one.  All of this holds for any
  reader of TOML that gives a table or finds the document malformed.
-/
import Calculator.Proofs.Toml.Value
import Calculator.Settings

namespace Calculator

/-! ### Names of levels -/

namespace LogLevel

theorem name_mem (level : LogLevel) :
    level.name ∈ ["DEBUG", "INFO", "WARNING", "ERROR", "CRITICAL"] := by
  cases level <;> decide

theorem name_of_ofName? {name : String} {level : LogLevel} (h : ofName? name = some level) :
    level.name.toList = name.toList.map upperCase := by
  have hfound := List.find?_some h
  exact of_decide_eq_true hfound

end LogLevel

namespace Settings

/-! ### Kinds of entries -/

/-- An entry that is missing or a table. -/
def isTableOrMissing : Option Toml.Value → Bool
  | none => true
  | some (.table _) => true
  | some _ => false

/-- An entry that is missing or a text. -/
def isTextOrMissing : Option Toml.Value → Bool
  | none => true
  | some (.string _) => true
  | some _ => false

/-- An entry that is missing or a truth value. -/
def isTruthOrMissing : Option Toml.Value → Bool
  | none => true
  | some (.boolean _) => true
  | some _ => false

/-- The entries of a section, none if it is no table. -/
def entriesOf (name : String) (file : Toml.Table) : Toml.Table :=
  match file.lookup name with
  | some (.table entries) => entries
  | _ => []

/-- The entries of the prompt and the banner pass their checks. -/
structure Passes (file : Toml.Table) : Prop where
  table : isTableOrMissing (file.lookup "repl") = true
  text : isTextOrMissing ((entriesOf "repl" file).lookup "prompt") = true
  truth : isTruthOrMissing ((entriesOf "repl" file).lookup "banner") = true

/-- How the checks of a file break off without a message. -/
inductive Breaks (room : Nat) (file : Toml.Table) : SettingsFailure → Prop where
  | repl (hrepl : isTableOrMissing (file.lookup "repl") = false) :
      Breaks room file (.notTable "repl")
  | logging (hpasses : Passes file) (hlogging : isTableOrMissing (file.lookup "logging") = false) :
      Breaks room file (.notTable "logging")
  | level {value : Toml.Value} {why : Toml.TextFailure} (hpasses : Passes file)
      (hlogging : isTableOrMissing (file.lookup "logging") = true)
      (hvalue : (entriesOf "logging" file).lookup "level" = some value)
      (htext : value.debugText room = .error why) : Breaks room file (.textless why)

/-! ### Outcomes that are foreseen -/

/-- A result, or a refusal with a message. -/
def IsForeseen {α : Type} (result : Except SettingsFailure α) : Prop :=
  (∃ a, result = .ok a) ∨ ∃ why, result = .error (.refused why)

theorem isForeseen_ok {α : Type} (a : α) : IsForeseen (.ok a) := Or.inl ⟨a, rfl⟩

theorem isForeseen_refused {α : Type} (why : SettingsError) :
    IsForeseen (.error (.refused why) : Except SettingsFailure α) :=
  Or.inr ⟨why, rfl⟩

theorem ok_bind {α β : Type} (a : α) (next : α → Except SettingsFailure β) :
    (Except.ok a >>= next) = next a := rfl

theorem error_bind {α β : Type} (why : SettingsFailure) (next : α → Except SettingsFailure β) :
    (Except.error why >>= next) = .error why := rfl

theorem exists_of_bind_eq_ok {α β : Type} {result : Except SettingsFailure α}
    {next : α → Except SettingsFailure β} {b : β} (h : result >>= next = .ok b) :
    ∃ a, result = .ok a ∧ next a = .ok b := by
  cases result with
  | error why => cases h
  | ok a => exact ⟨a, rfl, h⟩

theorem isForeseen_bind {α β : Type} {result : Except SettingsFailure α}
    {next : α → Except SettingsFailure β} (h : IsForeseen result)
    (hnext : ∀ a, IsForeseen (next a)) : IsForeseen (result >>= next) := by
  obtain ⟨a, rfl⟩ | ⟨why, rfl⟩ := h
  · exact hnext a
  · exact isForeseen_refused why

/-! ### The checks -/

theorem sectionOf_of_isTableOrMissing {name : String} {file : Toml.Table}
    (h : isTableOrMissing (file.lookup name) = true) :
    sectionOf name file = .ok (entriesOf name file) := by
  rw [sectionOf, entriesOf]
  rcases hentry : file.lookup name with _ | value
  · rfl
  · rw [hentry] at h
    cases value with
    | table entries => rfl
    | _ => simp [isTableOrMissing] at h

theorem sectionOf_of_broken {name : String} {file : Toml.Table}
    (h : isTableOrMissing (file.lookup name) = false) :
    sectionOf name file = .error (.notTable name) := by
  rw [sectionOf]
  rcases hentry : file.lookup name with _ | value
  · simp [hentry, isTableOrMissing] at h
  · rw [hentry] at h
    cases value with
    | table entries => simp [isTableOrMissing] at h
    | _ => rfl

theorem promptOf_cases (entries : Toml.Table) :
    (isTextOrMissing (entries.lookup "prompt") = true ∧ ∃ text, promptOf entries = .ok text) ∨
      isTextOrMissing (entries.lookup "prompt") = false ∧
        promptOf entries = .error (.refused .promptExpected) := by
  rw [promptOf]
  rcases entries.lookup "prompt" with _ | value
  · exact Or.inl ⟨rfl, _, rfl⟩
  · cases value with
    | string text => exact Or.inl ⟨rfl, _, rfl⟩
    | _ => exact Or.inr ⟨rfl, rfl⟩

theorem bannerOf_cases (entries : Toml.Table) :
    (isTruthOrMissing (entries.lookup "banner") = true ∧ ∃ b, bannerOf entries = .ok b) ∨
      isTruthOrMissing (entries.lookup "banner") = false ∧
        bannerOf entries = .error (.refused .bannerExpected) := by
  rw [bannerOf]
  rcases entries.lookup "banner" with _ | value
  · exact Or.inl ⟨rfl, _, rfl⟩
  · cases value with
    | boolean b => exact Or.inl ⟨rfl, _, rfl⟩
    | _ => exact Or.inr ⟨rfl, rfl⟩

theorem levelOf_of_ok {room : Nat} {value : Toml.Value} {text : String} (origin : LevelOrigin)
    (h : value.debugText room = .ok text) : IsForeseen (levelOf room value origin) := by
  rw [levelOf, h]
  cases namedLevel? value with
  | none => exact isForeseen_refused _
  | some level => exact isForeseen_ok level

theorem levelOf_of_error {room : Nat} {value : Toml.Value} {why : Toml.TextFailure}
    (origin : LevelOrigin) (h : value.debugText room = .error why) :
    levelOf room value origin = .error (.textless why) := by
  rw [levelOf, h]

theorem namedLevel?_of_levelOf {room : Nat} {value : Toml.Value} {origin : LevelOrigin}
    {level : LogLevel} (h : levelOf room value origin = .ok level) :
    namedLevel? value = some level := by
  unfold levelOf at h
  split at h
  · cases h
  · next hlevel => rw [hlevel, Except.ok.inj h]
  · cases h

/-! ### Files -/

/-- The checks of a file come to its section for the log if the prompt and the banner pass. -/
theorem ofTable_of_passes (room : Nat) {file : Toml.Table} (h : Passes file) :
    ∃ prompt banner, ofTable room file =
      sectionOf "logging" file >>= levelIn room >>= fun level =>
        .ok ⟨prompt, banner, level, true⟩ := by
  rw [ofTable, sectionOf_of_isTableOrMissing h.table, ok_bind]
  obtain ⟨-, prompt, hprompt⟩ | ⟨htext, -⟩ := promptOf_cases (entriesOf "repl" file)
  · obtain ⟨-, banner, hbanner⟩ | ⟨htruth, -⟩ := bannerOf_cases (entriesOf "repl" file)
    · refine ⟨prompt, banner, ?_⟩
      rw [hprompt, ok_bind, hbanner, ok_bind, bind_assoc]
      rfl
    · simp [h.truth] at htruth
  · simp [h.text] at htext

/-- Nothing after the prompt and the banner is checked if one of them does not pass. -/
theorem ofTable_of_not_passes {room : Nat} {file : Toml.Table}
    (htable : isTableOrMissing (file.lookup "repl") = true) (h : ¬Passes file) :
    IsForeseen (ofTable room file) := by
  rw [ofTable, sectionOf_of_isTableOrMissing htable, ok_bind]
  obtain ⟨htext, prompt, hprompt⟩ | ⟨-, hprompt⟩ := promptOf_cases (entriesOf "repl" file)
  · obtain ⟨htruth, -⟩ | ⟨-, hbanner⟩ := bannerOf_cases (entriesOf "repl" file)
    · exact absurd ⟨htable, htext, htruth⟩ h
    · rw [hprompt, ok_bind, hbanner, error_bind]
      exact isForeseen_refused .bannerExpected
  · rw [hprompt, error_bind]
    exact isForeseen_refused .promptExpected

theorem ofTable_of_breaks {room : Nat} {file : Toml.Table} {failure : SettingsFailure}
    (h : Breaks room file failure) : ofTable room file = .error failure := by
  cases h with
  | repl hrepl => rw [ofTable, sectionOf_of_broken hrepl, error_bind]
  | logging hpasses hlogging =>
    obtain ⟨prompt, banner, hrest⟩ := ofTable_of_passes room hpasses
    rw [hrest, sectionOf_of_broken hlogging, error_bind, error_bind]
  | level hpasses hlogging hvalue htext =>
    obtain ⟨prompt, banner, hrest⟩ := ofTable_of_passes room hpasses
    rw [hrest, sectionOf_of_isTableOrMissing hlogging, ok_bind, levelIn, hvalue]
    simp only
    rw [levelOf_of_error .file htext, error_bind]

/-- Where the checks of a file do not break off, they end in settings or a refusal. -/
theorem ofTable_cases (room : Nat) (file : Toml.Table) :
    IsForeseen (ofTable room file) ∨ ∃ failure, Breaks room file failure := by
  cases htable : isTableOrMissing (file.lookup "repl") with
  | false => exact Or.inr ⟨_, .repl htable⟩
  | true =>
    by_cases hpasses : Passes file
    case neg => exact Or.inl (ofTable_of_not_passes htable hpasses)
    cases hlogging : isTableOrMissing (file.lookup "logging") with
    | false => exact Or.inr ⟨_, .logging hpasses hlogging⟩
    | true =>
      obtain ⟨prompt, banner, hrest⟩ := ofTable_of_passes room hpasses
      have hforeseen : IsForeseen (levelIn room (entriesOf "logging" file)) →
          IsForeseen (ofTable room file) := by
        intro hlevel
        rw [hrest, sectionOf_of_isTableOrMissing hlogging, ok_bind]
        exact isForeseen_bind hlevel fun level => isForeseen_ok _
      cases hvalue : (entriesOf "logging" file).lookup "level" with
      | none => exact Or.inl (hforeseen (by rw [levelIn, hvalue]; exact isForeseen_ok _))
      | some value =>
        cases htext : value.debugText room with
        | error why => exact Or.inr ⟨_, .level hpasses hlogging hvalue htext⟩
        | ok text =>
          left
          apply hforeseen
          rw [levelIn, hvalue]
          exact levelOf_of_ok .file htext

/-! ### The environment -/

/-- The environment's level, if there is one and it is not empty, is the level of the
settings. -/
def Overrides (level : Option String) (settings : Settings) : Prop :=
  ∀ name, level = some name → name ≠ "" →
    settings.level.name.toList = name.toList.map LogLevel.upperCase

/-- The settings after the environment has had its say. -/
def override (room : Nat) (level : Option String) (settings : Settings) :
    Except SettingsFailure Settings :=
  match level.filter (· ≠ "") with
  | none => .ok settings
  | some name =>
    levelOf room (.string name) .environment >>= fun named => .ok { settings with level := named }

/-- The environment's level is a text. -/
theorem isForeseen_override (room : Nat) (level : Option String) (settings : Settings) :
    IsForeseen (override room level settings) := by
  unfold override
  cases level.filter (· ≠ "") with
  | none => exact isForeseen_ok settings
  | some name =>
    apply isForeseen_bind (levelOf_of_ok .environment rfl)
    intro named
    exact isForeseen_ok _

theorem overrides_of_override {room : Nat} {level : Option String} {own settings : Settings}
    (h : override room level own = .ok settings) : Overrides level settings := by
  intro name hlevel hname
  have hgiven : level.filter (· ≠ "") = some name := by simp [hlevel, hname]
  simp only [override, hgiven] at h
  obtain ⟨named, hnamed, hsettings⟩ := exists_of_bind_eq_ok h
  obtain rfl : { own with level := named } = settings := Except.ok.inj hsettings
  exact LogLevel.name_of_ofName? (namedLevel?_of_levelOf hnamed)

/-! ### The settings of a run -/

section Run

variable (read? : String → Option Toml.Table) (room : Nat)

/-- How a run breaks off: there is a file, and a document in it whose checks break off. -/
def BreaksOff (file : Option String) (failure : SettingsFailure) : Prop :=
  ∃ text document, file = some text ∧ read? (plainText text) = some document ∧
    Breaks room document failure

/-- The settings of the file, or those without a file. -/
def ownSettings (file : Option String) (required : Bool) : Except SettingsFailure Settings :=
  match file with
  | some text => ofText read? room text
  | none => if required then .error (.refused .unreadable) else .ok default

theorem resolve_eq (file : Option String) (required : Bool) (level : Option String) :
    resolve read? room file required level
      = ownSettings read? room file required >>= override room level := by
  cases file with
  | some text => rfl
  | none => cases required <;> rfl

theorem resolve_of_breaksOff {file : Option String} {failure : SettingsFailure}
    (h : BreaksOff read? room file failure) (required : Bool) (level : Option String) :
    resolve read? room file required level = .error failure := by
  obtain ⟨text, document, rfl, hdocument, hbreaks⟩ := h
  rw [resolve_eq, ownSettings, ofText, hdocument]
  simp only
  rw [ofTable_of_breaks hbreaks, error_bind]

theorem ownSettings_cases (file : Option String) (required : Bool) :
    IsForeseen (ownSettings read? room file required) ∨
      ∃ failure, BreaksOff read? room file failure := by
  cases file with
  | none =>
    left
    cases required with
    | true => exact isForeseen_refused .unreadable
    | false => exact isForeseen_ok default
  | some text =>
    rw [ownSettings, ofText]
    cases hdocument : read? (plainText text) with
    | none => exact Or.inl (isForeseen_refused .malformed)
    | some document =>
      obtain hforeseen | ⟨failure, hbreaks⟩ := ofTable_cases room document
      · exact Or.inl hforeseen
      · exact Or.inr ⟨failure, text, document, rfl, hdocument, hbreaks⟩

/-- A run that does not break off ends in settings or a refusal. -/
theorem resolve_cases (file : Option String) (required : Bool) (level : Option String) :
    IsForeseen (resolve read? room file required level) ∨
      ∃ failure, BreaksOff read? room file failure := by
  rw [resolve_eq]
  exact (ownSettings_cases read? room file required).imp_left fun hown =>
    isForeseen_bind hown (isForeseen_override room level)

theorem breaksOff_iff (file : Option String) (required : Bool) (level : Option String)
    (failure : SettingsFailure) :
    BreaksOff read? room file failure ↔
      resolve read? room file required level = .error failure ∧
        ∀ why, failure ≠ .refused why := by
  constructor
  · intro h
    refine ⟨resolve_of_breaksOff read? room h required level, ?_⟩
    rintro why rfl
    obtain ⟨text, document, -, -, hbreaks⟩ := h
    cases hbreaks
  · rintro ⟨hfails, hne⟩
    obtain (⟨settings, hok⟩ | ⟨why, hrefused⟩) | ⟨other, hbreaks⟩ :=
      resolve_cases read? room file required level
    · rw [hfails] at hok
      cases hok
    · rw [hfails] at hrefused
      exact absurd (Except.error.inj hrefused) (hne why)
    · have hother := resolve_of_breaksOff read? room hbreaks required level
      rw [hfails] at hother
      rwa [Except.error.inj hother]

/-- Settings come with one of the five levels, the environment's if it has one, or are refused
with a message, unless the checks of the file break off: a section is no table where the checks
come to it, or the value of the level has no text.  A value has none exactly when it holds an
integer of more than 4300 digits or is nested more deeply than there is room. -/
theorem resolve_foreseen_iff (file : Option String) (required : Bool) (level : Option String) :
    (((∃ settings, resolve read? room file required level = .ok settings ∧
          settings.level.name ∈ ["DEBUG", "INFO", "WARNING", "ERROR", "CRITICAL"] ∧
          Overrides level settings) ∨
        ∃ why, resolve read? room file required level = .error (.refused why)) ↔
      ¬∃ failure, BreaksOff read? room file failure) ∧
    (∀ failure, BreaksOff read? room file failure ↔
      resolve read? room file required level = .error failure ∧
        ∀ why, failure ≠ .refused why) ∧
    ∀ value : Toml.Value, (∃ why, value.debugText room = .error why) ↔
      room < value.depth ∨ ∃ n ∈ value.integers, 10 ^ Toml.maxDigits ≤ n.natAbs := by
  refine ⟨⟨?_, ?_⟩, breaksOff_iff read? room file required level, fun value =>
    Toml.Value.debugText_fails_iff room value⟩
  · rintro hforeseen ⟨failure, hbreaks⟩
    obtain ⟨hfails, hne⟩ := (breaksOff_iff read? room file required level failure).mp hbreaks
    rw [hfails] at hforeseen
    obtain ⟨settings, hok, -⟩ | ⟨why, hrefused⟩ := hforeseen
    · cases hok
    · exact hne why (Except.error.inj hrefused)
  · intro hnone
    obtain (⟨settings, hok⟩ | hrefused) | hbreaks := resolve_cases read? room file required level
    · rw [resolve_eq] at hok
      obtain ⟨own, -, hoverride⟩ := exists_of_bind_eq_ok hok
      rw [resolve_eq]
      exact Or.inl ⟨settings, hok, settings.level.name_mem, overrides_of_override hoverride⟩
    · exact Or.inr hrefused
    · exact absurd hbreaks hnone

end Run

/-- A number in the place of the section for the prompt is no table. -/
theorem resolve_replNumber :
    ¬((∃ settings, resolve Toml.read? 1000 (some "repl = 3\n") false none = .ok settings) ∨
      ∃ why, resolve Toml.read? 1000 (some "repl = 3\n") false none = .error (.refused why)) := by
  have hfound : ((Toml.read? (plainText "repl = 3\n")).map fun document =>
      isTableOrMissing (document.lookup "repl")) = some false := by decide +kernel
  obtain ⟨document, hdocument, hrepl⟩ := Option.map_eq_some_iff.mp hfound
  have hbreaks : Breaks 1000 document (.notTable "repl") := .repl hrepl
  rw [resolve_of_breaksOff Toml.read? 1000 ⟨_, document, rfl, hdocument, hbreaks⟩]
  simp

end Settings

end Calculator
