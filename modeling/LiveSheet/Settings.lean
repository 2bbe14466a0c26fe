import LiveSheet.Result.Rounding
import LiveSheet.Value.YamlReader

/-!
# Settings

The settings of a sheet, with a section for evaluation and one for display. They are given as a
mapping, in a file or by argument. What is not given has its default. Keys of a mapping that are not
known are ignored with a warning; as an argument they are refused. Two settings have to be numbers
that are not negative, and every other one is kept as it is given, even a section that is no
mapping.
-/

namespace LiveSheet

/-- The settings of evaluation. -/
structure EvaluationSettings where
  /-- Whether the exact evaluator comes first. -/
  exact : Value := .bool true
  /-- The decimals to which results are rounded. -/
  precision : Numeric := .int 6

/-- The settings of display. -/
structure RenderSettings where
  /-- Whether the typesetter comes first. -/
  typeset : Value := .bool true
  wholeDigits : Value := .int 6
  fractionDigits : Value := .int 3
  mantissaDigits : Value := .int 4

/-- A section of the settings: its settings, or what was given instead of a mapping. -/
inductive Section (α : Type) where
  | settings (a : α)
  | other (v : Value)

/-- The settings of a section, or the default if there are none. -/
def Section.getD {α : Type} (s : Section α) (default : α) : α :=
  match s with
  | settings a => a
  | other _ => default

/-- The settings of a sheet. -/
structure Settings where
  verbose : Value := .bool false
  debug : Value := .bool false
  /-- The seconds for which a node waits for further edits. -/
  delay : Numeric := .float 0.1
  suggestionLimit : Value := .int 8
  evaluation : Section EvaluationSettings := .settings {}
  render : Section RenderSettings := .settings {}

/-- How settings are given. -/
inductive SettingsForm where
  | mapping
  | arguments
deriving Repr, DecidableEq

/-- Why settings are refused. -/
inductive SettingsError where
  | notAMapping (v : Value)
  | negative (key : String) (n : Numeric)
  | notANumber (form : SettingsForm) (v : Value)
  | unknownArgument (part key : String)
  | unreadableFile

/-- The message of an error; what is wrong with a file is not told. -/
def SettingsError.message? : SettingsError → Option String
  | notAMapping v => some ("Configuration must be a mapping, got " ++ v.kindName)
  | negative key n => some (key ++ " must be >= 0, got " ++ n.toValue.asText)
  | notANumber _ v =>
    some ("'<' not supported between instances of '" ++ v.kindName ++ "' and 'int'")
  | unknownArgument part key =>
    some (part ++ ".__init__() got an unexpected keyword argument '" ++ key ++ "'")
  | unreadableFile => none

/-- A warning that keys of a part of the settings are not known. -/
structure SettingsWarning where
  part : String
  keys : List String
deriving Repr, DecidableEq

/-- The message of a warning. -/
def SettingsWarning.message (w : SettingsWarning) : String :=
  "Ignoring unknown " ++ w.part ++ " keys: " ++ (Value.list (w.keys.map .text)).quoted

namespace Settings

/-- What is given, by key. -/
abbrev Entries := List (String × Value)

/-- Settings that have been read, with warnings. -/
structure Loaded (α : Type) where
  settings : α
  warnings : List SettingsWarning

/-- Whether all keys are known: the first one that is not is refused as an argument, and warned
about in a mapping together with the others. -/
def checkKeys (form : SettingsForm) (part : String) (known : List String) (entries : Entries) :
    Except SettingsError (List SettingsWarning) :=
  match form, (entries.map (·.1)).filter (· ∉ known) with
  | _, [] => .ok []
  | .arguments, key :: _ => .error (.unknownArgument part key)
  | .mapping, unknown => .ok [⟨part, unknown.mergeSort⟩]

/-- The value at a key, or a default. -/
def valueAt (entries : Entries) (key : String) (default : Value) : Value :=
  (entries.lookup key).getD default

/-- The number at a key that must not be negative, or a default. -/
def numberAt (form : SettingsForm) (entries : Entries) (key : String) (default : Numeric) :
    Except SettingsError Numeric :=
  match entries.lookup key with
  | none => .ok default
  | some v =>
    match Numeric.ofValue? v with
    | none => .error (.notANumber form v)
    | some n => if n.isNegative then .error (.negative key n) else .ok n

/-- The section at a key: a mapping is read, and anything else is kept. -/
def sectionAt {α : Type} (entries : Entries) (key : String) (default : α)
    (read : Entries → Except SettingsError (Loaded α)) :
    Except SettingsError (Loaded (Section α)) :=
  match entries.lookup key with
  | none => .ok ⟨.settings default, []⟩
  | some (.map inner) => (read inner).map fun loaded => ⟨.settings loaded.settings, loaded.warnings⟩
  | some v => .ok ⟨.other v, []⟩

/-- Reads the settings of evaluation. -/
def readEvaluation (form : SettingsForm) (entries : Entries) :
    Except SettingsError (Loaded EvaluationSettings) := do
  let warnings ←
    checkKeys form "EvaluationConfig" ["use_external_library", "result_precision"] entries
  let precision ← numberAt form entries "result_precision" (.int 6)
  pure ⟨⟨valueAt entries "use_external_library" (.bool true), precision⟩, warnings⟩

/-- Reads the settings of display. -/
def readRender (form : SettingsForm) (entries : Entries) :
    Except SettingsError (Loaded RenderSettings) := do
  let warnings ← checkKeys form "RenderConfig"
    ["use_external_library", "max_integer_digits", "max_fraction_digits", "mantissa_digits"]
    entries
  pure
    ⟨⟨valueAt entries "use_external_library" (.bool true),
      valueAt entries "max_integer_digits" (.int 6),
      valueAt entries "max_fraction_digits" (.int 3),
      valueAt entries "mantissa_digits" (.int 4)⟩, warnings⟩

/-- Reads the settings of a sheet. Sections are mappings in every form. -/
def ofEntries (form : SettingsForm) (entries : Entries) :
    Except SettingsError (Loaded Settings) := do
  let warnings ← checkKeys form "WorkspaceConfig"
    ["verbose", "debug", "debounce_delay", "suggestion_limit", "evaluation", "render"] entries
  let delay ← numberAt form entries "debounce_delay" (.float 0.1)
  let evaluation ← sectionAt entries "evaluation" {} (readEvaluation .mapping)
  let render ← sectionAt entries "render" {} (readRender .mapping)
  pure
    ⟨⟨valueAt entries "verbose" (.bool false), valueAt entries "debug" (.bool false), delay,
      valueAt entries "suggestion_limit" (.int 8), evaluation.settings, render.settings⟩,
      warnings ++ evaluation.warnings ++ render.warnings⟩

/-- Reads settings from a value, which has to be a mapping. -/
def ofValue : Value → Except SettingsError (Loaded Settings)
  | .map entries => ofEntries .mapping entries
  | v => .error (.notAMapping v)

/-- Reads settings from the content of a file, if it has one. The suffix of its name says whether it
is YAML or JSON, and a file that holds nothing leaves every setting at its default. -/
def ofFile (name : String) (content : Option String) : Except SettingsError (Loaded Settings) :=
  let read := if name.endsWith ".yaml" || name.endsWith ".yml" then Value.ofYaml? else Value.ofJson?
  match content.bind read with
  | none => .error .unreadableFile
  | some v => ofValue (if v.isTruthy then v else .map [])

end Settings

end LiveSheet
