import LiveSheet.Settings
import LiveSheet.Table

/-!
# Which settings are accepted

Two settings of a mapping can be refused: the delay and, in a section for evaluation that is a
mapping, the precision. Each has to be a number or a truth value and must not be below 0
(`Settings.Unacceptable`); the delay is looked at first, and `Settings.Refuses` says which error
comes of it. Every other value is accepted as it is (`Settings.Holds`), and unknown keys make no
difference (`Settings.pruned`).

Each part of the settings is read in the same way, so what is to be known about a part is said once,
as `Settings.Judged`; the whole puts the parts together (`Settings.ofValue_judges`).
-/

namespace LiveSheet

/-! ### Numbers that must not be negative -/

/-- Whether a value is a number or a truth value. -/
def Value.IsNumber : Value → Prop
  | .bool _ | .int _ | .float _ => True
  | _ => False

/-- Whether a value is a number below 0. -/
def Value.IsBelowZero : Value → Prop
  | .int n => n < 0
  | .float x => x < 0
  | _ => False

/-- A numeric setting is a number as a value. -/
theorem Numeric.isNumber_toValue (n : Numeric) : n.toValue.IsNumber := by
  cases n <;> trivial

/-- A numeric setting is below 0 as a value if it is negative. -/
theorem Numeric.isBelowZero_toValue {n : Numeric} :
    n.toValue.IsBelowZero ↔ n.isNegative = true := by
  cases n <;> simp [toValue, Value.IsBelowZero, isNegative]

/-- A value is no numeric setting if and only if it is no number. -/
theorem Numeric.ofValue?_eq_none_iff {v : Value} : ofValue? v = none ↔ ¬ v.IsNumber := by
  cases v <;> simp [ofValue?, Value.IsNumber]

/-- The numeric setting of a value is this value again. -/
theorem Numeric.toValue_of_ofValue? {v : Value} {n : Numeric} (h : ofValue? v = some n) :
    n.toValue = v := by
  cases v <;> simp only [ofValue?, reduceCtorEq, Option.some.injEq] at h <;> exact h ▸ rfl

namespace Settings

/-- Which error comes of the number at a key that must not be negative. -/
inductive RefusesAt (entries : Entries) (key : String) : SettingsError → Prop
  | notANumber {v : Value} (h : entries.lookup key = some v) (hv : ¬ v.IsNumber) :
      RefusesAt entries key (.notANumber .mapping v)
  | negative {n : Numeric} (h : entries.lookup key = some n.toValue)
      (hn : n.toValue.IsBelowZero) : RefusesAt entries key (.negative key n)

/-- A number is refused if and only if something is given for it that is no number or below 0. -/
theorem exists_refusesAt_iff {entries : Entries} {key : String} :
    (∃ e, RefusesAt entries key e) ↔
      ∃ v, entries.lookup key = some v ∧ (¬ v.IsNumber ∨ v.IsBelowZero) := by
  constructor
  · rintro ⟨e, ⟨h, hv⟩ | ⟨h, hn⟩⟩
    · exact ⟨_, h, .inl hv⟩
    · exact ⟨_, h, .inr hn⟩
  · rintro ⟨v, h, hv | hv⟩
    · exact ⟨_, .notANumber h hv⟩
    · cases v with
      | int n => exact ⟨_, .negative (n := .int n) h hv⟩
      | float x => exact ⟨_, .negative (n := .float x) h hv⟩
      | null | bool | text | list | map => exact hv.elim

/-- The number at a key is refused, or it is the value that is given, or the default. -/
theorem numberAt_spec (entries : Entries) (key : String) (default : Numeric) :
    (∃ e, numberAt .mapping entries key default = .error e ∧ RefusesAt entries key e) ∨
      ∃ n, numberAt .mapping entries key default = .ok n ∧ (∀ e, ¬ RefusesAt entries key e) ∧
        n.toValue = (entries.lookup key).getD default.toValue := by
  unfold numberAt
  -- A missing key gives the default, which is never checked.
  cases hlookup : entries.lookup key with
  | none =>
    refine .inr ⟨default, rfl, ?_, rfl⟩
    rintro e (⟨h, -⟩ | ⟨h, -⟩) <;> cases hlookup.symm.trans h
  | some v =>
    simp only
    cases hnumber : Numeric.ofValue? v with
    | none => exact .inl ⟨_, rfl, .notANumber hlookup (Numeric.ofValue?_eq_none_iff.1 hnumber)⟩
    | some n =>
      obtain rfl := Numeric.toValue_of_ofValue? hnumber
      simp only
      split
      · next hnegative =>
        exact .inl ⟨_, rfl, .negative hlookup (Numeric.isBelowZero_toValue.2 hnegative)⟩
      · next hnegative =>
        refine .inr ⟨n, rfl, ?_, rfl⟩
        rintro e (⟨h, hv⟩ | ⟨h, hn⟩)
        · obtain rfl := Option.some.inj (hlookup.symm.trans h)
          exact hv n.isNumber_toValue
        · rw [← Option.some.inj (hlookup.symm.trans h)] at hn
          exact hnegative (Numeric.isBelowZero_toValue.1 hn)

/-! ### Known keys -/

/-- The entries whose keys are known. -/
def known (keys : List String) (entries : Entries) : Entries :=
  entries.filter (·.1 ∈ keys)

/-- Known keys have their values among the known entries. -/
theorem lookup_known {keys : List String} {key : String} (h : key ∈ keys) (entries : Entries) :
    (known keys entries).lookup key = entries.lookup key := by
  induction entries with
  | nil => rfl
  | cons entry entries ih =>
    obtain ⟨key', v⟩ := entry
    unfold known at ih ⊢
    rw [List.filter_cons, Table.lookup_cons_eq_ite]
    split
    · rw [Table.lookup_cons_eq_ite, ih]
    · next hunknown =>
      rw [ih, if_neg]
      rintro rfl
      exact hunknown (by simpa using h)

/-- A mapping is never refused for its keys. -/
theorem exists_checkKeys (part : String) (keys : List String) (entries : Entries) :
    ∃ warnings, checkKeys .mapping part keys entries = .ok warnings := by
  unfold checkKeys
  split <;> simp_all

/-- Known keys give no warning. -/
theorem checkKeys_of_known {part : String} {keys : List String} {entries : Entries}
    (h : ∀ key ∈ entries.map (·.1), key ∈ keys) :
    checkKeys .mapping part keys entries = .ok [] := by
  have hnone : (entries.map (·.1)).filter (· ∉ keys) = [] :=
    List.filter_eq_nil_iff.2 fun key hkey => by simpa using h key hkey
  unfold checkKeys
  rw [hnone]

/-- The keys of known entries are known. -/
theorem mem_of_mem_known {keys : List String} {entries : Entries} {key : String}
    (h : key ∈ (known keys entries).map (·.1)) : key ∈ keys := by
  obtain ⟨entry, hentry, rfl⟩ := List.mem_map.1 h
  simpa using (List.mem_filter.1 hentry).2

/-! ### Sections -/

/-- What comes of settings and of their known part: the same error, or the same settings, in the
second case without a warning. -/
def Judged {α : Type} (refuses : SettingsError → Prop) (holds : α → Prop)
    (result ofKnown : Except SettingsError (Loaded α)) : Prop :=
  (∃ e, result = .error e ∧ ofKnown = .error e ∧ refuses e) ∨
    ∃ loaded, result = .ok loaded ∧ ofKnown = .ok ⟨loaded.settings, []⟩ ∧ (∀ e, ¬ refuses e) ∧
      holds loaded.settings

/-- Whether the settings of evaluation are what is given, or the default. -/
structure EvaluationHolds (entries : Entries) (settings : EvaluationSettings) : Prop where
  exact_eq : settings.exact = (entries.lookup "use_external_library").getD
    ({} : EvaluationSettings).exact
  precision_eq : settings.precision.toValue = (entries.lookup "result_precision").getD
    ({} : EvaluationSettings).precision.toValue

/-- Whether the settings of display are what is given, or the default. -/
structure RenderHolds (entries : Entries) (settings : RenderSettings) : Prop where
  typeset_eq : settings.typeset = (entries.lookup "use_external_library").getD
    ({} : RenderSettings).typeset
  wholeDigits_eq : settings.wholeDigits = (entries.lookup "max_integer_digits").getD
    ({} : RenderSettings).wholeDigits
  fractionDigits_eq : settings.fractionDigits = (entries.lookup "max_fraction_digits").getD
    ({} : RenderSettings).fractionDigits
  mantissaDigits_eq : settings.mantissaDigits = (entries.lookup "mantissa_digits").getD
    ({} : RenderSettings).mantissaDigits

/-- The keys of the settings of evaluation. -/
def evaluationKeys : List String :=
  ["use_external_library", "result_precision"]

/-- The keys of the settings of display. -/
def renderKeys : List String :=
  ["use_external_library", "max_integer_digits", "max_fraction_digits", "mantissa_digits"]

/-- The section of evaluation is judged by its precision. -/
theorem readEvaluation_judged (entries : Entries) :
    Judged (RefusesAt entries "result_precision") (EvaluationHolds entries)
      (readEvaluation .mapping entries)
      (readEvaluation .mapping (known evaluationKeys entries)) := by
  obtain ⟨warnings, hwarnings⟩ := exists_checkKeys "EvaluationConfig" evaluationKeys entries
  have hknown : checkKeys .mapping "EvaluationConfig" evaluationKeys
      (known evaluationKeys entries) = .ok [] := checkKeys_of_known fun _ => mem_of_mem_known
  have hsame (key : String) (h : key ∈ evaluationKeys) :
      (known evaluationKeys entries).lookup key = entries.lookup key := lookup_known h entries
  have hprecision : numberAt .mapping (known evaluationKeys entries) "result_precision" (.int 6) =
      numberAt .mapping entries "result_precision" (.int 6) := by
    unfold numberAt
    rw [hsame _ (by decide)]
  unfold readEvaluation
  change Judged _ _ (checkKeys .mapping _ evaluationKeys _ >>= _)
    (checkKeys .mapping _ evaluationKeys _ >>= _)
  rw [hwarnings, hknown, hprecision]
  obtain ⟨e, he, hrefuses⟩ | ⟨n, hn, haccepts, hvalue⟩ :=
    numberAt_spec entries "result_precision" (.int 6)
  · refine .inl ⟨e, ?_, ?_, hrefuses⟩ <;> rw [he] <;> rfl
  · rw [hn]
    refine .inr ⟨_, rfl, ?_, haccepts, rfl, hvalue⟩
    simp only [valueAt, hsame "use_external_library" (by decide)]
    rfl

/-- The settings of display are never refused. -/
theorem readRender_judged (entries : Entries) :
    Judged (fun _ => False) (RenderHolds entries) (readRender .mapping entries)
      (readRender .mapping (known renderKeys entries)) := by
  obtain ⟨warnings, hwarnings⟩ := exists_checkKeys "RenderConfig" renderKeys entries
  have hknown : checkKeys .mapping "RenderConfig" renderKeys (known renderKeys entries) = .ok [] :=
    checkKeys_of_known fun _ => mem_of_mem_known
  have hsame (key : String) (h : key ∈ renderKeys) (default : Value) :
      valueAt (known renderKeys entries) key default = valueAt entries key default := by
    rw [valueAt, valueAt, lookup_known h]
  unfold readRender
  change Judged _ _ (checkKeys .mapping _ renderKeys _ >>= _)
    (checkKeys .mapping _ renderKeys _ >>= _)
  rw [hwarnings, hknown]
  refine .inr ⟨_, rfl, ?_, fun _ => id, rfl, rfl, rfl, rfl⟩
  rw [hsame "use_external_library" (by decide), hsame "max_integer_digits" (by decide),
    hsame "max_fraction_digits" (by decide), hsame "mantissa_digits" (by decide)]
  rfl

/-- Whether a section is what is given: a mapping as its settings, anything else as it is, and the
default for nothing. -/
inductive SectionHolds {α : Type} (holds : Entries → α → Prop) (default : α) :
    Option Value → Section α → Prop
  | absent : SectionHolds holds default none (.settings default)
  | mapping {inner : Entries} {a : α} (h : holds inner a) :
      SectionHolds holds default (some (.map inner)) (.settings a)
  | other {v : Value} (h : ∀ inner, v ≠ .map inner) : SectionHolds holds default (some v) (.other v)

/-- A value without unknown keys, if it is a mapping. -/
def knownOf (keys : List String) : Value → Value
  | .map inner => .map (known keys inner)
  | v => v

/-- A section is judged if it is a mapping. -/
theorem sectionAt_judged {α : Type} {read : Entries → Except SettingsError (Loaded α)}
    {keys : List String} {refuses : Entries → SettingsError → Prop} {holds : Entries → α → Prop}
    (hread : ∀ inner, Judged (refuses inner) (holds inner) (read inner) (read (known keys inner)))
    {entries entries' : Entries} (key : String)
    (h : entries'.lookup key = (entries.lookup key).map (knownOf keys)) (default : α) :
    Judged (fun e => ∃ inner, entries.lookup key = some (.map inner) ∧ refuses inner e)
      (SectionHolds holds default (entries.lookup key))
      (sectionAt entries key default read) (sectionAt entries' key default read) := by
  unfold sectionAt
  rw [h]
  cases hlookup : entries.lookup key with
  | none =>
    refine .inr ⟨_, rfl, rfl, ?_, .absent⟩
    rintro e ⟨inner, hinner, -⟩
    cases hinner
  | some v =>
    cases v with
    | map inner =>
      simp only [Option.map_some, knownOf]
      obtain ⟨e, he, he', hrefuses⟩ | ⟨loaded, hok, hok', haccepts, hholds⟩ := hread inner
      · rw [he, he']
        exact .inl ⟨e, rfl, rfl, inner, rfl, hrefuses⟩
      · rw [hok, hok']
        refine .inr ⟨_, rfl, rfl, ?_, .mapping hholds⟩
        rintro e ⟨inner', hinner, hrefuses⟩
        obtain rfl := Value.map.inj (Option.some.inj hinner)
        exact haccepts e hrefuses
    | null | bool | int | float | text | list =>
      refine .inr ⟨_, rfl, rfl, ?_, .other nofun⟩
      rintro e ⟨inner, hinner, -⟩
      cases hinner

/-! ### All settings -/

/-- The keys of the settings of a sheet. -/
def settingsKeys : List String :=
  ["verbose", "debug", "debounce_delay", "suggestion_limit", "evaluation", "render"]

/-- The value at a key of the settings without the unknown keys of a section. -/
def knownAt (key : String) (v : Value) : Value :=
  if key = "evaluation" then knownOf evaluationKeys v
  else if key = "render" then knownOf renderKeys v
  else v

/-- The entries of settings without unknown keys, also those of the sections. -/
def prunedEntries (entries : Entries) : Entries :=
  (known settingsKeys entries).map fun entry => (entry.1, knownAt entry.1 entry.2)

/-- Settings without unknown keys. -/
def pruned : Value → Value
  | .map entries => .map (prunedEntries entries)
  | v => v

/-- Whether settings are those that entries give, and the default for what is not given. -/
structure Holds (entries : Entries) (settings : Settings) : Prop where
  verbose_eq : settings.verbose = (entries.lookup "verbose").getD ({} : Settings).verbose
  debug_eq : settings.debug = (entries.lookup "debug").getD ({} : Settings).debug
  delay_eq : settings.delay.toValue =
    (entries.lookup "debounce_delay").getD ({} : Settings).delay.toValue
  suggestionLimit_eq : settings.suggestionLimit =
    (entries.lookup "suggestion_limit").getD ({} : Settings).suggestionLimit
  evaluation : SectionHolds EvaluationHolds {} (entries.lookup "evaluation") settings.evaluation
  render : SectionHolds RenderHolds {} (entries.lookup "render") settings.render

/-- Which error comes of settings. -/
inductive Refuses : Value → SettingsError → Prop
  | notAMapping {v : Value} (h : ∀ entries, v ≠ .map entries) : Refuses v (.notAMapping v)
  | delay {entries : Entries} {e : SettingsError} (h : RefusesAt entries "debounce_delay" e) :
      Refuses (.map entries) e
  /-- The precision is looked at behind the delay. -/
  | precision {entries inner : Entries} {e : SettingsError}
      (hdelay : ∀ e, ¬ RefusesAt entries "debounce_delay" e)
      (hsection : entries.lookup "evaluation" = some (.map inner))
      (h : RefusesAt inner "result_precision" e) : Refuses (.map entries) e

/-- Pruning changes the known entries only within their sections. -/
theorem lookup_prunedEntries {key : String} (h : key ∈ settingsKeys) (entries : Entries) :
    (prunedEntries entries).lookup key = (entries.lookup key).map (knownAt key) := by
  rw [prunedEntries, Table.lookup_map knownAt, lookup_known h]

/-- The keys of pruned entries are known. -/
theorem mem_of_mem_prunedEntries {entries : Entries} {key : String}
    (h : key ∈ (prunedEntries entries).map (·.1)) : key ∈ settingsKeys := by
  rw [prunedEntries, List.map_map] at h
  exact mem_of_mem_known h

/-- A mapping is judged by its delay and its precision. -/
theorem ofEntries_judged (entries : Entries) :
    Judged (Refuses (.map entries)) (Holds entries) (ofEntries .mapping entries)
      (ofEntries .mapping (prunedEntries entries)) := by
  obtain ⟨warnings, hwarnings⟩ := exists_checkKeys "WorkspaceConfig" settingsKeys entries
  have hknown : checkKeys .mapping "WorkspaceConfig" settingsKeys (prunedEntries entries) =
      .ok [] := checkKeys_of_known fun _ => mem_of_mem_prunedEntries
  -- Only sections are changed when unknown keys are left out.
  have hsame (key : String) (h : key ∈ settingsKeys) (hevaluation : key ≠ "evaluation")
      (hrender : key ≠ "render") : (prunedEntries entries).lookup key = entries.lookup key := by
    have hid : knownAt key = id := funext fun v => by simp [knownAt, hevaluation, hrender]
    rw [lookup_prunedEntries h, hid, Option.map_id, id]
  have hdelay : numberAt .mapping (prunedEntries entries) "debounce_delay" (.float 0.1) =
      numberAt .mapping entries "debounce_delay" (.float 0.1) := by
    unfold numberAt
    rw [hsame _ (by decide) (by decide) (by decide)]
  have hevaluation := sectionAt_judged readEvaluation_judged "evaluation"
    (lookup_prunedEntries (by decide) entries) {}
  have hrender := sectionAt_judged readRender_judged "render"
    (lookup_prunedEntries (by decide) entries) {}
  simp only [settingsKeys] at hwarnings hknown
  obtain ⟨e, he, hrefuses⟩ | ⟨n, hn, hdelay', hvalue⟩ :=
    numberAt_spec entries "debounce_delay" (.float 0.1)
  · refine .inl ⟨e, ?_, ?_, .delay hrefuses⟩
    all_goals
      unfold ofEntries
      simp only [hwarnings, hknown, hdelay, he]
      rfl
  · obtain ⟨e, he, he', inner, hinner, hrefuses⟩ | ⟨evaluation, hok, hok', haccepts, hholds⟩ :=
      hevaluation
    · refine .inl ⟨e, ?_, ?_, .precision hdelay' hinner hrefuses⟩
      all_goals
        unfold ofEntries
        simp only [hwarnings, hknown, hdelay, hn, he, he']
        rfl
    · obtain ⟨e, -, -, inner, -, hfalse⟩ | ⟨render, hr, hr', -, hrender⟩ := hrender
      · exact hfalse.elim
      · refine .inr ⟨⟨⟨valueAt entries "verbose" _, valueAt entries "debug" _, n,
          valueAt entries "suggestion_limit" _, evaluation.settings, render.settings⟩,
          warnings ++ evaluation.warnings ++ render.warnings⟩, ?_, ?_, ?_, rfl, rfl, hvalue, rfl,
          hholds, hrender⟩
        · unfold ofEntries
          simp only [hwarnings, hn, hok, hr]
          rfl
        · unfold ofEntries
          simp only [hknown, hdelay, hn, hok', hr', valueAt,
            hsame "verbose" (by decide) (by decide) (by decide),
            hsame "debug" (by decide) (by decide) (by decide),
            hsame "suggestion_limit" (by decide) (by decide) (by decide)]
          rfl
        · rintro e (⟨h⟩ | h | ⟨-, hsection, h⟩)
          · exact h entries rfl
          · exact hdelay' e h
          · exact haccepts e ⟨_, hsection, h⟩

/-- Whether settings cannot be accepted: they are no mapping, or the delay or the precision is no
number or below 0. -/
inductive Unacceptable : Value → Prop
  | notAMapping {v : Value} (h : ∀ entries, v ≠ .map entries) : Unacceptable v
  | delay {entries : Entries} {v : Value} (h : entries.lookup "debounce_delay" = some v)
      (hv : ¬ v.IsNumber ∨ v.IsBelowZero) : Unacceptable (.map entries)
  | precision {entries inner : Entries} {v : Value}
      (hsection : entries.lookup "evaluation" = some (.map inner))
      (h : inner.lookup "result_precision" = some v) (hv : ¬ v.IsNumber ∨ v.IsBelowZero) :
      Unacceptable (.map entries)

/-- Settings are refused if they are unacceptable, and only then. -/
theorem exists_refuses_iff {v : Value} : (∃ e, Refuses v e) ↔ Unacceptable v := by
  constructor
  · rintro ⟨e, h | h | ⟨-, hsection, h⟩⟩
    · exact .notAMapping h
    · obtain ⟨v, hv, hbad⟩ := exists_refusesAt_iff.1 ⟨e, h⟩
      exact .delay hv hbad
    · obtain ⟨v, hv, hbad⟩ := exists_refusesAt_iff.1 ⟨e, h⟩
      exact .precision hsection hv hbad
  · intro h
    cases h with
    | notAMapping h => exact ⟨_, .notAMapping h⟩
    | delay h hv =>
      obtain ⟨e, he⟩ := exists_refusesAt_iff.2 ⟨_, h, hv⟩
      exact ⟨e, .delay he⟩
    | @precision entries inner v hsection h hv =>
      obtain ⟨e, he⟩ := exists_refusesAt_iff.2 ⟨_, h, hv⟩
      by_cases hdelay : ∃ e, RefusesAt entries "debounce_delay" e
      · obtain ⟨e', he'⟩ := hdelay
        exact ⟨e', .delay he'⟩
      · exact ⟨e, .precision (not_exists.1 hdelay) hsection he⟩

end Settings

/-- Whether an error is one of the settings themselves: not of the arguments of a call, nor of a
file. -/
def SettingsError.IsOfMapping : SettingsError → Prop
  | .notAMapping _ | .negative _ _ | .notANumber .mapping _ => True
  | .notANumber .arguments _ | .unknownArgument _ _ | .unreadableFile => False

namespace Settings

/-- What is refused in a mapping is told as an error of the mapping. -/
theorem Refuses.isOfMapping {v : Value} {e : SettingsError} (h : Refuses v e) : e.IsOfMapping := by
  have hnumber {entries : Entries} {key : String} (h : RefusesAt entries key e) :
      e.IsOfMapping := by
    cases h <;> trivial
  cases h with
  | notAMapping => trivial
  | delay h => exact hnumber h
  | precision _ _ h => exact hnumber h

/-- Settings that are unacceptable are refused, with an error of the mapping. All others are
accepted: they are what is given, and the default for what is not given, and without unknown keys
the same comes of them, without a warning. -/
theorem ofValue_judges (data : Value) :
    (Unacceptable data ∧ ∃ e, ofValue data = .error e ∧ Refuses data e ∧ e.IsOfMapping) ∨
      (¬ Unacceptable data ∧ ∃ entries loaded, data = .map entries ∧ ofValue data = .ok loaded ∧
        Holds entries loaded.settings ∧ ofValue (pruned data) = .ok ⟨loaded.settings, []⟩) := by
  have hrefused {e : SettingsError} (he : ofValue data = .error e) (h : Refuses data e) :
      Unacceptable data ∧ ∃ e, ofValue data = .error e ∧ Refuses data e ∧ e.IsOfMapping :=
    ⟨exists_refuses_iff.1 ⟨e, h⟩, e, he, h, h.isOfMapping⟩
  cases data with
  | map entries =>
    rcases ofEntries_judged entries with ⟨e, he, -, h⟩ | ⟨loaded, hok, hok', haccepts, hholds⟩
    · exact .inl (hrefused he h)
    · refine .inr ⟨fun h => ?_, entries, loaded, rfl, hok, hholds, hok'⟩
      obtain ⟨e, he⟩ := exists_refuses_iff.2 h
      exact haccepts e he
  | null | bool | int | float | text | list => exact .inl (hrefused rfl (.notAMapping nofun))

example : ofValue (.map []) = .ok ⟨{}, []⟩ := rfl

end Settings

end LiveSheet
