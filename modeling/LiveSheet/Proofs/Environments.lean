import LiveSheet.Proofs.Bookkeeping
import LiveSheet.Proofs.Relevance
import LiveSheet.Registry.Standard
import LiveSheet.Workspace.Setup

/-!
# Environments that evaluate inline

What a sheet relies on (`Environment.Answers`, `Environment.Lawful`) follows from two properties of
the evaluator: it comes to a result in every scope of numbers (`Environment.EvaluatesNumbers`), and
it reads a name as the number that its value counts as (`Environment.ReadsNumbers`). The rounding
needs a power of ten in the binary64 range besides. Evaluators in line have both properties,
whatever calculus is behind the trees.
-/

namespace LiveSheet

/-! ### Lawful environments -/

/-- Whether the evaluator comes to a result for every expression, as long as the scope holds
nothing but numbers. -/
def Environment.EvaluatesNumbers (env : Environment) : Prop :=
  ∀ expression (scope : Scope), scope.IsNumeric →
    ∃ result : Result, env.evaluate expression scope = .ok result.toValue

/-- Whether the evaluator reads every name in an expression as the number that its value counts as,
0 if there is no value. -/
def Environment.ReadsNumbers (env : Environment) : Prop :=
  ∀ expression scope scope', Scope.SameNumbers scope scope' →
    env.evaluate expression scope = env.evaluate expression scope'

namespace Sheet

/-- A scope holds nothing but numbers if no result among those it is made of is an error kind. -/
theorem isNumeric_scopeOf {read : List (String × Result)} (h : firstFailure? read = none) :
    (scopeOf read).IsNumeric := by
  have hvalues : ∀ (read : List (String × Result)) (scope : Scope), firstFailure? read = none →
      scope.IsNumeric → Scope.IsNumeric (read.foldl
        (fun scope entry => scope.insert entry.1 entry.2.toValue) scope) := by
    -- The entries are inserted from the left, so the scope so far is part of the induction.
    intro read
    induction read with
    | nil => exact fun scope _ hscope => hscope
    | cons entry read ih =>
      intro scope hnone hscope
      obtain ⟨header, result⟩ := entry
      rw [firstFailure?, List.findSome?_cons] at hnone
      cases hresult : result.failure? with
      | some kind => simp [hresult] at hnone
      | none =>
        simp only [hresult] at hnone
        refine ih _ hnone fun name v hv => ?_
        rw [Table.get?_insert] at hv
        split at hv
        · obtain rfl := Option.some.inj hv
          cases result with
          | number x => exact ⟨x, rfl⟩
          | failed kind => cases hresult
        · exact hscope name v hv
  exact hvalues read .empty h fun _ _ hv => by cases hv

/-- A number is rounded if the precision allows it. -/
theorem finalize_toValue {precision : Numeric} {factor : Float}
    (hscale : scaleFactor precision = .ok factor) (result : Result) :
    ∃ kept, Result.finalize precision result.toValue = .ok kept := by
  cases result with
  | failed kind => exact ⟨_, rfl⟩
  | number x =>
    simp only [Result.finalize, Result.toValue, Value.toFloat]
    split
    · unfold roundHalfUp
      rw [hscale]
      simp only
      split
      · exact ⟨_, rfl⟩
      · exact ⟨_, rfl⟩
    · exact ⟨_, rfl⟩

end Sheet

/-- A line of evaluators answers every text, if the scope has a number for each name. -/
theorem Calculus.evaluateInLine_total {α : Type} (k : Calculus α) (r : Registry)
    (line : List Evaluator) (text : String) {scope : Scope}
    (hscope : ∀ name, ∃ x, ((scope.get? name).getD .null).coerce = .ok x) :
    ∃ result, k.evaluateInLine r line (.text text) scope = .ok result := by
  induction line with
  | nil => exact ⟨_, rfl⟩
  | cons evaluator line ih =>
    cases evaluator with
    | absent => exact ih
    | stack => exact r.evaluate_total text hscope
    | tree =>
      unfold evaluateInLine
      split
      · exact ⟨_, rfl⟩
      · exact ih

/-- Whatever evaluates the expressions of a registry, a sheet can rely on it if it comes to results
and the precision has a power of ten. -/
theorem Environment.EvaluatesNumbers.answers {env : Environment} (h : env.EvaluatesNumbers)
    {r : Registry} (hreferences : env.references = r.references) {factor : Float}
    (hscale : scaleFactor env.precision = .ok factor) : env.Answers where
  nodup expression := by
    rw [hreferences]
    exact nodup_referencesOf (r.tokens expression)
  named := by
    rw [hreferences]
    exact r.empty_not_mem_references
  total expression read hnone := by
    obtain ⟨result, hresult⟩ := h expression _ (Sheet.isNumeric_scopeOf hnone)
    obtain ⟨kept, hkept⟩ := Sheet.finalize_toValue hscale result
    refine ⟨kept, ?_⟩
    rw [Sheet.evaluate, hresult]
    exact hkept

/-- An evaluation depends on the numbers in the scope only if that of each evaluator does, and the
precision has a power of ten. -/
theorem Environment.EvaluatesNumbers.lawful {env : Environment} (h : env.EvaluatesNumbers)
    (hreads : env.ReadsNumbers) {r : Registry} (hreferences : env.references = r.references)
    {factor : Float} (hscale : scaleFactor env.precision = .ok factor) : env.Lawful where
  toAnswers := h.answers hreferences hscale
  congr := hreads

/-! ### Evaluators in line -/

section

variable {α : Type} (k : Calculus α) (r : Registry) (line : List Evaluator) (precision : Numeric)

/-- The evaluators in line with any calculus see only numbers. -/
theorem Environment.evaluatesNumbers_ofCalculus :
    (Environment.ofCalculus k r line precision).EvaluatesNumbers := by
  intro expression scope hscope
  obtain ⟨result, hresult⟩ := k.evaluateInLine_total r line expression hscope.coerce
  refine ⟨result, ?_⟩
  simp only [ofCalculus, Calculus.evaluateSource, hresult, Except.map]

/-- Evaluators in line depend on the numbers in the scope only, if the calculus does. -/
theorem Environment.readsNumbers_ofCalculus (hk : k.Coerces) :
    (Environment.ofCalculus k r line precision).ReadsNumbers := by
  intro expression scope scope' h
  have hline : k.evaluateInLine r line (.text expression) scope =
      k.evaluateInLine r line (.text expression) scope' :=
    Calculus.evaluateInLine_congr (fun name _ => hk.congr _ _ (h name)) (fun name _ => h name) line
  simp only [ofCalculus, Calculus.evaluateSource, hline]

/-- And so they do with wide numbers. -/
theorem Environment.evaluatesNumbers_ofRegistry :
    (Environment.ofRegistry r line precision).EvaluatesNumbers :=
  evaluatesNumbers_ofCalculus Wide.calculus r line precision

/-- The stack alone is a line without trees, whatever the calculus. -/
theorem Environment.ofStack_eq :
    Environment.ofStack r precision = .ofCalculus k r (Evaluator.line false) precision :=
  rfl

end

/-- The stack alone sees only numbers. -/
theorem Environment.evaluatesNumbers_ofStack (r : Registry) (precision : Numeric) :
    (Environment.ofStack r precision).EvaluatesNumbers := by
  rw [ofStack_eq Wide.calculus]
  exact evaluatesNumbers_ofCalculus _ _ _ _

/-- And every scope of numbers is read by it. -/
theorem Environment.readsNumbers_ofStack (r : Registry) (precision : Numeric) :
    (Environment.ofStack r precision).ReadsNumbers := by
  rw [ofStack_eq Wide.calculus]
  exact readsNumbers_ofCalculus _ _ _ _ Wide.coerces_calculus

/-- The setup in which expressions of the standard registry are evaluated on the stack alone, by the
settings as they are if none are given. -/
def Setup.onStack : Setup :=
  .ofEnvironment .standard (.ofStack .standard (.int 6)) {}

/-- The stack with the default settings sees only numbers. -/
theorem Setup.evaluatesNumbers_onStack : onStack.environment.EvaluatesNumbers :=
  Environment.evaluatesNumbers_ofStack _ _

/-- It reads every scope of numbers. -/
theorem Setup.readsNumbers_onStack : onStack.environment.ReadsNumbers :=
  Environment.readsNumbers_ofStack _ _

/-- And it is lawful. -/
theorem Setup.lawful_onStack : onStack.environment.Lawful :=
  evaluatesNumbers_onStack.lawful readsNumbers_onStack (r := onStack.registry) rfl rfl

end LiveSheet
