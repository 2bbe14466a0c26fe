import LiveSheet.Proofs.Delegation
import LiveSheet.Proofs.Grammar

/-!
# What an expression reads

Of a scope, an expression reads only the names that it refers to. On the stack, the steps that read
the scope are those of tokens that refer to a name (`Postfix.token_mem_of_order`). In a tree that
has been read strictly, every leaf that reads the scope is written as one of the tokens
(`reference_mem_of_parse`), and this needs the grammar: the parser also makes a reference of a
function without parentheses, which no text holds.

So two scopes that agree on these names are one scope to the stack, to the exact evaluator and to
any other calculus in its place, for texts that are no expressions as well
(`Registry.evaluate_of_agreeOn`).
-/

namespace LiveSheet

/-- Whether two scopes hold the same at some names: equal values, or none. -/
def Scope.AgreeOn (names : List String) (scope scope' : Scope) : Prop :=
  ∀ name ∈ names, scope.get? name = scope'.get? name

/-! ### On the stack -/

variable {scope scope' : Scope}

/-- Tokens have the same value on the stack in scopes that have the same numbers for the references
among them. -/
theorem Registry.evaluateStrict_congr (r : Registry) {ts : List Token}
    (h : ∀ name ∈ referencesOf ts,
      ((scope.get? name).getD .null).coerce = ((scope'.get? name).getD .null).coerce) :
    r.evaluateStrict ts scope = r.evaluateStrict ts scope' := by
  unfold evaluateStrict
  cases horder : Postfix.order r ts with
  | error f => rfl
  | ok steps =>
    have hrun : Postfix.run r scope [] steps = Postfix.run r scope' [] steps :=
      Postfix.run_congr
        (fun name hmem => h name (mem_referencesOf.2 (Postfix.token_mem_of_order horder hmem))) []
    simp only [hrun]

/-- So they have in scopes that agree on these references. -/
theorem Registry.evaluateStrict_of_agreeOn (r : Registry) {ts : List Token}
    (h : Scope.AgreeOn (referencesOf ts) scope scope') :
    r.evaluateStrict ts scope = r.evaluateStrict ts scope' :=
  r.evaluateStrict_congr fun name hmem => by rw [h name hmem]

/-! ### In a tree -/

namespace Expr

/-- A reference stands behind another argument if it stands among the arguments. -/
theorem reference_mem_tokensBehind {args : List Expr} {name : String} :
    ⟨.reference, name⟩ ∈ tokensBehind args ↔ ⟨.reference, name⟩ ∈ tokensOfArguments args := by
  cases args <;> simp [tokensBehind, tokensOfArguments]

/-- A tree that has been read strictly refers only to what its text refers to. -/
theorem reference_mem_of_parse {r : Registry} {text : String} {e : Expr}
    (h : parse .strict (r.tokens text) = .ok e) {name : String}
    (hmem : ⟨.reference, name⟩ ∈ e.tokens) : name ∈ r.references text := by
  by_cases hne : r.tokens text = []
  · -- No tokens at all are read as a number.
    rw [hne] at h
    obtain rfl : .number "0" = e := by simpa [parse] using h
    simp [tokens] at hmem
  · rw [(derives_of_parse_strict hne (Lexer.callsOpen_tokens _ text) h).2] at hmem
    obtain ⟨t, ht, hplain⟩ := List.mem_map.1 hmem
    obtain rfl := Token.eq_of_plain_eq hplain (by simp)
    exact mem_referencesOf.2 ht

end Expr

namespace Calculus

variable {α : Type} (k : Calculus α) (r : Registry)

mutual

/-- An expression is converted to the same in scopes in which the names that it refers to are. -/
theorem convert_congr : (e : Expr) →
    (∀ name, ⟨.reference, name⟩ ∈ e.tokens →
      k.reference ((scope.get? name).getD .null) = k.reference ((scope'.get? name).getD .null)) →
    k.convert r scope e = k.convert r scope' e
  | .number text, _ => by rw [convert, convert]
  | .reference name, h => by rw [convert, convert, h name (by simp [Expr.tokens])]
  | .constant name, _ => by rw [convert, convert]
  | .prefixed symbol operand, h => by
    rw [convert, convert,
      convert_congr operand fun name hmem => h name (by simp [Expr.tokens, hmem])]
  | .binary symbol left right, h => by
    rw [convert, convert, convert_congr left fun name hmem => h name (by simp [Expr.tokens, hmem]),
      convert_congr right fun name hmem => h name (by simp [Expr.tokens, hmem])]
  | .group inner, h => by
    rw [convert, convert,
      convert_congr inner fun name hmem => h name (by simp [Expr.tokens, hmem])]
  | .call name args, h => by
    -- What stands between the arguments and around them are no references.
    rw [convert, convert, convertAll_congr args fun name hmem => h name (by
      simp [Expr.tokens, Expr.reference_mem_tokensBehind.1 hmem])]

/-- Trees are converted alike in scopes that agree on what they refer to. -/
theorem convertAll_congr : (args : List Expr) →
    (∀ name, ⟨.reference, name⟩ ∈ Expr.tokensBehind args →
      k.reference ((scope.get? name).getD .null) = k.reference ((scope'.get? name).getD .null)) →
    k.convertAll r scope args = k.convertAll r scope' args
  | [], _ => by rw [convertAll, convertAll]
  | e :: es, h => by
    rw [convertAll, convertAll,
      convert_congr e fun name hmem => h name (by simp [Expr.tokensBehind, hmem]),
      convertAll_congr es fun name hmem => h name (by simp [Expr.tokensBehind, hmem])]

end

variable {k r} {text : String}

/-- A text comes to the same number in scopes in which the names that it refers to are the same to
the calculus. -/
theorem evaluateSourceExact_congr
    (h : ∀ name ∈ r.references text,
      k.reference ((scope.get? name).getD .null) = k.reference ((scope'.get? name).getD .null)) :
    k.evaluateSourceExact r (.text text) scope = k.evaluateSourceExact r (.text text) scope' := by
  rw [evaluateSourceExact, evaluateSourceExact]
  cases hread : r.readTree text with
  | error refusal => rfl
  | ok e =>
    have hparse := (Registry.readTree_ok_iff.1 hread).2.2
    have hconvert : k.convert r scope e = k.convert r scope' e :=
      k.convert_congr r e fun name hmem => h name (Expr.reference_mem_of_parse hparse hmem)
    change (k.convert r scope e >>= _) = (k.convert r scope' e >>= _)
    rw [hconvert]

/-- Every line of evaluators answers a text alike in scopes in which the names that it refers to are
the same to the calculus and to the stack. -/
theorem evaluateInLine_congr
    (hexact : ∀ name ∈ r.references text,
      k.reference ((scope.get? name).getD .null) = k.reference ((scope'.get? name).getD .null))
    (hstack : ∀ name ∈ r.references text,
      ((scope.get? name).getD .null).coerce = ((scope'.get? name).getD .null).coerce)
    (line : List Evaluator) :
    k.evaluateInLine r line (.text text) scope = k.evaluateInLine r line (.text text) scope' := by
  induction line with
  | nil => rfl
  | cons evaluator line ih =>
    cases evaluator with
    | absent => exact ih
    | stack =>
      simp only [evaluateInLine, Registry.tokensOf, Registry.evaluate,
        r.evaluateStrict_congr hstack]
    | tree => rw [evaluateInLine, evaluateInLine, evaluateSourceExact_congr hexact, ih]

/-- So it does in scopes that agree on these names. -/
theorem evaluateInLine_of_agreeOn (h : Scope.AgreeOn (r.references text) scope scope')
    (line : List Evaluator) :
    k.evaluateInLine r line (.text text) scope = k.evaluateInLine r line (.text text) scope' :=
  evaluateInLine_congr (fun name hmem => by rw [h name hmem]) (fun name hmem => by rw [h name hmem])
    line

/-- Whether a calculus reads a value as the number that it counts as, and fails if that raises. -/
structure Coerces (k : Calculus α) : Prop where
  congr : ∀ v v', v.coerce = v'.coerce → k.reference v = k.reference v'
  fails : ∀ v e, v.coerce = .error e → ∃ refusal, k.reference v = .error refusal

end Calculus

/-- The wide numbers take a reference for the number it counts as. -/
theorem Wide.coerces_calculus : Wide.calculus.Coerces where
  congr v v' h := by
    show ofValue v = ofValue v'
    unfold ofValue
    rw [h]
  fails v e h := by
    refine ⟨.noValue, ?_⟩
    show ofValue v = .error .noValue
    unfold ofValue
    rw [h]

namespace Registry

/-- In scopes that agree on the names that a text refers to, the stack answers the text alike, and
so does every line of evaluators, with any calculus in front and so with wide numbers. -/
theorem evaluate_of_agreeOn (r : Registry) (text : String) {scope scope' : Scope}
    (h : Scope.AgreeOn (r.references text) scope scope') :
    r.evaluateStrict (r.tokens text) scope = r.evaluateStrict (r.tokens text) scope' ∧
      r.evaluate (r.tokens text) scope = r.evaluate (r.tokens text) scope' ∧
        (∀ line, r.evaluateSource line (.text text) scope =
              r.evaluateSource line (.text text) scope' ∧
            r.evaluateInLine line (.text text) scope = r.evaluateInLine line (.text text) scope') ∧
          ∀ (α : Type) (k : Calculus α) (line : List Evaluator),
            k.evaluateSource r line (.text text) scope =
                k.evaluateSource r line (.text text) scope' ∧
              k.evaluateInLine r line (.text text) scope =
                k.evaluateInLine r line (.text text) scope' := by
  have hstrict := r.evaluateStrict_of_agreeOn h
  have hline (α : Type) (k : Calculus α) (line : List Evaluator) :
      k.evaluateInLine r line (.text text) scope = k.evaluateInLine r line (.text text) scope' :=
    Calculus.evaluateInLine_of_agreeOn h line
  have hwide (line : List Evaluator) :
      r.evaluateInLine line (.text text) scope = r.evaluateInLine line (.text text) scope' :=
    hline Wide Wide.calculus line
  refine ⟨hstrict, ?_, fun line => ⟨hwide line, hwide line⟩,
    fun α k line => ⟨hline α k line, hline α k line⟩⟩
  rw [evaluate, evaluate, hstrict]

/-- Values of two names. -/
def twoNames : Scope :=
  ⟨[("x", .int 2), ("y", .int 9)]⟩

/-- The same values among others, with those of names that a function and a constant have. -/
def manyNames : Scope :=
  ⟨[("pi", .int 4), ("y", .int 9), ("sqrt", .text "none"), ("z", .null), ("x", .int 2)]⟩

/-- The function and the constant are not taken from the scope, and the names that the text refers
to are. -/
theorem evaluate_twoNames :
    Scope.AgreeOn (standard.references "x + sqrt(y) * pi") twoNames manyNames ∧
      twoNames.get? "pi" ≠ manyNames.get? "pi" ∧
        standard.evaluateStrict (standard.tokens "x + sqrt(y) * pi") twoNames ≠
            standard.evaluateStrict (standard.tokens "x + sqrt(y) * pi") .empty ∧
          standard.evaluateStrict (standard.tokens "x + sqrt(y) * pi") twoNames =
              standard.evaluateStrict (standard.tokens "x + sqrt(y) * pi") manyNames ∧
            ∀ (α : Type) (k : Calculus α),
              k.evaluateSource standard (Evaluator.line true) (.text "x + sqrt(y) * pi") twoNames =
                k.evaluateSource standard (Evaluator.line true) (.text "x + sqrt(y) * pi")
                  manyNames := by
  have hnames : standard.references "x + sqrt(y) * pi" = ["x", "y"] := by decide +kernel
  have hagree : Scope.AgreeOn (standard.references "x + sqrt(y) * pi") twoNames manyNames := by
    rw [hnames]
    exact List.forall_mem_cons.2 ⟨rfl, List.forall_mem_singleton.2 rfl⟩
  have hnone : twoNames.get? "pi" = none := rfl
  have hsome : manyNames.get? "pi" = some (.int 4) := rfl
  have hread : standard.evaluateStrict (standard.tokens "x + sqrt(y) * pi") twoNames ≠
      standard.evaluateStrict (standard.tokens "x + sqrt(y) * pi") .empty := by
    decide +kernel
  obtain ⟨hstack, -, -, hline⟩ := evaluate_of_agreeOn standard "x + sqrt(y) * pi" hagree
  exact ⟨hagree, by simp [hnone, hsome], hread, hstack, fun α k => (hline α k _).1⟩

end Registry

end LiveSheet
