import LiveSheet.Proofs.Conservation
import LiveSheet.Proofs.Inlining
import LiveSheet.Proofs.Range
import LiveSheet.Proofs.Relevance

/-!
# Values that are too large

Every value from outside counts as a finite number, and as 0 if it cannot be used as one, with one
exception: a whole number from `2^1024 - 2^970` on is refused (`Value.coerce_of_oversized`). The
exact evaluator leaves an expression that refers to such a value to the stack. There it is met by
the step that reads it, and this is all that a run on the stack can raise
(`Postfix.exists_front_of_run`): everything else that goes wrong is a fault, and answered.

So a text without such a reference is answered, as if every value in the scope were the number that
it counts as. A text with such a reference raises if its run comes to that reference, and is
answered with `Error` if it stops with a fault before (`Registry.Evaluates.answers_or_raises`).
-/

namespace LiveSheet

/-! ### Values -/

namespace Value

/-- Whether the value is a whole number beyond the binary64 range, by half a last place of the
greatest number or more. -/
def Oversized : Value → Prop
  | int n => 2 ^ 1024 - 2 ^ 970 ≤ n.natAbs
  | _ => False

/-- The number that a value is or that its text starts with, which may be no finite one. -/
def numeral? : Value → Option Float
  | null => none
  | bool _ => none
  | int n => some (Binary64.ofInt n)
  | float x => some x
  | v => Decimal.numeralPrefix? v.asText

/-- What a value counts as: its number if there is one and it is finite, and 0 otherwise. -/
def count (v : Value) : Float :=
  ((v.numeral?).filter Binary64.isFinite).getD 0

/-- What a value counts as is finite. -/
theorem isFinite_count (v : Value) : Binary64.isFinite v.count = true := by
  have hzero : Binary64.isFinite 0 = true := by decide +kernel
  unfold count
  cases hnumeral : v.numeral?.filter Binary64.isFinite with
  | none => exact hzero
  | some x => exact (Option.filter_eq_some_iff.1 hnumeral).2

/-- An oversized integer has no float. -/
theorem coerce_of_oversized {v : Value} (h : v.Oversized) : v.coerce = .error .oversized := by
  cases v with
  | int n =>
    have hinfinite : ¬ Binary64.isFinite (Binary64.ofInt n) = true := fun hfinite =>
      absurd ((Binary64.isFinite_ofInt n).1 hfinite) (not_lt.2 h)
    rw [coerce, floatOfInt, if_neg hinfinite]
  | _ => exact h.elim

/-- A float that is not finite counts as zero. -/
theorem finiteOrZero_eq (x : Float) :
    finiteOrZero x = ((some x).filter Binary64.isFinite).getD 0 := by
  unfold finiteOrZero
  by_cases hfinite : Binary64.isFinite x = true <;> simp [Option.filter, hfinite]

/-- A value that is not oversized is converted to what it counts as. -/
theorem coerce_of_not_oversized {v : Value} (h : ¬ v.Oversized) : v.coerce = .ok v.count := by
  cases v with
  | null | bool b => rfl
  | int n =>
    have hfinite : Binary64.isFinite (Binary64.ofInt n) = true :=
      (Binary64.isFinite_ofInt n).2 (not_le.1 h)
    rw [coerce, floatOfInt, if_pos hfinite, count, numeral?, Option.filter_some_pos hfinite]
    rfl
  | float x => exact congrArg _ (finiteOrZero_eq x)
  | text s | list items | map entries =>
    unfold coerce count numeral?
    dsimp only
    split
    · next x hx => rw [hx, finiteOrZero_eq]
    · next hx =>
      rw [hx]
      rfl

example : [text "12 m", text "1e999", bool true, list [int 7], int (10 ^ 309)].map count =
    [12, 0, 0, 0, 0] := by
  decide +kernel

end Value

/-- The scope in which every value is the number that it counts as. -/
def Scope.counted (scope : Scope) : Scope :=
  ⟨scope.entries.map fun entry => (entry.1, .float entry.2.count)⟩

/-- The scope of counted values has each name that the scope has. -/
theorem Scope.get?_counted (scope : Scope) (name : String) :
    scope.counted.get? name = (scope.get? name).map fun v => .float v.count :=
  Table.lookup_map (fun _ (v : Value) => Value.float v.count) name scope.entries

/-- In that scope a name has the number that its value counts as. -/
theorem Scope.coerce_counted (scope : Scope) (name : String) :
    ((scope.counted.get? name).getD .null).coerce = .ok ((scope.get? name).getD .null).count := by
  rw [scope.get?_counted]
  cases scope.get? name with
  | none => rfl
  | some v =>
    show (Value.float v.count).coerce = .ok v.count
    rw [Value.coerce, Value.finiteOrZero, if_pos v.isFinite_count]

/-! ### Runs -/

namespace Postfix

variable {r : Registry} {scope : Scope} {steps : List Step}

/-- Whether a run from the empty stack comes to a name whose value is too large. -/
def Stumbles (r : Registry) (scope : Scope) (steps : List Step) : Prop :=
  ∃ front name back stack, steps = front ++ .reference name :: back ∧
    run r scope [] front = .ok stack ∧ ((scope.get? name).getD .null).Oversized

/-- A run that stumbles ends with the overflow. -/
theorem run_of_stumbles (h : Stumbles r scope steps) :
    run r scope [] steps = .error (.number .oversized) := by
  obtain ⟨front, name, back, stack, rfl, hfront, hlarge⟩ := h
  have hvalue := Value.coerce_of_oversized hlarge
  rw [run_append, hfront, Except.bind, run, runStep, hvalue]

/-- Where the numerals can be read, a run raises only at a value that is too large. -/
theorem exists_front_of_run (hnumerals : ∀ text, .number text ∈ steps →
    ∃ x, Decimal.readNumeral? text = some x) {stack : List Float} {e : NumberError}
    (h : run r scope stack steps = .error (.number e)) :
    ∃ front name back stack', steps = front ++ .reference name :: back ∧
      run r scope stack front = .ok stack' ∧ ((scope.get? name).getD .null).Oversized := by
  induction steps generalizing stack with
  | nil => cases h
  | cons step steps ih =>
    rw [run] at h
    cases hstep : runStep r scope stack step with
    | ok stack' =>
      rw [hstep] at h
      obtain ⟨front, name, back, stack'', rfl, hfront, hlarge⟩ :=
        ih (fun text hmem => hnumerals text (List.mem_cons_of_mem step hmem)) h
      exact ⟨step :: front, name, back, stack'', rfl, by rw [run, hstep]; exact hfront, hlarge⟩
    | error e' =>
      rw [hstep] at h
      obtain rfl : e' = .number e := Except.error.inj h
      -- Of the steps, only those that read a number or a name raise, and the numerals are read.
      by_cases hruns : step.Runs scope
      · exact absurd hstep (runStep_ne_number hruns stack e)
      · cases step with
        | reference name =>
          have hlarge : ((scope.get? name).getD .null).Oversized := by
            by_contra hnot
            exact hruns ⟨_, Value.coerce_of_not_oversized hnot⟩
          exact ⟨[], name, steps, stack, rfl, rfl, hlarge⟩
        | number text => exact absurd (hnumerals text List.mem_cons_self) hruns
        | constant name | prefixed symbol | operator symbol | call name =>
          exact absurd trivial hruns

/-- What has been run to its end has not come to such a value. -/
theorem not_oversized_of_run {stack : List Float} (h : run r scope [] steps = .ok stack)
    {name : String} (hmem : .reference name ∈ steps) :
    ¬ ((scope.get? name).getD .null).Oversized := by
  intro hlarge
  obtain ⟨front, back, rfl⟩ := List.append_of_mem hmem
  have hrun := h
  rw [run_append] at hrun
  cases hfront : run r scope [] front with
  | error e =>
    rw [hfront] at hrun
    cases hrun
  | ok middle =>
    rw [run_of_stumbles ⟨front, name, back, middle, rfl, hfront, hlarge⟩] at h
    cases h

end Postfix

namespace Registry

variable {r : Registry} {text : String} {scope : Scope}

/-- Whether the text has a postfix order whose run comes to a name with such a value. -/
def Stumbles (r : Registry) (text : String) (scope : Scope) : Prop :=
  ∃ steps, Postfix.order r (r.tokens text) = .ok steps ∧ Postfix.Stumbles r scope steps

/-- Whether the text refers to a name whose value is too large. -/
def RefersToOversized (r : Registry) (text : String) (scope : Scope) : Prop :=
  ∃ name ∈ r.references text, ((scope.get? name).getD .null).Oversized

/-- A run only stumbles over an oversized integer that its text refers to. -/
theorem Stumbles.refersToOversized (h : r.Stumbles text scope) :
    r.RefersToOversized text scope := by
  obtain ⟨steps, horder, front, name, back, stack, rfl, -, hlarge⟩ := h
  have hmem : ⟨.reference, name⟩ ∈ r.tokens text :=
    Postfix.token_mem_of_order horder (List.mem_append_right front List.mem_cons_self)
  exact ⟨name, mem_referencesOf.2 hmem, hlarge⟩

/-- The evaluation of such a text overflows. -/
theorem evaluate_of_stumbles (h : r.Stumbles text scope) :
    r.evaluate (r.tokens text) scope = .error .oversized := by
  obtain ⟨steps, horder, hstumbles⟩ := h
  rw [evaluate, evaluateStrict, horder]
  simp only [Postfix.run_of_stumbles hstumbles]

/-- A reference of the text is read in its order. -/
theorem mem_order_of_mem_references {steps : List Postfix.Step}
    (horder : Postfix.order r (r.tokens text) = .ok steps) {name : String}
    (hmem : name ∈ r.references text) : .reference name ∈ steps := by
  have htoken : ⟨.reference, name⟩ ∈ (r.tokens text).filter Token.isOperand :=
    List.mem_filter.2 ⟨mem_referencesOf.1 hmem, rfl⟩
  rw [← Postfix.operands_of_orderFrom horder] at htoken
  obtain ⟨step, hstep, heq⟩ := List.mem_map.1 (List.mem_filter.1 htoken).1
  cases step with
  | reference name' =>
    obtain rfl : name' = name := (Token.mk.inj heq).2
    exact hstep
  | _ => cases heq

/-- Otherwise the stack answers, and with `Error` if there is such a name all the same. -/
theorem evaluate_of_not_stumbles (h : ¬ r.Stumbles text scope) :
    r.evaluate (r.tokens text) scope = .ok (.failed .error) ∨
      ¬ r.RefersToOversized text scope ∧
        ∃ x, r.evaluate (r.tokens text) scope = .ok (.number x) := by
  unfold evaluate evaluateStrict
  cases horder : Postfix.order r (r.tokens text) with
  | error f => exact .inl rfl
  | ok steps =>
    dsimp only
    cases hrun : Postfix.run r scope [] steps with
    | ok stack =>
      have hnone : ¬ r.RefersToOversized text scope := fun ⟨name, hmem, hlarge⟩ =>
        Postfix.not_oversized_of_run hrun (mem_order_of_mem_references horder hmem) hlarge
      cases stack with
      | nil => exact .inr ⟨hnone, 0, rfl⟩
      | cons x below => exact .inr ⟨hnone, x, rfl⟩
    | error e =>
      cases e with
      | fault f => exact .inl rfl
      | number e =>
        -- Numerals of a text can be read, so only a reference can raise.
        have hnumerals : ∀ digits, .number digits ∈ steps →
            ∃ x, Decimal.readNumeral? digits = some x := by
          intro digits hmem
          have hread := readable_of_mem_tokens (Postfix.token_mem_of_order horder hmem)
          exact hread rfl
        exact absurd ⟨steps, horder, Postfix.exists_front_of_run hnumerals hrun⟩ h

end Registry

/-! ### Trees -/

namespace Expr

variable {name : String}

mutual

/-- A reference among the tokens of an expression is a part of it. -/
theorem reference_mem_parts :
    (e : Expr) → ⟨.reference, name⟩ ∈ e.tokens → .reference name ∈ e.parts
  | .number text, h | .constant text, h => by simp [tokens] at h
  | .reference name', h => by simpa [tokens, parts] using h
  | .prefixed symbol operand, h => by
    have hmem : ⟨.reference, name⟩ ∈ operand.tokens := by simpa [tokens] using h
    rw [parts]
    exact List.mem_cons_of_mem _ (reference_mem_parts operand hmem)
  | .binary symbol left right, h => by
    have hmem : ⟨.reference, name⟩ ∈ left.tokens ∨ ⟨.reference, name⟩ ∈ right.tokens := by
      simpa [tokens] using h
    rw [parts]
    refine List.mem_cons_of_mem _ (List.mem_append.2 ?_)
    exact hmem.imp (reference_mem_parts left) (reference_mem_parts right)
  | .group inner, h => by
    have hmem : ⟨.reference, name⟩ ∈ inner.tokens := by
      simpa [tokens, Token.openParen, Token.closeParen] using h
    rw [parts]
    exact List.mem_cons_of_mem _ (reference_mem_parts inner hmem)
  | .call function args, h => by
    have hmem : ⟨.reference, name⟩ ∈ tokensBehind args := by
      simpa [tokens, Token.openParen, Token.closeParen, reference_mem_tokensBehind] using h
    rw [parts]
    exact List.mem_cons_of_mem _ (reference_mem_partsOfAll args hmem)

/-- The same of a list of trees. -/
theorem reference_mem_partsOfAll :
    (es : List Expr) → ⟨.reference, name⟩ ∈ tokensBehind es → .reference name ∈ partsOfAll es
  | [], h => by simp [tokensBehind] at h
  | e :: es, h => by
    have hmem : ⟨.reference, name⟩ ∈ e.tokens ∨ ⟨.reference, name⟩ ∈ tokensBehind es := by
      simpa [tokensBehind] using h
    rw [partsOfAll]
    exact List.mem_append.2 (hmem.imp (reference_mem_parts e) (reference_mem_partsOfAll es))

end

/-- What a text refers to is a part of its tree, if it is read strictly. -/
theorem reference_mem_parts_of_parse {r : Registry} {text : String} {e : Expr}
    (h : parse .strict (r.tokens text) = .ok e) (hmem : name ∈ r.references text) :
    .reference name ∈ e.parts := by
  have htoken : ⟨.reference, name⟩ ∈ r.tokens text := mem_referencesOf.1 hmem
  have hne : r.tokens text ≠ [] := List.ne_nil_of_mem htoken
  have htokens := (derives_of_parse_strict hne (Lexer.callsOpen_tokens _ text) h).2
  refine reference_mem_parts e ?_
  rw [htokens]
  exact List.mem_map.2 ⟨_, htoken, rfl⟩

end Expr

namespace Calculus

variable {α : Type} {k : Calculus α}

/-- A text that refers to a value that is too large is refused. -/
theorem Coerces.refused (hk : k.Coerces) {r : Registry} {text : String} {scope : Scope}
    (h : r.RefersToOversized text scope) :
    ∃ refusal, k.evaluateSourceExact r (.text text) scope = .error refusal := by
  obtain ⟨name, hmem, hlarge⟩ := h
  cases heval : k.evaluateSourceExact r (.text text) scope with
  | error refusal => exact ⟨refusal, rfl⟩
  | ok y =>
    obtain ⟨e, hread, heval⟩ := Expr.ok_of_bind heval
    obtain ⟨x, hx, -⟩ := Expr.ok_of_bind heval
    have hparse := (Registry.readTree_ok_iff.1 hread).2.2
    obtain ⟨z, hz⟩ := hereditary_convert.of_mem_parts e ⟨x, hx⟩
      (Expr.reference_mem_parts_of_parse hparse hmem)
    obtain ⟨refusal, hrefusal⟩ := hk.fails _ _ (Value.coerce_of_oversized hlarge)
    rw [convert, hrefusal] at hz
    cases hz

end Calculus

/-! ### Outcomes -/

namespace Registry

/-- The ways in which a text is evaluated in a scope: on the stack, by the evaluators in line, with
or without the exact one, and with another calculus in its place that reads values as numbers. -/
inductive Evaluates (r : Registry) (text : String) : (Scope → Except NumberError Result) → Prop
  | stack : r.Evaluates text (r.evaluate (r.tokens text))
  | source (exact : Bool) :
      r.Evaluates text (r.evaluateSource (Evaluator.line exact) (.text text))
  | line (exact : Bool) : r.Evaluates text (r.evaluateInLine (Evaluator.line exact) (.text text))
  | tokens (exact : Bool) :
      r.Evaluates text (r.evaluateInLine (Evaluator.line exact) (.tokens (r.tokens text)))
  | calculus {α : Type} {k : Calculus α} (hk : k.Coerces) (exact : Bool) :
      r.Evaluates text (k.evaluateInLine r (Evaluator.line exact) (.text text))

/-- What a way to evaluate a text answers in a scope. -/
structure Outcome (r : Registry) (text : String) (ask : Scope → Except NumberError Result)
    (scope : Scope) : Prop where
  /-- It raises if the text comes to a value that is too large, and only then. -/
  raises : r.Stumbles text scope → ask scope = .error .oversized
  /-- Otherwise it answers a number or `Error`, and `Error` if the text refers to such a value. -/
  answers : ¬ r.Stumbles text scope → ask scope = .ok (.failed .error) ∨
    ¬ r.RefersToOversized text scope ∧ ∃ x, ask scope = .ok (.number x)
  /-- If the text refers to no such value, every value is the number that it counts as. -/
  counts : ¬ r.RefersToOversized text scope → ask scope.counted = ask scope

variable {r : Registry} {text : String}

/-- Values that are not too large are read as the numbers that they count as. -/
theorem coerce_counted_of_not_refersToOversized {scope : Scope}
    (h : ¬ r.RefersToOversized text scope) : ∀ name ∈ r.references text,
      ((scope.counted.get? name).getD .null).coerce = ((scope.get? name).getD .null).coerce := by
  intro name hmem
  have hsmall : ¬ ((scope.get? name).getD .null).Oversized := fun hlarge => h ⟨name, hmem, hlarge⟩
  rw [scope.coerce_counted, Value.coerce_of_not_oversized hsmall]

/-- Running the postfix order answers or overflows as the run does. -/
theorem outcome_stack (r : Registry) (text : String) (scope : Scope) :
    r.Outcome text (r.evaluate (r.tokens text)) scope where
  raises := evaluate_of_stumbles
  answers := evaluate_of_not_stumbles
  counts h := by
    rw [evaluate, evaluate, r.evaluateStrict_congr (coerce_counted_of_not_refersToOversized h)]

/-- In front of the stack, a calculus answers a number or leaves the text to it. -/
theorem outcome_calculus (r : Registry) (text : String) {α : Type} {k : Calculus α}
    (hk : k.Coerces) (exact : Bool) (scope : Scope) :
    r.Outcome text (k.evaluateInLine r (Evaluator.line exact) (.text text)) scope := by
  have hstack := outcome_stack r text scope
  have hcounts : ¬ r.RefersToOversized text scope →
      k.evaluateInLine r (Evaluator.line exact) (.text text) scope.counted =
        k.evaluateInLine r (Evaluator.line exact) (.text text) scope := by
    intro h
    have hvalues := coerce_counted_of_not_refersToOversized h
    have hexact := fun name hmem => hk.congr _ _ (hvalues name hmem)
    exact Calculus.evaluateInLine_congr hexact hvalues _
  cases exact with
  | false => exact ⟨hstack.raises, hstack.answers, hcounts⟩
  | true =>
    -- Where the calculus refuses, the stack answers in its place.
    have hfront : Evaluator.line true = [.tree, .stack] := rfl
    cases hexact : k.evaluateSourceExact r (.text text) scope with
    | error refusal =>
      have hline : k.evaluateInLine r (Evaluator.line true) (.text text) scope =
          r.evaluate (r.tokens text) scope := by
        rw [hfront, Calculus.evaluateInLine, hexact, Calculus.evaluateInLine, tokensOf]
      exact ⟨fun h => hline.trans (hstack.raises h), fun h => by rw [hline]; exact hstack.answers h,
        hcounts⟩
    | ok x =>
      have hline : k.evaluateInLine r (Evaluator.line true) (.text text) scope =
          .ok (.number x) := by
        rw [hfront, Calculus.evaluateInLine, hexact]
      -- The calculus coerces all that the text refers to, and would have refused.
      have hnone : ¬ r.RefersToOversized text scope := by
        intro h
        obtain ⟨refusal, hrefusal⟩ := hk.refused h
        rw [hexact] at hrefusal
        cases hrefusal
      exact ⟨fun h => absurd h.refersToOversized hnone, fun _ => .inr ⟨hnone, x, hline⟩, hcounts⟩

/-- In every scope a text is answered with a number or with `Error`, as if each value were the
finite number that it counts as, unless the text refers to a whole number beyond the binary64 range.
With such a reference it is answered with `Error`, or raises, the latter exactly if the run on the
stack comes to the reference. -/
theorem Evaluates.answers_or_raises {ask : Scope → Except NumberError Result}
    (h : r.Evaluates text ask) (scope : Scope) : r.Outcome text ask scope := by
  have hwide (exact : Bool) :
      r.Outcome text (r.evaluateInLine (Evaluator.line exact) (.text text)) scope :=
    outcome_calculus r text Wide.coerces_calculus exact scope
  cases h with
  | stack => exact outcome_stack r text scope
  | source exact => exact hwide exact
  | line exact => exact hwide exact
  | tokens exact =>
    -- There is no text to take, so the tokens are left to the stack.
    cases exact <;> exact outcome_stack r text scope
  | calculus hk exact => exact outcome_calculus r text hk exact scope

/-- A text with a unit, a list, and a whole number of 310 digits. -/
def mixedScope : Scope :=
  ⟨[("x", .text "3 kg"), ("y", .list [.bool true]), ("z", .int (10 ^ 309))]⟩

/-- The text does not refer to the value that is too large, and the list counts as 0. -/
theorem outcome_mixedScope :
    standard.Evaluates "2 * x + y"
        (standard.evaluateSource (Evaluator.line true) (.text "2 * x + y")) ∧
      ¬ standard.RefersToOversized "2 * x + y" mixedScope ∧
        standard.evaluateSource (Evaluator.line true) (.text "2 * x + y") mixedScope =
          .ok (.number 6) ∧
        standard.Outcome "2 * x + y"
          (standard.evaluateSource (Evaluator.line true) (.text "2 * x + y")) mixedScope := by
  have hask : standard.Evaluates "2 * x + y"
      (standard.evaluateSource (Evaluator.line true) (.text "2 * x + y")) := .source true
  have hnames : standard.references "2 * x + y" = ["x", "y"] := by decide +kernel
  have hsmall : ¬ standard.RefersToOversized "2 * x + y" mixedScope := by
    rintro ⟨name, hmem, hlarge⟩
    rw [hnames, List.mem_cons, List.mem_singleton] at hmem
    rcases hmem with rfl | rfl <;> exact hlarge
  have hexact : Wide.calculus.evaluateSourceExact standard (.text "2 * x + y") mixedScope =
      .ok 6 := by
    decide +kernel
  have hvalue : standard.evaluateSource (Evaluator.line true) (.text "2 * x + y") mixedScope =
      .ok (.number 6) :=
    Calculus.evaluateInLine_of_ok [.stack] hexact
  exact ⟨hask, hsmall, hvalue, hask.answers_or_raises mixedScope⟩

/-- A whole number of 310 digits. -/
def largeScope : Scope :=
  ⟨[("x", .int (10 ^ 309))]⟩

/-- Its value is no finite number and should count as 0, but no way to evaluate the name answers. -/
theorem evaluate_largeScope :
    standard.evaluateSource (Evaluator.line true) (.text "x") largeScope = .error .oversized ∧
      standard.evaluateInLine (Evaluator.line true) (.text "x") largeScope = .error .oversized ∧
        standard.evaluate (standard.tokens "x") largeScope = .error .oversized ∧
          standard.evaluate (standard.tokens "x") largeScope.counted = .ok (.number 0) := by
  have hlarge : ((largeScope.get? "x").getD .null).Oversized :=
    show 2 ^ 1024 - 2 ^ 970 ≤ (10 ^ 309 : Int).natAbs by decide +kernel
  have hstumbles : standard.Stumbles "x" largeScope :=
    ⟨[.reference "x"], by decide +kernel, [], "x", [], [], rfl, rfl, hlarge⟩
  have hstack : standard.evaluate (standard.tokens "x") largeScope = .error .oversized :=
    evaluate_of_stumbles hstumbles
  have hline := outcome_calculus standard "x" Wide.coerces_calculus true largeScope
  have hzero : standard.evaluateStrict (standard.tokens "x") largeScope.counted = .ok 0 := by
    decide +kernel
  have hinLine : standard.evaluateInLine (Evaluator.line true) (.text "x") largeScope =
      .error .oversized :=
    hline.raises hstumbles
  exact ⟨hinLine, hinLine, hstack, by rw [evaluate, hzero]⟩

end Registry

end LiveSheet
