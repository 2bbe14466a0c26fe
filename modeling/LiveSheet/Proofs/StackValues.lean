import LiveSheet.Proofs.Height
import LiveSheet.Proofs.NotANumber
import LiveSheet.Registry.Standard

/-!
# Values on the stack

What is on the stack while an expression runs is never `nan`: numerals and what is read from a scope
are numbers, and what an operation makes is looked at before it gets there. A step takes only values
that are there, as many as it is made for. So a run goes well to its end, or stops with a fault
(`Postfix.GoesWell`), and the stack answers every text with a number or with `Error`, whatever the
operations of a registry compute.
-/

namespace LiveSheet

namespace Postfix

variable {r : Registry} {scope : Scope} {step : Step} {steps : List Step}
  {stack stack' : List Float}

/-- A step whose numeral is read as a number, and whose name stands for one. -/
def Step.YieldsNumber (scope : Scope) : Step → Prop
  | .number text => ∃ x, Decimal.readNumeral? text = some x ∧ x.isNaN = false
  | .reference name =>
    ∃ x, ((scope.get? name).getD .null).coerce = .ok x ∧ x.isNaN = false
  | _ => True

/-- A step that yields a number runs. -/
theorem Step.YieldsNumber.runs (h : step.YieldsNumber scope) : step.Runs scope := by
  cases step with
  | number text | reference name =>
    obtain ⟨x, hx, -⟩ := h
    exact ⟨x, hx⟩
  | _ => trivial

/-! ### What a step puts on the stack -/

/-- What is pushed has been looked at. -/
theorem isNaN_of_push {symbol : String} {value x : Float} {below : List Float}
    (h : push symbol value stack = .ok (x :: below)) : x.isNaN = false := by
  unfold push at h
  split at h
  · cases h
  · next hnumber =>
    obtain ⟨rfl, -⟩ := List.cons.inj (Except.ok.inj h)
    exact Bool.eq_false_iff.2 hnumber

/-- What a step puts on the stack is a number. -/
theorem isNaN_of_runStep {x : Float} {below : List Float} (hstep : step.YieldsNumber scope)
    (h : runStep r scope stack step = .ok (x :: below)) : x.isNaN = false := by
  cases step with
  | number text | reference name =>
    -- The other steps go through the check of what is pushed; these two do not.
    obtain ⟨y, hy, hnumber⟩ := hstep
    simp only [runStep, hy] at h
    obtain ⟨rfl, -⟩ := List.cons.inj (Except.ok.inj h)
    exact hnumber
  | constant name => exact isNaN_of_push h
  | prefixed symbol =>
    simp only [runStep] at h
    split at h
    · split at h <;> exact isNaN_of_push h
    · cases h
  | operator symbol =>
    simp only [runStep] at h
    split at h
    · split at h <;> exact isNaN_of_push h
    · cases h
  | call name =>
    simp only [runStep] at h
    split at h
    · cases h
    · split at h
      · cases h
      · exact isNaN_of_push h

/-- Whether a step on a stack stops with a fault, or takes as many values as it is made for, which
are all there, and puts a number in their place that does not depend on what is below. -/
def GoesOn (r : Registry) (scope : Scope) (stack : List Float) (step : Step) : Prop :=
  (∃ f, runStep r scope stack step = .error (.fault f)) ∨
    ∃ taken below x, stack = taken ++ below ∧ (taken.length : Int) = 1 - step.effect r ∧
      x.isNaN = false ∧ ∀ other, runStep r scope (taken ++ other) step = .ok (x :: other)

/-- A step with numbers at hand goes on. -/
theorem goesOn (hstep : step.YieldsNumber scope) (stack : List Float) :
    GoesOn r scope stack step := by
  cases h : runStep r scope stack step with
  | error e =>
    cases e with
    | fault f => exact .inl ⟨f, h⟩
    | number e => exact absurd h (runStep_ne_number hstep.runs stack e)
  | ok stack' =>
    obtain ⟨taken, below, x, rfl, rfl, heffect, hother⟩ := exists_taken_of_runStep h
    exact .inr ⟨taken, below, x, rfl, by omega, isNaN_of_runStep hstep h, hother⟩

/-! ### Runs -/

/-- A step leaves a stack of numbers. -/
theorem numbers_of_runStep (hstep : step.YieldsNumber scope) (hstack : ∀ x ∈ stack, x.isNaN = false)
    (h : runStep r scope stack step = .ok stack') : ∀ x ∈ stack', x.isNaN = false := by
  obtain ⟨taken, below, x, rfl, rfl, -, -⟩ := exists_taken_of_runStep h
  refine List.forall_mem_cons.2 ⟨isNaN_of_runStep hstep h, fun y hy => ?_⟩
  exact hstack y (List.mem_append_right taken hy)

/-- So do several steps, or they stop with a fault. -/
theorem numbers_of_run (hsteps : ∀ step ∈ steps, step.YieldsNumber scope)
    (hstack : ∀ x ∈ stack, x.isNaN = false) :
    (∃ f, run r scope stack steps = .error (.fault f)) ∨
      ∃ stack', run r scope stack steps = .ok stack' ∧ ∀ x ∈ stack', x.isNaN = false := by
  induction steps generalizing stack with
  | nil => exact .inr ⟨stack, rfl, hstack⟩
  | cons step steps ih =>
    obtain ⟨hstep, hsteps⟩ := List.forall_mem_cons.1 hsteps
    rw [run]
    cases h : runStep r scope stack step with
    | error e =>
      cases e with
      | fault f => exact .inl ⟨f, rfl⟩
      | number e => exact absurd h (runStep_ne_number hstep.runs stack e)
    | ok stack' => exact ih hsteps (numbers_of_runStep hstep hstack h)

/-- Whether every part of a run from the empty stack stops with a fault or leaves a stack of
numbers, on which the next step goes on. -/
def GoesWell (r : Registry) (scope : Scope) (steps : List Step) : Prop :=
  ∀ front back, steps = front ++ back →
    (∃ f, run r scope [] front = .error (.fault f)) ∨
      ∃ stack, run r scope [] front = .ok stack ∧ (∀ x ∈ stack, x.isNaN = false) ∧
        ∀ step ∈ back.head?, GoesOn r scope stack step

/-- Steps with numbers at hand go well. -/
theorem goesWell (hsteps : ∀ step ∈ steps, step.YieldsNumber scope) : GoesWell r scope steps := by
  rintro front back rfl
  have hempty : ∀ x ∈ ([] : List Float), x.isNaN = false := by simp
  have hfront := numbers_of_run (r := r)
    (fun step hstep => hsteps step (List.mem_append_left back hstep)) hempty
  refine hfront.imp_right fun ⟨stack, hrun, hnumbers⟩ => ⟨stack, hrun, hnumbers, ?_⟩
  intro step hstep
  have hmem : step ∈ front ++ back := List.mem_append_right front (List.mem_of_mem_head? hstep)
  exact goesOn (hsteps step hmem) stack

end Postfix

/-! ### Scopes -/

/-- Whether a scope holds nothing but floats, texts and truth values, or nothing. -/
def Scope.IsPlain (scope : Scope) : Prop :=
  ∀ name v, scope.get? name = some v →
    v = .null ∨ (∃ b, v = .bool b) ∨ (∃ x, v = .float x) ∨ ∃ s, v = .text s

/-- What is no finite number counts as 0. -/
theorem Value.isNaN_finiteOrZero (x : Float) : (finiteOrZero x).isNaN = false := by
  unfold finiteOrZero
  split
  · next hfinite => exact Binary64.isNaN_of_isFinite hfinite
  · decide +kernel

/-- Such a scope has a number for every name. -/
theorem Scope.IsPlain.coerce {scope : Scope} (h : scope.IsPlain) (name : String) :
    ∃ x, ((scope.get? name).getD .null).coerce = .ok x ∧ x.isNaN = false := by
  have hzero : (0 : Float).isNaN = false := by decide +kernel
  cases hv : scope.get? name with
  | none => exact ⟨0, rfl, hzero⟩
  | some v =>
    rcases h name v hv with rfl | ⟨b, rfl⟩ | ⟨x, rfl⟩ | ⟨s, rfl⟩
    · exact ⟨0, rfl, hzero⟩
    · exact ⟨0, rfl, hzero⟩
    · exact ⟨_, rfl, Value.isNaN_finiteOrZero x⟩
    · rw [Option.getD_some, Value.coerce]
      · split
        · exact ⟨_, rfl, Value.isNaN_finiteOrZero _⟩
        · exact ⟨0, rfl, hzero⟩
      all_goals simp

namespace Registry

/-- The text of a number token is read as a number. -/
theorem number_of_mem_tokens {r : Registry} {s : String} {t : Token} (h : t ∈ r.tokens s)
    (hkind : t.kind = .number) : ∃ x, Decimal.readNumeral? t.text = some x ∧ x.isNaN = false := by
  obtain ⟨c, cs, spelling, hpiece⟩ := Lexer.exists_nextPiece_of_mem_tokens h
  obtain ⟨rest, htake, htext⟩ := (Lexer.nextPiece_token hpiece).1 hkind
  rw [htext]
  exact ⟨_, Decimal.readNumeral?_eq_of_takeNumber? htake, Decimal.isNaN_nearest ..⟩

/-- The steps of a text yield numbers, if the scope has one for every name. -/
theorem yieldsNumber_of_order {r : Registry} {text : String} {scope : Scope}
    {steps : List Postfix.Step} (hscope : scope.IsPlain)
    (horder : Postfix.order r (r.tokens text) = .ok steps) :
    ∀ step ∈ steps, step.YieldsNumber scope := by
  intro step hstep
  cases step with
  | number digits =>
    have hmem : ⟨.number, digits⟩ ∈ r.tokens text := Postfix.token_mem_of_order horder hstep
    have hread := number_of_mem_tokens hmem rfl
    exact hread
  | reference name => exact hscope.coerce name
  | constant name | prefixed symbol | operator symbol | call name => trivial

/-- Whatever the operations of a registry compute, and whatever floats, texts and truth values are
in the scope, the stack answers every text with `Error` or with a number that is not `nan`. Every
number token is read as a number, no value on the way is `nan`, and no step takes a value that is
not on the stack. -/
theorem evaluate_isNumber (r : Registry) (text : String) {scope : Scope}
    (hscope : scope.IsPlain) :
    (r.evaluate (r.tokens text) scope = .ok (.failed .error) ∨
      ∃ x, r.evaluate (r.tokens text) scope = .ok (.number x) ∧ x.isNaN = false) ∧
    (∀ t ∈ r.tokens text, t.kind = .number →
      ∃ x, Decimal.readNumeral? t.text = some x ∧ x.isNaN = false) ∧
    ∀ steps, Postfix.order r (r.tokens text) = .ok steps → Postfix.GoesWell r scope steps := by
  refine ⟨?_, fun t ht hkind => number_of_mem_tokens ht hkind, fun steps horder =>
    Postfix.goesWell (yieldsNumber_of_order hscope horder)⟩
  unfold evaluate evaluateStrict
  cases horder : Postfix.order r (r.tokens text) with
  | error f => exact .inl rfl
  | ok steps =>
    have hsteps := yieldsNumber_of_order hscope horder
    have hempty : ∀ x ∈ ([] : List Float), x.isNaN = false := by simp
    rcases Postfix.numbers_of_run (r := r) hsteps hempty with
      ⟨f, hrun⟩ | ⟨stack, hrun, hnumbers⟩
    · simp only [hrun]
      exact .inl trivial
    · simp only [hrun]
      -- An empty stack counts as 0, and on any other the top is a number.
      cases stack with
      | nil => exact .inr ⟨0, rfl, by decide +kernel⟩
      | cons x below => exact .inr ⟨x, rfl, hnumbers x List.mem_cons_self⟩

/-- A scope with an infinite value, one that stands for no number, and a text with a unit. -/
def looseScope : Scope :=
  ⟨[("A", .float (Binary64.infinity false)), ("B", .text "12 m"), ("C", .float Binary64.nan),
    ("D", .bool true), ("E", .null)]⟩

/-- The values of the scope are plain. -/
theorem isPlain_looseScope : looseScope.IsPlain := by
  intro name v hv
  have hmem : (name, v) ∈ looseScope.entries := Table.mem_of_lookup hv
  simp only [looseScope, List.mem_cons, Prod.mk.injEq, List.not_mem_nil, or_false] at hmem
  rcases hmem with ⟨-, rfl⟩ | ⟨-, rfl⟩ | ⟨-, rfl⟩ | ⟨-, rfl⟩ | ⟨-, rfl⟩
  · exact .inr (.inr (.inl ⟨_, rfl⟩))
  · exact .inr (.inr (.inr ⟨_, rfl⟩))
  · exact .inr (.inr (.inl ⟨_, rfl⟩))
  · exact .inr (.inl ⟨_, rfl⟩)
  · exact .inl rfl

/-- Behind the comma nothing comes, and the value is a number all the same. -/
theorem evaluate_isNumber_loose :
    looseScope.IsPlain ∧
      standard.evaluate (standard.tokens "2 * B + (A - C) * D / 4 + E,") looseScope =
        .ok (.number 24) ∧
      (standard.evaluate (standard.tokens "2 * B + (A - C) * D / 4 + E,") looseScope =
          .ok (.failed .error) ∨
        ∃ x, standard.evaluate (standard.tokens "2 * B + (A - C) * D / 4 + E,") looseScope =
          .ok (.number x) ∧ x.isNaN = false) := by
  have hstrict : standard.evaluateStrict (standard.tokens "2 * B + (A - C) * D / 4 + E,")
      looseScope = .ok 24 := by
    decide +kernel
  have hnumber := evaluate_isNumber standard "2 * B + (A - C) * D / 4 + E," isPlain_looseScope
  exact ⟨isPlain_looseScope, by rw [evaluate, hstrict], hnumber.1⟩

end Registry

end LiveSheet
