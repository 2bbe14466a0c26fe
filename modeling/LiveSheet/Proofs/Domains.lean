import LiveSheet.Proofs.Delegation

/-!
# Numbers outside the domains of the stack

The evaluator of trees and the stack compute the same trees, but not every operation has the same
domain: the trees want only the value of each part to be a number in range. `answersError_iff` says
which texts are an error on the stack and a number with a calculus in front of it: those of which
some part has a value in the calculus although the stack has its operands outside the domain of the
rule. No other fault of the stack can be answered with a number.
-/

namespace LiveSheet

/-- Whether a calculus takes only such numerals and values as the stack can read. -/
structure Calculus.ReadsInputs {α : Type} (k : Calculus α) : Prop where
  number : ∀ {text x}, k.number text = .ok x → ∃ y, Decimal.readNumeral? text = some y
  reference : ∀ {v x}, k.reference v = .ok x → ∃ y, v.coerce = .ok y

namespace Expr

section

variable {r : Registry} {scope : Scope}

/-- Whether the stack has all operands of an operation, but the operation has no value for them. -/
def OutsideDomain (r : Registry) (scope : Scope) : Expr → Prop
  | number _ => False
  | reference _ => False
  | constant name => ((r.constant? name).getD Binary64.nan).isNaN = true
  | prefixed symbol operand =>
    ∃ a, operand.value r scope = .ok a ∧
      ((r.prefix? symbol).elim Binary64.nan (·.compute a)).isNaN = true
  | binary symbol left right =>
    ∃ a b, left.value r scope = .ok a ∧ right.value r scope = .ok b ∧
      ((r.operator? symbol).elim Binary64.nan (·.compute a b)).isNaN = true
  | group _ => False
  | call name args =>
    ∃ xs rule, values r scope args = .ok xs ∧ r.function? name = some rule ∧
      (rule.compute xs).isNaN = true

/-- What is no number is a fault of its symbol. -/
theorem checked_of_isNaN (symbol : String) {x : Float} (h : x.isNaN = true) :
    checked symbol x = .error (.fault (.undefinedValue symbol)) :=
  if_pos h

/-- What is checked is a number or a fault. -/
theorem checked_cases (symbol : String) (x : Float) :
    checked symbol x = .ok x ∨
      checked symbol x = .error (.fault (.undefinedValue symbol)) ∧ x.isNaN = true := by
  unfold checked
  split
  · next h => exact .inr ⟨rfl, h⟩
  · exact .inl rfl

/-- What is outside its domain has no value. -/
theorem OutsideDomain.value_ne_ok {e : Expr} (h : e.OutsideDomain r scope) (x : Float) :
    e.value r scope ≠ .ok x := by
  cases e with
  | number text => exact h.elim
  | reference name => exact h.elim
  | constant name =>
    rw [value, checked_of_isNaN name h]
    simp
  | prefixed symbol operand =>
    obtain ⟨a, ha, hnan⟩ := h
    simp [value, ha, checked_of_isNaN symbol hnan, bind, Except.bind]
  | binary symbol left right =>
    obtain ⟨a, b, ha, hb, hnan⟩ := h
    simp [value, ha, hb, checked_of_isNaN symbol hnan, bind, Except.bind]
  | group inner => exact h.elim
  | call name args =>
    obtain ⟨xs, rule, hxs, hrule, hnan⟩ := h
    simp [value, hxs, hrule, checked_of_isNaN name hnan, bind, Except.bind]

/-- Arguments that have values have each one. -/
theorem value_of_mem_args {args : List Expr} {xs : List Float} (h : values r scope args = .ok xs) :
    ∀ arg ∈ args, ∃ y, arg.value r scope = .ok y := by
  induction args generalizing xs with
  | nil => simp
  | cons e es ih =>
    rw [values] at h
    obtain ⟨y, hy, h⟩ := ok_of_bind h
    obtain ⟨ys, hys, -⟩ := ok_of_bind h
    exact List.forall_mem_cons.2 ⟨⟨y, hy⟩, ih hys⟩

/-- The parts of what has a value have values. -/
theorem hereditary_value : Hereditary fun e => ∃ x, e.value r scope = .ok x where
  prefixed := by
    rintro symbol operand ⟨x, hx⟩
    rw [value] at hx
    obtain ⟨a, ha, -⟩ := ok_of_bind hx
    exact ⟨a, ha⟩
  binary := by
    rintro symbol left right ⟨x, hx⟩
    rw [value] at hx
    obtain ⟨a, ha, hx⟩ := ok_of_bind hx
    obtain ⟨b, hb, -⟩ := ok_of_bind hx
    exact ⟨⟨a, ha⟩, b, hb⟩
  group := by
    rintro inner ⟨x, hx⟩
    exact ⟨x, by rwa [value] at hx⟩
  call := by
    rintro name args ⟨x, hx⟩
    rw [value] at hx
    obtain ⟨xs, hxs, -⟩ := ok_of_bind hx
    exact value_of_mem_args hxs

/-! ### What a calculus computes -/

/-- A call is taken only of a function with an exact counterpart, and only with as many arguments as
it is computed from. -/
theorem rule_of_checkCall {name : String} {found : Nat} (h : r.checkCall name found = .ok ()) :
    name ∈ Registry.exactFunctions ∧
      ∃ rule, r.function? name = some rule ∧ (found : Int) = rule.arity.least := by
  unfold Registry.checkCall at h
  split at h
  · cases h
  · next rule hrule =>
    split at h
    · cases h
    · next hexact =>
      split at h
      · cases h
      · next hcount => exact ⟨by simpa using hexact, rule, hrule, by simpa using hcount⟩

section

variable {α : Type} {k : Calculus α}

/-- Whether an expression has a value in a calculus, though the stack has it outside its domain. -/
def OnlyConverted (k : Calculus α) (r : Registry) (scope : Scope) (e : Expr) : Prop :=
  (∃ w, k.convert r scope e = .ok w) ∧ e.OutsideDomain r scope

/-- The stack either comes to a value, or has one of the parts outside its domain. -/
def ValueOrOutside (k : Calculus α) (r : Registry) (scope : Scope) (among : List Expr) {β : Type}
    (value : Except EvaluationError β) : Prop :=
  (∃ x, value = .ok x) ∨
    (∃ symbol, value = .error (.fault (.undefinedValue symbol))) ∧
      ∃ part ∈ among, part.OnlyConverted k r scope

namespace ValueOrOutside

variable {β γ : Type} {among within : List Expr} {v : Except EvaluationError β}

/-- A value is a value. -/
theorem pure (x : β) : ValueOrOutside k r scope among (.ok x) :=
  .inl ⟨x, rfl⟩

/-- What is outside its domain in an operand is so in the whole, and only then the rest counts. -/
theorem bind (h : ValueOrOutside k r scope within v) (hsubset : within ⊆ among)
    {next : β → Except EvaluationError γ}
    (hnext : ∀ x, v = .ok x → ValueOrOutside k r scope among (next x)) :
    ValueOrOutside k r scope among (v.bind next) := by
  rcases h with ⟨x, rfl⟩ | ⟨⟨symbol, rfl⟩, part, hmem, hpart⟩
  · exact hnext x rfl
  · exact .inr ⟨⟨symbol, rfl⟩, part, hsubset hmem, hpart⟩

/-- What is outside its domain in some parts is so among more of them. -/
theorem mono (h : ValueOrOutside k r scope within v) (hsubset : within ⊆ among) :
    ValueOrOutside k r scope among v := by
  rcases h with hvalue | ⟨hfault, part, hmem, hpart⟩
  · exact .inl hvalue
  · exact .inr ⟨hfault, part, hsubset hmem, hpart⟩

/-- An operation has a value or is outside its domain, if its operands have values. -/
theorem of_checked {e : Expr} {w : α} (hconvert : k.convert r scope e = .ok w)
    (symbol : String) {x : Float} (houtside : x.isNaN = true → e.OutsideDomain r scope) :
    ValueOrOutside k r scope e.parts (checked symbol x) := by
  rcases checked_cases symbol x with hx | ⟨hx, hnan⟩
  · exact .inl ⟨x, hx⟩
  · exact .inr ⟨⟨symbol, hx⟩, e, mem_parts e, ⟨w, hconvert⟩, houtside hnan⟩

end ValueOrOutside

/-- The parts of an operand are parts of the whole. -/
theorem parts_subset_prefixed (symbol : String) (operand : Expr) :
    operand.parts ⊆ (prefixed symbol operand).parts :=
  List.subset_cons_self _ _

/-- So are those of a left operand. -/
theorem parts_subset_left (symbol : String) (left right : Expr) :
    left.parts ⊆ (binary symbol left right).parts :=
  List.subset_cons_of_subset _ (List.subset_append_left _ _)

/-- And those of a right one. -/
theorem parts_subset_right (symbol : String) (left right : Expr) :
    right.parts ⊆ (binary symbol left right).parts :=
  List.subset_cons_of_subset _ (List.subset_append_right _ _)

/-- And those of the arguments of a call. -/
theorem parts_subset_call (name : String) (args : List Expr) :
    partsOfAll args ⊆ (call name args).parts :=
  List.subset_cons_self _ _

mutual

/-- What has a value in a calculus has one on the stack too, unless a part is outside its domain. -/
theorem valueOrOutside_of_convert (hk : k.ReadsInputs) : (e : Expr) → (w : α) →
    k.convert r scope e = .ok w →
      e.callsFull r = true ∧ ValueOrOutside k r scope e.parts (e.value r scope)
  | number text, w, h => by
    refine ⟨rfl, ?_⟩
    rw [Calculus.convert] at h
    obtain ⟨x, hx⟩ := hk.number h
    rw [value, hx]
    exact .pure x
  | reference name, w, h => by
    refine ⟨rfl, ?_⟩
    rw [Calculus.convert] at h
    obtain ⟨x, hx⟩ := hk.reference h
    rw [value]
    cases hget : scope.get? name with
    | none => exact .pure 0
    | some v =>
      rw [hget, Option.getD_some] at hx
      simp only [hx, Except.mapError]
      exact .pure x
  | constant name, w, h => ⟨rfl, by rw [value]; exact .of_checked h name id⟩
  | prefixed symbol operand, w, h => by
    obtain ⟨u, hu⟩ := Calculus.hereditary_convert.prefixed ⟨w, h⟩
    obtain ⟨hfull, hoperand⟩ := valueOrOutside_of_convert hk operand u hu
    refine ⟨hfull, ?_⟩
    rw [value]
    refine hoperand.bind (parts_subset_prefixed symbol operand) fun a ha => ?_
    exact .of_checked h symbol fun hnan => ⟨a, ha, hnan⟩
  | binary symbol left right, w, h => by
    obtain ⟨⟨u, hu⟩, v, hv⟩ := Calculus.hereditary_convert.binary ⟨w, h⟩
    obtain ⟨hfullLeft, hleft⟩ := valueOrOutside_of_convert hk left u hu
    obtain ⟨hfullRight, hright⟩ := valueOrOutside_of_convert hk right v hv
    refine ⟨by rw [callsFull, hfullLeft, hfullRight]; rfl, ?_⟩
    rw [value]
    -- If no operand has a part outside its domain, the operator itself may be outside of its own.
    refine hleft.bind (parts_subset_left symbol left right) fun a ha => ?_
    refine hright.bind (parts_subset_right symbol left right) fun b hb => ?_
    exact .of_checked h symbol fun hnan => ⟨a, b, ha, hb, hnan⟩
  | group inner, w, h => by
    rw [Calculus.convert] at h
    obtain ⟨hfull, hinner⟩ := valueOrOutside_of_convert hk inner w h
    refine ⟨hfull, ?_⟩
    rw [value]
    exact hinner.mono (List.subset_cons_self _ _)
  | call name args, w, h => by
    obtain ⟨hcall, ws, hws, -⟩ := Calculus.of_convert_call h
    obtain ⟨-, rule, hrule, hcount⟩ := rule_of_checkCall hcall
    obtain ⟨hfull, hargs⟩ := valuesOrOutside_of_convertAll hk args ws hws
    refine ⟨by simp [callsFull, hrule, hcount, hfull], ?_⟩
    rw [value]
    refine hargs.bind (parts_subset_call name args) fun xs hxs => ?_
    rw [hrule]
    exact .of_checked h name fun hnan => ⟨xs, rule, hxs, hrule, hnan⟩

/-- The same for several expressions, from left to right. -/
theorem valuesOrOutside_of_convertAll (hk : k.ReadsInputs) : (es : List Expr) → (ws : List α) →
    k.convertAll r scope es = .ok ws →
      allCallsFull r es = true ∧ ValueOrOutside k r scope (partsOfAll es) (values r scope es)
  | [], ws, h => ⟨rfl, .pure []⟩
  | e :: es, ws, h => by
    obtain ⟨u, us, hu, hus, -⟩ := Calculus.of_convertAll_cons h
    obtain ⟨hfull, he⟩ := valueOrOutside_of_convert hk e u hu
    obtain ⟨hfulls, hes⟩ := valuesOrOutside_of_convertAll hk es us hus
    refine ⟨by rw [allCallsFull, hfull, hfulls]; rfl, ?_⟩
    rw [values]
    refine he.bind (List.subset_append_left _ _) fun x _ => ?_
    exact hes.bind (List.subset_append_right _ _) fun xs _ => .pure (x :: xs)

end

end

end

end Expr

namespace Registry

/-! ### Evaluators in line -/

section

variable {α : Type} {k : Calculus α} {r : Registry} {text : String} {scope : Scope}

/-- The line without the evaluator of trees answers what the stack answers. -/
theorem evaluateInLine_stack :
    k.evaluateInLine r (Evaluator.line false) (.text text) scope =
      r.evaluate (r.tokens text) scope := by
  simp [Evaluator.line, Calculus.evaluateInLine, tokensOf]

/-- A text with a value in a calculus is a number on the stack too, or an error there; and it is an
error if and only if a part that has such a value is outside its domain on the stack. -/
theorem evaluate_of_convert (hr : r.FollowsGrammar) (hk : k.ReadsInputs) {e : Expr} {w : α}
    (hread : r.readTree text = .ok e) (hconvert : k.convert r scope e = .ok w) :
    ((∃ y, r.evaluate (r.tokens text) scope = .ok (.number y)) ∧
        ¬ ∃ part ∈ e.parts, part.OnlyConverted k r scope) ∨
      r.evaluate (r.tokens text) scope = .ok (.failed .error) ∧
        ∃ part ∈ e.parts, part.OnlyConverted k r scope := by
  obtain ⟨hfull, hvalue⟩ := Expr.valueOrOutside_of_convert hk e w hconvert
  have hstack := evaluateStrict_of_parse scope hr (readTree_ok_iff.1 hread).2.2 hfull
  rcases hvalue with ⟨y, hy⟩ | ⟨⟨symbol, hfault⟩, hpart⟩
  · refine .inl ⟨⟨y, by rw [evaluate, hstack, hy]⟩, ?_⟩
    rintro ⟨part, hmem, -, houtside⟩
    obtain ⟨z, hz⟩ := Expr.hereditary_value.of_mem_parts e ⟨y, hy⟩ hmem
    exact houtside.value_ne_ok z hz
  · exact .inr ⟨by rw [evaluate, hstack, hfault], hpart⟩

end

/-- Whether a calculus in front of the stack makes a number of what the stack has as an error. -/
def AnswersError {α : Type} (k : Calculus α) (r : Registry) (text : String) (scope : Scope) :
    Prop :=
  r.evaluate (r.tokens text) scope = .ok (.failed .error) ∧
    ∃ x, k.evaluateInLine r (Evaluator.line true) (.text text) scope = .ok (.number x)

/-- The evaluator of trees in front of the stack makes no error of what is none, and it makes a
number of an error of the stack if and only if some part of the text has a value in the calculus
though the stack has it outside its domain. -/
theorem answersError_iff {α : Type} (k : Calculus α) (hk : k.ReadsInputs) {r : Registry}
    (hr : r.FollowsGrammar) (text : String) (scope : Scope) :
    (k.evaluateInLine r (Evaluator.line true) (.text text) scope = .ok (.failed .error) →
        r.evaluate (r.tokens text) scope = .ok (.failed .error)) ∧
      (AnswersError k r text scope ↔
        ∃ e w x, r.readTree text = .ok e ∧ k.convert r scope e = .ok w ∧ k.result w = .ok x ∧
          ∃ part ∈ e.parts, part.OnlyConverted k r scope) := by
  unfold AnswersError
  -- Without a number of the calculus the stack decides, so there can be no difference.
  cases hexact : k.evaluateSourceExact r (.text text) scope with
  | error refusal =>
    have hline : k.evaluateInLine r (Evaluator.line true) (.text text) scope =
        r.evaluate (r.tokens text) scope :=
      (Calculus.evaluateInLine_of_error _ hexact).trans evaluateInLine_stack
    rw [hline]
    refine ⟨id, fun ⟨herror, x, hnumber⟩ => by simp [herror] at hnumber, ?_⟩
    rintro ⟨e, w, x, hread, hw, hx, -⟩
    rw [Calculus.evaluateSourceExact_ok_iff.2 ⟨e, w, hread, hw, hx⟩] at hexact
    cases hexact
  | ok x =>
    have hline : k.evaluateInLine r (Evaluator.line true) (.text text) scope =
        .ok (.number x) :=
      Calculus.evaluateInLine_of_ok _ hexact
    rw [hline]
    obtain ⟨e, w, hread, hw, hx⟩ := Calculus.evaluateSourceExact_ok_iff.1 hexact
    refine ⟨fun h => (by cases h), ?_⟩
    rcases evaluate_of_convert hr hk hread hw with
      ⟨⟨y, hy⟩, hnone⟩ | ⟨herror, hpart⟩
    · rw [hy]
      refine ⟨fun h => (by cases h.1), ?_⟩
      rintro ⟨e', w', x', hread', -, -, hpart⟩
      obtain rfl : e = e' := Except.ok.inj (hread.symm.trans hread')
      exact absurd hpart hnone
    · rw [herror]
      exact ⟨fun _ => ⟨e, w, x, hread, hw, hx, hpart⟩, fun _ => ⟨rfl, x, rfl⟩⟩

end Registry

end LiveSheet
