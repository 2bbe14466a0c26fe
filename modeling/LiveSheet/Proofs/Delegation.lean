import LiveSheet.Proofs.TreeValue
import LiveSheet.Wide.Calculus

/-!
# Any library in front of the stack

What the evaluator of trees takes is decided before anything is computed: by the characters of the
text, by the grammar, and by the calls in the tree. This is so for every calculus, of which nothing
is known but that each operation comes to something or fails. Wide numbers are one of them.

Of a text with a call that is not taken, no calculus makes a number (`checkCall_of_convert`): all
parts of a tree are converted, one after the other, so the conversion fails at that call if it has
not failed before. So on a text that is not taken the line of evaluators answers what the stack
answers, whatever the calculus is (`evaluate_of_undelegated`).
-/

namespace LiveSheet

namespace Expr

/-! ### Parts -/

mutual

/-- An expression and all expressions in it. -/
def parts : Expr → List Expr
  | number text => [number text]
  | reference name => [reference name]
  | constant name => [constant name]
  | prefixed symbol operand => prefixed symbol operand :: parts operand
  | binary symbol left right => binary symbol left right :: (parts left ++ parts right)
  | group inner => group inner :: parts inner
  | call name args => call name args :: partsOfAll args

/-- The same of several expressions. -/
def partsOfAll : List Expr → List Expr
  | [] => []
  | e :: es => parts e ++ partsOfAll es

end

/-- An expression is a part of itself. -/
theorem mem_parts (e : Expr) : e ∈ e.parts := by
  cases e <;> simp [parts]

/-- The parts of several expressions are the parts of each. -/
theorem mem_partsOfAll {es : List Expr} {p : Expr} :
    p ∈ partsOfAll es ↔ ∃ e ∈ es, p ∈ e.parts := by
  induction es with
  | nil => simp [partsOfAll]
  | cons e es ih => simp [partsOfAll, ih]

/-- Whether what holds of an expression holds of its operands and arguments. -/
structure Hereditary (P : Expr → Prop) : Prop where
  prefixed : ∀ {symbol operand}, P (prefixed symbol operand) → P operand
  binary : ∀ {symbol left right}, P (binary symbol left right) → P left ∧ P right
  group : ∀ {inner}, P (group inner) → P inner
  call : ∀ {name args}, P (call name args) → ∀ arg ∈ args, P arg

mutual

/-- What passes to operands and arguments passes to all parts. -/
theorem Hereditary.of_mem_parts {P : Expr → Prop} (hP : Hereditary P) {part : Expr} :
    (e : Expr) → P e → part ∈ e.parts → P part
  | .number text, h, hmem => List.mem_singleton.1 hmem ▸ h
  | .reference name, h, hmem => List.mem_singleton.1 hmem ▸ h
  | .constant name, h, hmem => List.mem_singleton.1 hmem ▸ h
  | .prefixed symbol operand, h, hmem => by
    rw [parts, List.mem_cons] at hmem
    rcases hmem with rfl | hmem
    · exact h
    · exact hP.of_mem_parts operand (hP.prefixed h) hmem
  | .binary symbol left right, h, hmem => by
    rw [parts, List.mem_cons, List.mem_append] at hmem
    rcases hmem with rfl | hmem | hmem
    · exact h
    · exact hP.of_mem_parts left (hP.binary h).1 hmem
    · exact hP.of_mem_parts right (hP.binary h).2 hmem
  | .group inner, h, hmem => by
    rw [parts, List.mem_cons] at hmem
    rcases hmem with rfl | hmem
    · exact h
    · exact hP.of_mem_parts inner (hP.group h) hmem
  | .call name args, h, hmem => by
    rw [parts, List.mem_cons] at hmem
    rcases hmem with rfl | hmem
    · exact h
    · exact hP.of_mem_partsOfAll args (hP.call h) hmem

/-- The same for the parts of several expressions. -/
theorem Hereditary.of_mem_partsOfAll {P : Expr → Prop} (hP : Hereditary P) {part : Expr} :
    (es : List Expr) → (∀ e ∈ es, P e) → part ∈ partsOfAll es → P part
  | [], _, hmem => by simp [partsOfAll] at hmem
  | e :: es, h, hmem => by
    rw [partsOfAll, List.mem_append] at hmem
    obtain ⟨hfirst, hmore⟩ := List.forall_mem_cons.1 h
    rcases hmem with hmem | hmem
    · exact hP.of_mem_parts e hfirst hmem
    · exact hP.of_mem_partsOfAll es hmore hmem

end

end Expr

namespace Registry

/-! ### What is read as a tree -/

section

variable {r : Registry} {text : String}

/-- Only expressions without a remainder operator are taken. -/
theorem refuseRemainder_iff {ts : List Token} :
    refuseRemainder ts = .ok () ↔ ⟨.operator, "%"⟩ ∉ ts := by
  have hany : ts.any (·.isOperatorAmong ["%"]) = true ↔ ⟨.operator, "%"⟩ ∈ ts := by
    rw [List.any_eq_true]
    constructor
    · rintro ⟨t, hmem, ht⟩
      obtain ⟨hkind, htext⟩ := Expr.isOperatorAmong_iff.1 ht
      obtain rfl : t = ⟨.operator, "%"⟩ := by
        obtain ⟨kind, text⟩ := t
        rw [Token.mk.injEq]
        exact ⟨hkind, by simpa using htext⟩
      exact hmem
    · intro hmem
      exact ⟨_, hmem, by decide⟩
  rw [← hany, refuseRemainder]
  split
  · next h => simp [h]
  · next h => simp [h]

/-- What is read as a tree is an expression from end to end, without remainders. -/
theorem readTree_ok_iff {e : Expr} : r.readTree text = .ok e ↔
    r.unreadChars text = [] ∧ ⟨.operator, "%"⟩ ∉ r.tokens text ∧
      Expr.parse .strict (r.tokens text) = .ok e := by
  unfold readTree
  dsimp only
  rw [← refuseRemainder_iff]
  cases r.unreadChars text with
  | cons c cs => simp
  | nil =>
    cases refuseRemainder (r.tokens text) with
    | error refusal => simp
    | ok _ =>
      cases Expr.parse .strict (r.tokens text) with
      | error err => simp
      | ok e' => simp

end

end Registry

namespace Calculus

variable {α : Type}

/-! ### What is not taken -/

section

variable {k : Calculus α} {r : Registry} {scope : Scope}

/-- Several expressions are converted one after the other. -/
theorem of_convertAll_cons {e : Expr} {es : List Expr} {xs : List α}
    (h : k.convertAll r scope (e :: es) = .ok xs) :
    ∃ y ys, k.convert r scope e = .ok y ∧ k.convertAll r scope es = .ok ys ∧ xs = y :: ys := by
  rw [convertAll] at h
  obtain ⟨y, hy, h⟩ := Expr.ok_of_bind h
  obtain ⟨ys, hys, h⟩ := Expr.ok_of_bind h
  exact ⟨y, ys, hy, hys, (Except.ok.inj h).symm⟩

/-- Arguments that are converted are so each by itself. -/
theorem convert_of_mem_args {args : List Expr} {xs : List α}
    (h : k.convertAll r scope args = .ok xs) :
    ∀ arg ∈ args, ∃ x, k.convert r scope arg = .ok x := by
  induction args generalizing xs with
  | nil => simp
  | cons e es ih =>
    obtain ⟨y, ys, hy, hys, -⟩ := of_convertAll_cons h
    exact List.forall_mem_cons.2 ⟨⟨y, hy⟩, ih hys⟩

/-- The sign is changed of what is converted. -/
theorem of_convert_prefixed {symbol : String} {operand : Expr} {x : α}
    (h : k.convert r scope (.prefixed symbol operand) = .ok x) :
    symbol = "-" ∧ ∃ y, k.convert r scope operand = .ok y ∧ k.negation y = .ok x := by
  rw [convert] at h
  split at h
  · next hsymbol =>
    obtain ⟨y, hy, h⟩ := Expr.ok_of_bind h
    exact ⟨eq_of_beq hsymbol, y, hy, h⟩
  · cases h

/-- An operator is computed if it has an exact counterpart, and both operands are converted. -/
theorem of_convert_binary {symbol : String} {left right : Expr} {x : α}
    (h : k.convert r scope (.binary symbol left right) = .ok x) :
    symbol ∈ ["+", "-", "*", "/", "^"] ∧ ∃ y z, k.convert r scope left = .ok y ∧
      k.convert r scope right = .ok z ∧ k.operator symbol y z = .ok x := by
  rw [convert] at h
  split at h
  · next hsymbol =>
    obtain ⟨y, hy, h⟩ := Expr.ok_of_bind h
    obtain ⟨z, hz, h⟩ := Expr.ok_of_bind h
    exact ⟨List.contains_iff_mem.1 hsymbol, y, z, hy, hz, h⟩
  · cases h

/-- A call is computed if it is taken, and all its arguments are converted. -/
theorem of_convert_call {name : String} {args : List Expr} {x : α}
    (h : k.convert r scope (.call name args) = .ok x) :
    r.checkCall name args.length = .ok () ∧
      ∃ xs, k.convertAll r scope args = .ok xs ∧ k.function name xs = .ok x := by
  rw [convert] at h
  obtain ⟨_, hcall, h⟩ := Expr.ok_of_bind h
  obtain ⟨xs, hxs, h⟩ := Expr.ok_of_bind h
  exact ⟨hcall, xs, hxs, h⟩

/-- The parts of what is converted are converted, whatever the operations do. -/
theorem hereditary_convert : Expr.Hereditary fun e => ∃ x, k.convert r scope e = .ok x where
  prefixed := by
    rintro symbol operand ⟨x, hx⟩
    obtain ⟨-, y, hy, -⟩ := of_convert_prefixed hx
    exact ⟨y, hy⟩
  binary := by
    rintro symbol left right ⟨x, hx⟩
    obtain ⟨-, y, z, hy, hz, -⟩ := of_convert_binary hx
    exact ⟨⟨y, hy⟩, z, hz⟩
  group := by
    rintro inner ⟨x, hx⟩
    exact ⟨x, by rwa [convert] at hx⟩
  call := by
    -- The call is checked first, but its arguments come before the function is called.
    rintro name args ⟨x, hx⟩
    obtain ⟨-, xs, hxs, -⟩ := of_convert_call hx
    exact convert_of_mem_args hxs

/-- A text comes to a number if it is read as a tree that does. -/
theorem evaluateSourceExact_ok_iff {text : String} {x : Float} :
    k.evaluateSourceExact r (.text text) scope = .ok x ↔
      ∃ e w, r.readTree text = .ok e ∧ k.convert r scope e = .ok w ∧ k.result w = .ok x := by
  constructor
  · intro h
    obtain ⟨e, hread, h⟩ := Expr.ok_of_bind h
    obtain ⟨w, hw, hresult⟩ := Expr.ok_of_bind h
    exact ⟨e, w, hread, hw, hresult⟩
  · rintro ⟨e, w, hread, hw, hresult⟩
    rw [evaluateSourceExact, hread]
    exact (congrArg (Except.bind · k.result) hw).trans hresult

/-- Such a number is the result wherever the evaluator of trees comes first. -/
theorem evaluateInLine_of_ok {text : String} {x : Float} (line : List Evaluator)
    (h : k.evaluateSourceExact r (.text text) scope = .ok x) :
    k.evaluateInLine r (.tree :: line) (.text text) scope = .ok (.number x) := by
  simp only [evaluateInLine, h]

/-- What the evaluator of trees refuses is left to the rest of the line. -/
theorem evaluateInLine_of_error {text : String} {refusal : Refusal} (line : List Evaluator)
    (h : k.evaluateSourceExact r (.text text) scope = .error refusal) :
    k.evaluateInLine r (.tree :: line) (.text text) scope =
      k.evaluateInLine r line (.text text) scope := by
  simp only [evaluateInLine, h]

/-- Every call in what is converted is taken. -/
theorem checkCall_of_convert {e : Expr} {x : α} (h : k.convert r scope e = .ok x) {name : String}
    {args : List Expr} (hmem : .call name args ∈ e.parts) :
    r.checkCall name args.length = .ok () := by
  obtain ⟨y, hy⟩ := hereditary_convert.of_mem_parts e ⟨x, h⟩ hmem
  exact (of_convert_call hy).1

end

end Calculus

namespace Registry

/-- A call that is not taken: its name is not registered or has no exact counterpart, or it has
another number of arguments than the function is computed from. -/
inductive UnmappedCall (r : Registry) (name : String) (found : Nat) : Prop
  | unregistered (h : r.function? name = none)
  | inexact (h : name ∉ exactFunctions)
  | count (rule : FunctionRule) (hrule : r.function? name = some rule)
      (h : (found : Int) ≠ rule.arity.least)

/-- A text that is not taken: it has characters that belong to no token, or a remainder operator, or
it is no expression without repairs, or there is a call somewhere in its tree that is not taken. -/
inductive Undelegated (r : Registry) (text : String) : Prop
  | unread (h : r.unreadChars text ≠ [])
  | remainder (h : ⟨.operator, "%"⟩ ∈ r.tokens text)
  | unparsable (error : ParseError) (h : Expr.parse .strict (r.tokens text) = .error error)
  | call (e : Expr) (name : String) (args : List Expr)
      (hparse : Expr.parse .strict (r.tokens text) = .ok e) (hmem : .call name args ∈ e.parts)
      (h : r.UnmappedCall name args.length)

variable {r : Registry} {text : String}

/-- An unmapped call is refused. -/
theorem UnmappedCall.checkCall_ne_ok {name : String} {found : Nat}
    (h : r.UnmappedCall name found) : r.checkCall name found ≠ .ok () := by
  unfold checkCall
  cases h with
  | unregistered h => simp [h]
  | inexact h => cases r.function? name <;> simp [h]
  | count rule hrule h =>
    rw [hrule]
    by_cases hexact : name ∈ exactFunctions <;> simp [hexact, h]

/-- No calculus makes a number of a text that is not taken. -/
theorem Undelegated.refused (h : r.Undelegated text) {α : Type} (k : Calculus α) (scope : Scope) :
    ∃ refusal, k.evaluateSourceExact r (.text text) scope = .error refusal := by
  cases heval : k.evaluateSourceExact r (.text text) scope with
  | error refusal => exact ⟨refusal, rfl⟩
  | ok y =>
    obtain ⟨e, x, hread, hx, -⟩ := Calculus.evaluateSourceExact_ok_iff.1 heval
    -- A number comes from a tree that has been read and converted, so there is no reason left.
    obtain ⟨hunread, hremainder, hparse⟩ := readTree_ok_iff.1 hread
    exfalso
    cases h with
    | unread h => exact h hunread
    | remainder h => exact hremainder h
    | unparsable error h =>
      rw [h] at hparse
      cases hparse
    | call e' name args hparse' hmem h =>
      obtain rfl : e' = e := Except.ok.inj (hparse'.symm.trans hparse)
      exact h.checkCall_ne_ok (Calculus.checkCall_of_convert hx hmem)

/-- On a text that is not taken, the line of evaluators answers exactly what the stack answers,
whatever numbers are in front of it: with any calculus, and so with wide numbers. -/
theorem evaluate_of_undelegated (r : Registry) (text : String) (scope : Scope)
    (h : r.Undelegated text) :
    (∀ (α : Type) (k : Calculus α),
      k.evaluateSource r (Evaluator.line true) (.text text) scope =
          r.evaluate (r.tokens text) scope ∧
        k.evaluateInLine r (Evaluator.line true) (.text text) scope =
          r.evaluate (r.tokens text) scope) ∧
      r.evaluateSource (Evaluator.line true) (.text text) scope =
          r.evaluate (r.tokens text) scope ∧
        r.evaluateInLine (Evaluator.line true) (.text text) scope =
          r.evaluate (r.tokens text) scope := by
  have hline (α : Type) (k : Calculus α) :
      k.evaluateInLine r (Evaluator.line true) (.text text) scope =
        r.evaluate (r.tokens text) scope := by
    obtain ⟨refusal, hrefusal⟩ := h.refused k scope
    simp only [Evaluator.line, if_true, Calculus.evaluateInLine, hrefusal, tokensOf]
  have hwide := hline Wide Wide.calculus
  exact ⟨fun α k => ⟨hline α k, hline α k⟩, hwide, hwide⟩

/-- The tree of `2 * (1 - sqrt(4, 9))`. -/
def surplusTree : Expr :=
  .binary "*" (.number "2")
    (.group (.binary "-" (.number "1") (.call "sqrt" [.number "4", .number "9"])))

/-- The call in it has an argument too many, which the stack leaves for the subtraction. So the
stack comes to a number, and no calculus to another one. -/
theorem evaluate_surplusTree :
    standard.Undelegated "2 * (1 - sqrt(4, 9))" ∧
      ∀ (α : Type) (k : Calculus α),
        k.evaluateSource standard (Evaluator.line true) (.text "2 * (1 - sqrt(4, 9))") .empty =
          .ok (.number 1) := by
  have htokens : standard.tokens "2 * (1 - sqrt(4, 9))" =
      [ ⟨.number, "2"⟩, ⟨.operator, "*"⟩, .openParen, ⟨.number, "1"⟩, ⟨.operator, "-"⟩,
        ⟨.function, "sqrt"⟩, .openParen, ⟨.number, "4"⟩, ⟨.comma, ","⟩, ⟨.number, "9"⟩,
        .closeParen, .closeParen ] := by
    decide +kernel
  have hparse : Expr.parse .strict (standard.tokens "2 * (1 - sqrt(4, 9))") = .ok surplusTree := by
    rw [htokens]
    cbv
  have hcall : standard.UnmappedCall "sqrt" 2 :=
    .count (unary squareRoot Latex.rootRule) (by rfl) (by decide)
  have hundelegated : standard.Undelegated "2 * (1 - sqrt(4, 9))" :=
    .call surplusTree "sqrt" [.number "4", .number "9"] hparse
      (by simp [surplusTree, Expr.parts, Expr.partsOfAll]) hcall
  have hstack :
      standard.evaluateStrict (standard.tokens "2 * (1 - sqrt(4, 9))") .empty = .ok 1 := by
    decide +kernel
  refine ⟨hundelegated, fun α k => ?_⟩
  rw [((evaluate_of_undelegated standard _ .empty hundelegated).1 α k).1, evaluate, hstack]

end Registry

end LiveSheet
