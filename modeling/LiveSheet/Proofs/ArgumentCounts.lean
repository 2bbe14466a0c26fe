import LiveSheet.Proofs.Height

/-!
# Calls with another number of arguments

The stack has no frames: a call takes as many values as its function is computed from, and nothing
tells whose they are. What follows from it is said here for both kinds of calls that do not have as
many arguments as that.

A call with too few takes values of the operators around it. The steps of an expression make the
stack higher by one and the arguments that are too many, all calls taken together
(`Expr.heightOf_postorder`); so where arguments are missing and none is too many, some later step
does not find its operands, and the result is `Error` (`evaluate_of_missing`).

A call with too many takes the last ones and leaves the others below its value. `Expr.leavings` is
what an expression leaves on the stack: an operator whose right operand leaves something over takes
that and not its left operand. Where nothing of this kind comes before something that is taken,
every call is computed from the last of its own arguments (`evaluateStrict_of_surplus`).
-/

namespace LiveSheet

/-! ### Calls with too few arguments -/

/-- Whether the arguments of a call are not more than its function is computed from; a name that is
no function takes any number. -/
def Registry.takesAtMost (r : Registry) (name : String) (count : Nat) : Bool :=
  (r.function? name).all fun rule => (count : Int) ≤ rule.arity.least

/-- Whether the arguments of a call are not fewer than its function is computed from. -/
def Registry.takesAtLeast (r : Registry) (name : String) (count : Nat) : Bool :=
  (r.function? name).all fun rule => rule.arity.least ≤ (count : Int)

namespace Postfix

variable {r : Registry} {scope : Scope}

/-- Steps that run to the end call functions only. -/
theorem exists_rule_of_run {steps : List Step} {stack stack' : List Float} {name : String}
    (h : run r scope stack steps = .ok stack') (hmem : .call name ∈ steps) :
    ∃ rule, r.function? name = some rule := by
  induction steps generalizing stack with
  | nil => cases hmem
  | cons step steps ih =>
    rw [run] at h
    split at h
    · next middle hmiddle =>
      rcases List.mem_cons.1 hmem with rfl | hmem
      · cases hrule : r.function? name with
        | some rule => exact ⟨rule, rfl⟩
        | none => simp [runStep, hrule] at hmiddle
      · exact ih h hmem
    · cases h

end Postfix

namespace Expr

open Postfix

variable {r : Registry} {scope : Scope}

mutual

/-- By how many arguments all calls of an expression together have more than their functions are
computed from. -/
def excess (r : Registry) : Expr → Int
  | number _ => 0
  | reference _ => 0
  | constant _ => 0
  | prefixed _ operand => excess r operand
  | binary _ left right => excess r left + excess r right
  | group inner => excess r inner
  | call name args =>
    args.length - (r.function? name).elim 0 (fun rule => (rule.arity.least.toNat : Int)) +
      excessOfAll r args

/-- The same for several expressions. -/
def excessOfAll (r : Registry) : List Expr → Int
  | [] => 0
  | e :: es => excess r e + excessOfAll r es

end

mutual

/-- The steps of an expression make the stack higher by one, and by the arguments that are too
many. -/
theorem heightOf_postorder : (e : Expr) → heightOf r e.postorder = 1 + e.excess r
  | number _ => rfl
  | reference _ => rfl
  | constant _ => rfl
  | prefixed symbol operand => by
    have heffect : (Step.prefixed symbol).effect r = 0 := rfl
    rw [postorder, excess, heightOf_append, heightOf_postorder operand, heightOf_cons,
      heightOf_nil, heffect]
    omega
  | binary symbol left right => by
    have heffect : (Step.operator symbol).effect r = -1 := rfl
    rw [postorder, excess, heightOf_append, heightOf_append, heightOf_postorder left,
      heightOf_postorder right, heightOf_cons, heightOf_nil, heffect]
    omega
  | group inner => by rw [postorder, excess, heightOf_postorder inner]
  | call name args => by
    rw [postorder, excess, heightOf_append, heightOf_postorderOfAll args, heightOf_cons,
      heightOf_nil, Step.effect]
    omega

/-- The steps of several expressions leave one value for each, and what is left besides. -/
theorem heightOf_postorderOfAll :
    (es : List Expr) → heightOf r (postorderOfAll es) = es.length + excessOfAll r es
  | [] => rfl
  | e :: es => by
    rw [postorderOfAll, excessOfAll, heightOf_append, heightOf_postorder e,
      heightOf_postorderOfAll es, List.length_cons]
    omega

end

/-- The steps of an expression end with one of its own. -/
theorem postorder_ne_nil : (e : Expr) → e.postorder ≠ []
  | number _ => List.cons_ne_nil _ _
  | reference _ => List.cons_ne_nil _ _
  | constant _ => List.cons_ne_nil _ _
  | prefixed _ _ => List.append_ne_nil_of_right_ne_nil _ (List.cons_ne_nil _ _)
  | binary _ _ _ => List.append_ne_nil_of_right_ne_nil _ (List.cons_ne_nil _ _)
  | group inner => postorder_ne_nil inner
  | call _ _ => List.append_ne_nil_of_right_ne_nil _ (List.cons_ne_nil _ _)

mutual

/-- Where all calls are of functions and none has too many arguments, none is left over, and if one
has too few, some are missing. -/
theorem excess_le : (e : Expr) →
    (∀ name, .call name ∈ e.postorder → ∃ rule, r.function? name = some rule) →
    e.everyCall r.takesAtMost = true →
    e.excess r ≤ 0 ∧ (e.everyCall r.takesAtLeast = false → e.excess r < 0)
  | number _, _, _ => ⟨Int.le_refl 0, fun h => by cases h⟩
  | reference _, _, _ => ⟨Int.le_refl 0, fun h => by cases h⟩
  | constant _, _, _ => ⟨Int.le_refl 0, fun h => by cases h⟩
  | prefixed _ operand, hrules, hmost =>
    excess_le operand (fun name h => hrules name (List.mem_append_left _ h)) hmost
  | binary _ left right, hrules, hmost => by
    obtain ⟨hmostLeft, hmostRight⟩ := Bool.and_eq_true_iff.1 hmost
    obtain ⟨hleft, hleftFew⟩ := excess_le left
      (fun name h => hrules name (List.mem_append_left _ (List.mem_append_left _ h))) hmostLeft
    obtain ⟨hright, hrightFew⟩ := excess_le right
      (fun name h => hrules name (List.mem_append_left _ (List.mem_append_right _ h))) hmostRight
    rw [excess]
    refine ⟨by omega, fun hfew => ?_⟩
    rcases Bool.and_eq_false_iff.1 hfew with hfew | hfew
    · have := hleftFew hfew
      omega
    · have := hrightFew hfew
      omega
  | group inner, hrules, hmost => excess_le inner hrules hmost
  | call name args, hrules, hmost => by
    obtain ⟨hmostHere, hmostArgs⟩ := Bool.and_eq_true_iff.1 hmost
    -- Too few arguments are missing here, or in an argument.
    obtain ⟨hargs, hargsFew⟩ := excessOfAll_le args
      (fun name h => hrules name (List.mem_append_left _ h)) hmostArgs
    obtain ⟨rule, hrule⟩ := hrules name (List.mem_append_right _ (List.mem_singleton_self _))
    have hle : (args.length : Int) ≤ rule.arity.least := by
      simpa [Registry.takesAtMost, hrule] using hmostHere
    rw [excess, hrule, Option.elim_some]
    refine ⟨by omega, fun hfew => ?_⟩
    rcases Bool.and_eq_false_iff.1 hfew with hfew | hfew
    · have : (args.length : Int) < rule.arity.least := by
        simpa [Registry.takesAtLeast, hrule] using hfew
      omega
    · have := hargsFew hfew
      omega

/-- Expressions with too few arguments in some call leave less than one value each. -/
theorem excessOfAll_le : (es : List Expr) →
    (∀ name, .call name ∈ postorderOfAll es → ∃ rule, r.function? name = some rule) →
    everyCallOfAll r.takesAtMost es = true →
    excessOfAll r es ≤ 0 ∧ (everyCallOfAll r.takesAtLeast es = false → excessOfAll r es < 0)
  | [], _, _ => ⟨Int.le_refl 0, fun h => by cases h⟩
  | e :: es, hrules, hmost => by
    obtain ⟨hmostFirst, hmostRest⟩ := Bool.and_eq_true_iff.1 hmost
    obtain ⟨hfirst, hfirstFew⟩ := excess_le e
      (fun name h => hrules name (List.mem_append_left _ h)) hmostFirst
    obtain ⟨hrest, hrestFew⟩ := excessOfAll_le es
      (fun name h => hrules name (List.mem_append_right _ h)) hmostRest
    rw [excessOfAll]
    refine ⟨by omega, fun hfew => ?_⟩
    rcases Bool.and_eq_false_iff.1 hfew with hfew | hfew
    · have := hfirstFew hfew
      omega
    · have := hrestFew hfew
      omega

end

/-- Where arguments are missing and none is too many, the steps do not run to the end. -/
theorem run_ne_ok_of_missing {e : Expr} (hmost : e.everyCall r.takesAtMost = true)
    (hfew : e.everyCall r.takesAtLeast = false) (stack : List Float) :
    run r scope [] e.postorder ≠ .ok stack := by
  intro hrun
  obtain ⟨-, hmissing⟩ := excess_le e (fun _ hmem => exists_rule_of_run hrun hmem) hmost
  have hexcess := hmissing hfew
  have hlength := length_of_run hrun
  rw [heightOf_postorder, List.length_nil] at hlength
  -- The stack would have no value on it, although the last step has put one there.
  have hempty : stack = [] := List.eq_nil_of_length_eq_zero (by omega)
  exact ne_nil_of_run (postorder_ne_nil e) hrun hempty

end Expr

namespace Registry

/-- A call with too few arguments is always an error, wherever it stands and whatever operands come
before it, if no other call has too many. -/
theorem evaluate_of_missing (text : String) (e : Expr) (scope : Scope)
    (hparse : Expr.parse .strict (standard.tokens text) = .ok e)
    (hmost : e.everyCall standard.takesAtMost = true)
    (hfew : e.everyCall standard.takesAtLeast = false) (hscope : scope.IsFinite) :
    standard.evaluate (standard.tokens text) scope = .ok (.failed .error) := by
  have hne : standard.tokens text ≠ [] := by
    intro hnil
    rw [hnil] at hparse
    obtain rfl : Expr.number "0" = e := by simpa [Expr.parse] using hparse
    cases hfew
  -- The steps do not run to the end, and nothing in the text is refused as a number.
  have heval := evaluateStrict_eq_run scope standard_followsGrammar hne hparse
  unfold evaluate
  cases hvalue : standard.evaluateStrict (standard.tokens text) scope with
  | ok x =>
    rw [hvalue] at heval
    cases hrun : Postfix.run standard scope [] e.postorder with
    | ok stack => exact absurd hrun (Expr.run_ne_ok_of_missing hmost hfew stack)
    | error err =>
      rw [hrun] at heval
      cases heval
  | error err =>
    cases err with
    | fault f => rfl
    | number err => exact absurd hvalue (evaluateStrict_ne_number standard text hscope.coerce err)

/-- The tree of `A * 5 - pow(2)`. -/
def shortCallTree : Expr :=
  .binary "-" (.binary "*" (.reference "A") (.number "5")) (.call "pow" [.number "2"])

/-- The call takes the product for its first argument, and then the difference lacks an operand. -/
theorem evaluate_shortCallTree :
    Expr.parse .strict (standard.tokens "A * 5 - pow(2)") = .ok shortCallTree ∧
      shortCallTree.everyCall standard.takesAtMost = true ∧
      shortCallTree.everyCall standard.takesAtLeast = false ∧ rootScope.IsFinite ∧
        standard.evaluate (standard.tokens "A * 5 - pow(2)") rootScope = .ok (.failed .error) := by
  have htokens : standard.tokens "A * 5 - pow(2)" =
      [ ⟨.reference, "A"⟩, ⟨.operator, "*"⟩, ⟨.number, "5"⟩, ⟨.operator, "-"⟩, ⟨.function, "pow"⟩,
        .openParen, ⟨.number, "2"⟩, .closeParen ] := by
    decide +kernel
  have hparse :
      Expr.parse .strict (standard.tokens "A * 5 - pow(2)") = .ok shortCallTree := by
    rw [htokens]
    cbv
  have hmost : shortCallTree.everyCall standard.takesAtMost = true := by decide
  have hfew : shortCallTree.everyCall standard.takesAtLeast = false := by decide
  have hscope : rootScope.IsFinite := Scope.isFinite_of_forall (by decide +kernel)
  exact ⟨hparse, hmost, hfew, hscope, evaluate_of_missing _ _ _ hparse hmost hfew hscope⟩

end Registry

/-! ### Calls with too many arguments -/

/-- Whether a function of the name is registered and computed from no more than so many
arguments. -/
def Registry.supplies (r : Registry) (name : String) (count : Nat) : Bool :=
  (r.function? name).any fun rule => rule.arity.least ≤ (count : Int)

/-- A call that is supplied has a rule, and at least as many arguments as it takes. -/
theorem Registry.exists_rule_of_supplies {r : Registry} {name : String} {count : Nat}
    (h : r.supplies name count = true) :
    ∃ rule, r.function? name = some rule ∧ rule.arity.least ≤ (count : Int) := by
  obtain ⟨rule, hrule, htest⟩ := (Option.any_eq_true _ _).1 h
  exact ⟨rule, hrule, of_decide_eq_true htest⟩

/-- The function that is computed from the arguments that `keep` picks, given how many it is
computed from. -/
def FunctionRule.keeping (keep : Nat → List Float → List Float) (rule : FunctionRule) :
    FunctionRule :=
  { rule with compute := fun xs => rule.compute (keep rule.arity.least.toNat xs) }

/-- The registry with all its functions computed from the arguments that `keep` picks. -/
def Registry.keeping (keep : Nat → List Float → List Float) (r : Registry) : Registry :=
  { r with functions := ⟨r.functions.entries.map fun (name, rule) => (name, rule.keeping keep)⟩ }

/-- The functions of the changed registry are the changed functions. -/
theorem Registry.function?_keeping (keep : Nat → List Float → List Float) (r : Registry)
    (name : String) :
    (r.keeping keep).function? name = (r.function? name).map (·.keeping keep) := by
  unfold function? Table.get? Registry.keeping
  dsimp only
  induction r.functions.entries with
  | nil => rfl
  | cons entry entries ih =>
    rw [List.map_cons, Table.lookup_cons_eq_ite, Table.lookup_cons_eq_ite, ih]
    split <;> rfl

/-- The last arguments. -/
def lastOf (count : Nat) (xs : List Float) : List Float :=
  xs.drop (xs.length - count)

/-- All items of a list are its last ones. -/
theorem lastOf_length (xs : List Float) : lastOf xs.length xs = xs := by
  rw [lastOf, Nat.sub_self, List.drop_zero]

/-- An item in front does not matter for the last ones. -/
theorem lastOf_cons {count : Nat} {xs : List Float} (h : count ≤ xs.length) (x : Float) :
    lastOf count (x :: xs) = lastOf count xs := by
  have hlength : (x :: xs).length - count = xs.length - count + 1 := by
    rw [List.length_cons]
    omega
  rw [lastOf, lastOf, hlength, List.drop_succ_cons]

namespace Expr

open Postfix

mutual

/-- The value of an expression, and what its calls leave over below it. An operator takes the two
values on top, so that what its right operand leaves over comes in place of its left operand. -/
def leavings (r : Registry) (scope : Scope) : Expr → Except EvaluationError (Float × List Float)
  | number text => do
    let x ← (number text).value r scope
    return (x, [])
  | reference name => do
    let x ← (reference name).value r scope
    return (x, [])
  | constant name => do
    let x ← (constant name).value r scope
    return (x, [])
  | prefixed symbol operand => do
    let (a, below) ← leavings r scope operand
    let x ← checked symbol ((r.prefix? symbol).elim Binary64.nan (·.compute a))
    return (x, below)
  | binary symbol left right => do
    let (a, below) ← leavings r scope left
    let (b, between) ← leavings r scope right
    match between with
    | [] =>
      let x ← checked symbol ((r.operator? symbol).elim Binary64.nan (·.compute a b))
      return (x, below)
    | surplus :: between =>
      let x ← checked symbol ((r.operator? symbol).elim Binary64.nan (·.compute surplus b))
      return (x, between ++ a :: below)
  | group inner => leavings r scope inner
  | call name args => do
    let left ← leavingsOfAll r scope args
    match r.function? name with
    | some rule =>
      let count := rule.arity.least.toNat
      let x ← checked name (rule.compute (left.take count).reverse)
      return (x, left.drop count)
    | none => .error (.fault (.unknownFunction name))

/-- What several expressions leave, the last one on top. -/
def leavingsOfAll (r : Registry) (scope : Scope) :
    List Expr → Except EvaluationError (List Float)
  | [] => .ok []
  | e :: es => do
    let (x, below) ← leavings r scope e
    let above ← leavingsOfAll r scope es
    return above ++ x :: below

end

mutual

/-- Whether whatever the calls of an expression leave over stays below all that is taken: right
operands leave nothing over, and of the arguments that a call takes, only the first does. -/
def surplusBelow (r : Registry) : Expr → Bool
  | number _ => true
  | reference _ => true
  | constant _ => true
  | prefixed _ operand => surplusBelow r operand
  | binary _ left right => surplusBelow r left && callsFull r right
  | group inner => surplusBelow r inner
  | call name args =>
    surplusBelowOfAll r args && (r.function? name).all fun rule =>
      allCallsFull r (args.drop (args.length - rule.arity.least.toNat + 1))

/-- The same for several expressions, each taken alone. -/
def surplusBelowOfAll (r : Registry) : List Expr → Bool
  | [] => true
  | e :: es => surplusBelow r e && surplusBelowOfAll r es

end

section

variable {r : Registry} {scope : Scope}

/-- Several expressions leave a value each at least. -/
theorem length_le_of_leavingsOfAll {es : List Expr} {left : List Float}
    (h : leavingsOfAll r scope es = .ok left) : es.length ≤ left.length := by
  induction es generalizing left with
  | nil => exact Nat.zero_le _
  | cons e es ih =>
    rw [leavingsOfAll] at h
    obtain ⟨⟨x, below⟩, -, h⟩ := ok_of_bind h
    obtain ⟨above, habove, h⟩ := ok_of_bind h
    obtain rfl : above ++ x :: below = left := Except.ok.inj h
    have := ih habove
    rw [List.length_append, List.length_cons, List.length_cons]
    omega

mutual

/-- The steps of a tree put what the tree leaves on the stack. -/
theorem run_leavings (stack : List Float) (steps : List Step) : (e : Expr) →
    e.everyCall r.supplies = true → run r scope stack (e.postorder ++ steps) =
      (e.leavings r scope).bind fun left => run r scope (left.1 :: (left.2 ++ stack)) steps
  | number text, _ => by
    rw [leavings]
    refine (run_cons (runStep_number text stack) steps).trans ?_
    cases (number text).value r scope <;> rfl
  | reference name, _ => by
    rw [leavings]
    refine (run_cons (runStep_reference name stack) steps).trans ?_
    cases (reference name).value r scope <;> rfl
  | constant name, _ => by
    rw [leavings]
    refine (run_cons (runStep_constant name stack) steps).trans ?_
    cases (constant name).value r scope <;> rfl
  | prefixed symbol operand, h => by
    rw [postorder, List.append_assoc, run_leavings _ _ operand h, leavings]
    cases operand.leavings r scope with
    | error err => rfl
    | ok left =>
      obtain ⟨a, below⟩ := left
      refine (run_cons (runStep_prefixed symbol a (below ++ stack)) steps).trans ?_
      dsimp only [bind, Except.bind]
      cases checked symbol ((r.prefix? symbol).elim Binary64.nan (·.compute a)) <;> rfl
  | binary symbol left right, h => by
    obtain ⟨hleft, hright⟩ := Bool.and_eq_true_iff.1 h
    rw [postorder, List.append_assoc, List.append_assoc, run_leavings _ _ left hleft, leavings]
    cases left.leavings r scope with
    | error err => rfl
    | ok first =>
      obtain ⟨a, below⟩ := first
      refine (run_leavings (a :: (below ++ stack)) _ right hright).trans ?_
      dsimp only [bind, Except.bind]
      cases right.leavings r scope with
      | error err => rfl
      | ok second =>
        -- The operator takes what lies next, which is the left operand if nothing is between.
        obtain ⟨b, between⟩ := second
        cases between with
        | nil =>
          refine (run_cons (runStep_operator symbol a b (below ++ stack)) steps).trans ?_
          dsimp only
          cases checked symbol ((r.operator? symbol).elim Binary64.nan (·.compute a b)) <;> rfl
        | cons surplus between =>
          refine (run_cons (runStep_operator symbol surplus b
            (between ++ a :: (below ++ stack))) steps).trans ?_
          dsimp only
          cases checked symbol ((r.operator? symbol).elim Binary64.nan (·.compute surplus b)) with
          | error err => rfl
          | ok x => simp [Except.bind, pure, Except.pure]
  | group inner, h => by
    rw [postorder, run_leavings _ _ inner h, leavings]
  | call name args, h => by
    obtain ⟨hsupplies, hargs⟩ := Bool.and_eq_true_iff.1 h
    obtain ⟨rule, hrule, hleast⟩ := Registry.exists_rule_of_supplies hsupplies
    rw [postorder, List.append_assoc, run_leavingsOfAll _ _ args hargs, leavings]
    cases hleft : leavingsOfAll r scope args with
    | error err => rfl
    | ok left =>
      have hlength := length_le_of_leavingsOfAll hleft
      have hcount : rule.arity.least.toNat ≤ left.length := by omega
      have hle : rule.arity.least ≤ ((left ++ stack).length : Int) := by
        rw [List.length_append]
        omega
      -- There are arguments enough, so that nothing below them is taken.
      have hstep : runStep r scope (left ++ stack) (.call name) =
          (checked name (rule.compute (left.take rule.arity.least.toNat).reverse)).map
            (· :: (left.drop rule.arity.least.toNat ++ stack)) := by
        rw [runStep_call_of_le hrule hle, List.take_append_of_le_length hcount,
          List.drop_append_of_le_length hcount]
      refine (run_cons hstep steps).trans ?_
      simp only [bind, Except.bind, hrule]
      cases checked name (rule.compute (left.take rule.arity.least.toNat).reverse) <;> rfl

/-- The steps of several expressions put what each of them leaves on the stack. -/
theorem run_leavingsOfAll (stack : List Float) (steps : List Step) : (es : List Expr) →
    everyCallOfAll r.supplies es = true → run r scope stack (postorderOfAll es ++ steps) =
      (leavingsOfAll r scope es).bind fun left => run r scope (left ++ stack) steps
  | [], _ => rfl
  | e :: es, h => by
    obtain ⟨hfirst, hrest⟩ := Bool.and_eq_true_iff.1 h
    rw [postorderOfAll, List.append_assoc, run_leavings _ _ e hfirst, leavingsOfAll]
    cases e.leavings r scope with
    | error err => rfl
    | ok first =>
      obtain ⟨x, below⟩ := first
      refine (run_leavingsOfAll (x :: (below ++ stack)) steps es hrest).trans ?_
      cases leavingsOfAll r scope es with
      | error err => rfl
      | ok above => simp [bind, Except.bind, pure, Except.pure]

end

/-- An expression with full calls leaves its value alone. -/
theorem leavings_of_callsFull {e : Expr} (hsupplies : e.everyCall r.supplies = true)
    (hfull : e.callsFull r = true) :
    e.leavings r scope = (e.value r scope).map fun x => (x, []) := by
  -- The same steps put the value on an empty stack, and what the expression leaves.
  have hleavings : run r scope [] (e.postorder ++ []) = _ := run_leavings [] [] e hsupplies
  rw [run_postorder [] [] e hfull] at hleavings
  revert hleavings
  cases e.value r scope with
  | error err =>
    cases e.leavings r scope with
    | error err' =>
      intro h
      simpa [Except.bind, Except.map, eq_comm] using h
    | ok left =>
      intro h
      cases h
  | ok x =>
    cases e.leavings r scope with
    | error err' =>
      intro h
      cases h
    | ok left =>
      intro h
      obtain ⟨y, below⟩ := left
      simpa [Except.bind, run, Except.map, eq_comm] using h

/-- The same for several expressions. -/
theorem leavingsOfAll_of_allCallsFull {es : List Expr}
    (hsupplies : everyCallOfAll r.supplies es = true) (hfull : allCallsFull r es = true) :
    leavingsOfAll r scope es = (values r scope es).map List.reverse := by
  induction es with
  | nil => rfl
  | cons e es ih =>
    obtain ⟨hsuppliesFirst, hsuppliesRest⟩ := Bool.and_eq_true_iff.1 hsupplies
    obtain ⟨hfullFirst, hfullRest⟩ := Bool.and_eq_true_iff.1 hfull
    rw [leavingsOfAll, values, leavings_of_callsFull hsuppliesFirst hfullFirst,
      ih hsuppliesRest hfullRest]
    cases e.value r scope with
    | error err => rfl
    | ok x =>
      cases values r scope es with
      | error err => rfl
      | ok xs => simp [bind, Except.bind, Except.map, pure, Except.pure]

mutual

/-- Where all calls are full, there is nothing to pick. -/
theorem value_keeping_of_callsFull {keep : Nat → List Float → List Float}
    (hkeep : ∀ xs, keep xs.length xs = xs) : (e : Expr) → e.callsFull r = true →
    e.value (r.keeping keep) scope = e.value r scope
  | number _, _ => rfl
  | reference _, _ => rfl
  | constant _, _ => rfl
  | prefixed symbol operand, h => by
    rw [value, value, value_keeping_of_callsFull hkeep operand h]
    rfl
  | binary symbol left right, h => by
    obtain ⟨hleft, hright⟩ := Bool.and_eq_true_iff.1 h
    rw [value, value, value_keeping_of_callsFull hkeep left hleft,
      value_keeping_of_callsFull hkeep right hright]
    rfl
  | group inner, h => value_keeping_of_callsFull hkeep inner h
  | call name args, h => by
    obtain ⟨hcount, hargs⟩ := Bool.and_eq_true_iff.1 h
    rw [value, value, values_keeping_of_allCallsFull hkeep args hargs, Registry.function?_keeping]
    cases hvalues : values r scope args with
    | error err => rfl
    | ok xs =>
      cases hrule : r.function? name with
      | none => rfl
      | some rule =>
        -- The call is full, so all of its values are kept.
        have hlength : rule.arity.least.toNat = xs.length := by
          have : (args.length : Int) = rule.arity.least := by simpa [hrule] using hcount
          rw [length_of_values hvalues]
          omega
        simp only [bind, Except.bind, Option.map_some, FunctionRule.keeping, hlength, hkeep]

/-- With as many arguments as are computed from, what is kept of them does not matter. -/
theorem values_keeping_of_allCallsFull {keep : Nat → List Float → List Float}
    (hkeep : ∀ xs, keep xs.length xs = xs) : (es : List Expr) → allCallsFull r es = true →
    values (r.keeping keep) scope es = values r scope es
  | [], _ => rfl
  | e :: es, h => by
    obtain ⟨hfirst, hrest⟩ := Bool.and_eq_true_iff.1 h
    rw [values, values, value_keeping_of_callsFull hkeep e hfirst,
      values_keeping_of_allCallsFull hkeep es hrest]

end

mutual

/-- Where what is left over stays below, the value on top is that of the tree whose calls are
computed from the last of their arguments. -/
theorem leavings_of_surplusBelow : (e : Expr) → e.everyCall r.supplies = true →
    e.surplusBelow r = true →
    (e.leavings r scope).map (·.1) = e.value (r.keeping lastOf) scope
  | number text, _, _ => by
    rw [leavings]
    change _ = (number text).value r scope
    cases (number text).value r scope <;> rfl
  | reference name, _, _ => by
    rw [leavings]
    change _ = (reference name).value r scope
    cases (reference name).value r scope <;> rfl
  | constant name, _, _ => by
    rw [leavings]
    change _ = (constant name).value r scope
    cases (constant name).value r scope <;> rfl
  | prefixed symbol operand, hsupplies, hbelow => by
    rw [leavings, value, ← leavings_of_surplusBelow operand hsupplies hbelow]
    cases operand.leavings r scope with
    | error err => rfl
    | ok left =>
      change _ = checked symbol ((r.prefix? symbol).elim Binary64.nan (·.compute left.1))
      dsimp only [bind, Except.bind]
      cases checked symbol ((r.prefix? symbol).elim Binary64.nan (·.compute left.1)) <;> rfl
  | binary symbol left right, hsupplies, hbelow => by
    obtain ⟨hsuppliesLeft, hsuppliesRight⟩ := Bool.and_eq_true_iff.1 hsupplies
    -- Only the left operand may leave something over, which lies below both.
    obtain ⟨hbelowLeft, hfullRight⟩ := Bool.and_eq_true_iff.1 hbelow
    rw [leavings, value, ← leavings_of_surplusBelow left hsuppliesLeft hbelowLeft,
      value_keeping_of_callsFull lastOf_length right hfullRight,
      leavings_of_callsFull hsuppliesRight hfullRight]
    cases left.leavings r scope with
    | error err => rfl
    | ok first =>
      cases right.value r scope with
      | error err => rfl
      | ok b =>
        change _ = checked symbol ((r.operator? symbol).elim Binary64.nan (·.compute first.1 b))
        dsimp only [bind, Except.bind, Except.map]
        cases checked symbol ((r.operator? symbol).elim Binary64.nan (·.compute first.1 b)) <;> rfl
  | group inner, hsupplies, hbelow => leavings_of_surplusBelow inner hsupplies hbelow
  | call name args, hsupplies, hbelow => by
    obtain ⟨hsuppliesHere, hsuppliesArgs⟩ := Bool.and_eq_true_iff.1 hsupplies
    obtain ⟨hbelowArgs, hfull⟩ := Bool.and_eq_true_iff.1 hbelow
    obtain ⟨rule, hrule, hleast⟩ := Registry.exists_rule_of_supplies hsuppliesHere
    rw [hrule, Option.all_some] at hfull
    have hcount : rule.arity.least.toNat ≤ args.length := by omega
    calc ((call name args).leavings r scope).map (·.1)
      _ = ((leavingsOfAll r scope args).map fun left =>
            (left.take rule.arity.least.toNat).reverse).bind
              fun xs => checked name (rule.compute xs) := by
        rw [leavings, hrule]
        cases leavingsOfAll r scope args with
        | error err => rfl
        | ok left =>
          dsimp only [bind, Except.bind, Except.map]
          cases checked name (rule.compute (left.take rule.arity.least.toNat).reverse) <;> rfl
      _ = ((values (r.keeping lastOf) scope args).map (lastOf rule.arity.least.toNat)).bind
            fun xs => checked name (rule.compute xs) := by
        rw [taken_leavingsOfAll args _ hcount hsuppliesArgs hbelowArgs hfull]
      _ = (call name args).value (r.keeping lastOf) scope := by
        rw [value, Registry.function?_keeping, hrule]
        cases values (r.keeping lastOf) scope args <;> rfl

/-- What a call takes of what its arguments leave are the values of the last ones. -/
theorem taken_leavingsOfAll : (es : List Expr) → (count : Nat) → count ≤ es.length →
    everyCallOfAll r.supplies es = true → surplusBelowOfAll r es = true →
    allCallsFull r (es.drop (es.length - count + 1)) = true →
    (leavingsOfAll r scope es).map (fun left => (left.take count).reverse) =
      (values (r.keeping lastOf) scope es).map (lastOf count)
  | [], 0, _, _, _, _ => rfl
  | e :: es, count, hcount, hsupplies, hbelow, hfull => by
    obtain ⟨hsuppliesFirst, hsuppliesRest⟩ := Bool.and_eq_true_iff.1 hsupplies
    obtain ⟨hbelowFirst, hbelowRest⟩ := Bool.and_eq_true_iff.1 hbelow
    have hfirst : (e.leavings r scope).map (·.1) = e.value (r.keeping lastOf) scope :=
      leavings_of_surplusBelow e hsuppliesFirst hbelowFirst
    rw [leavingsOfAll, values, ← hfirst]
    cases e.leavings r scope with
    | error err => rfl
    | ok first =>
      obtain ⟨x, below⟩ := first
      by_cases hle : count ≤ es.length
      · -- The first argument is itself too many: nothing of what it leaves is taken.
        have hdrop : (e :: es).length - count + 1 = es.length - count + 1 + 1 := by
          rw [List.length_cons]
          omega
        rw [hdrop, List.drop_succ_cons] at hfull
        have hrest := taken_leavingsOfAll es count hle hsuppliesRest hbelowRest hfull
        calc _
          _ = (leavingsOfAll r scope es).map fun left => (left.take count).reverse := by
            cases hleft : leavingsOfAll r scope es with
            | error err => rfl
            | ok above =>
              have hlength : count ≤ above.length := hle.trans (length_le_of_leavingsOfAll hleft)
              simp [bind, Except.bind, Except.map, pure, Except.pure,
                List.take_append_of_le_length hlength]
          _ = (values (r.keeping lastOf) scope es).map (lastOf count) := hrest
          _ = _ := by
            cases hvalues : values (r.keeping lastOf) scope es with
            | error err => rfl
            | ok xs =>
              have hlength : count ≤ xs.length := by rwa [length_of_values hvalues]
              simp [bind, Except.bind, Except.map, pure, Except.pure, lastOf_cons hlength]
      · -- The first argument is the first one that is taken: what it leaves over lies below.
        have hcount : count = es.length + 1 := by
          rw [List.length_cons] at hcount
          omega
        have hdrop : (e :: es).length - count + 1 = 0 + 1 := by
          rw [List.length_cons]
          omega
        rw [hdrop, List.drop_succ_cons, List.drop_zero] at hfull
        rw [leavingsOfAll_of_allCallsFull hsuppliesRest hfull,
          values_keeping_of_allCallsFull lastOf_length es hfull]
        cases hvalues : values r scope es with
        | error err => rfl
        | ok xs =>
          have hlength : xs.length + 1 = count := by
            rw [length_of_values hvalues, hcount]
          have htake : (xs.reverse ++ x :: below).take count = xs.reverse ++ [x] := by
            have happend : xs.reverse ++ x :: below = xs.reverse ++ [x] ++ below := by simp
            rw [happend]
            exact List.take_left' (by simp [hlength])
          have hlast : lastOf count (x :: xs) = x :: xs := hlength ▸ lastOf_length (x :: xs)
          simp [bind, Except.bind, Except.map, pure, Except.pure, htake, hlast]

end

end

end Expr

namespace Registry

/-- The stack leaves of a text what its tree leaves, if its calls have no fewer arguments than their
functions are computed from; and where what is left over stays below all that is taken, that is the
value of the tree whose calls are computed from the last of their own arguments. -/
theorem evaluateStrict_of_surplus (text : String) (e : Expr) (scope : Scope)
    (hparse : Expr.parse .strict (standard.tokens text) = .ok e)
    (hcalls : e.everyCall standard.supplies = true) :
    standard.evaluateStrict (standard.tokens text) scope =
        (e.leavings standard scope).map (·.1) ∧
      (e.surplusBelow standard = true →
        standard.evaluateStrict (standard.tokens text) scope =
          e.value (standard.keeping lastOf) scope) := by
  have hleavings : standard.evaluateStrict (standard.tokens text) scope =
      (e.leavings standard scope).map (·.1) := by
    by_cases hne : standard.tokens text = []
    · rw [hne] at hparse ⊢
      obtain rfl : Expr.number "0" = e := by simpa [Expr.parse] using hparse
      have hzero := value_of_parse_nil (r := standard) scope hparse
      rw [Expr.leavings, hzero]
      rfl
    · have hrun : Postfix.run standard scope [] (e.postorder ++ []) = _ :=
        Expr.run_leavings [] [] e hcalls
      rw [List.append_nil] at hrun
      rw [evaluateStrict_eq_run scope standard_followsGrammar hne hparse, hrun]
      cases e.leavings standard scope <;> rfl
  exact ⟨hleavings, fun hbelow =>
    hleavings.trans (Expr.leavings_of_surplusBelow e hcalls hbelow)⟩

/-- The tree of `sqrt(1, sqrt(A, 16), 81) * 2`. -/
def surplusProductTree : Expr :=
  .binary "*"
    (.call "sqrt" [.number "1", .call "sqrt" [.reference "A", .number "16"], .number "81"])
    (.number "2")

/-- Both roots are those of their last arguments. -/
theorem evaluateStrict_surplusProductTree :
    Expr.parse .strict (standard.tokens "sqrt(1, sqrt(A, 16), 81) * 2") = .ok surplusProductTree ∧
      surplusProductTree.everyCall standard.supplies = true ∧
      surplusProductTree.surplusBelow standard = true ∧
        standard.evaluateStrict (standard.tokens "sqrt(1, sqrt(A, 16), 81) * 2") rootScope =
          .ok 18 := by
  have htokens : standard.tokens "sqrt(1, sqrt(A, 16), 81) * 2" =
      [ ⟨.function, "sqrt"⟩, .openParen, ⟨.number, "1"⟩, ⟨.comma, ","⟩, ⟨.function, "sqrt"⟩,
        .openParen, ⟨.reference, "A"⟩, ⟨.comma, ","⟩, ⟨.number, "16"⟩, .closeParen, ⟨.comma, ","⟩,
        ⟨.number, "81"⟩, .closeParen, ⟨.operator, "*"⟩, ⟨.number, "2"⟩ ] := by
    decide +kernel
  have hparse : Expr.parse .strict (standard.tokens "sqrt(1, sqrt(A, 16), 81) * 2") =
      .ok surplusProductTree := by
    rw [htokens]
    cbv
  have hcalls : surplusProductTree.everyCall standard.supplies = true := by decide
  have hbelow : surplusProductTree.surplusBelow standard = true := by decide
  have hvalue : surplusProductTree.value (standard.keeping lastOf) rootScope = .ok 18 := by
    decide +kernel
  exact ⟨hparse, hcalls, hbelow,
    ((evaluateStrict_of_surplus _ _ _ hparse hcalls).2 hbelow).trans hvalue⟩

/-- The tree of `1 + sqrt(4, 4)`. -/
def surplusSumTree : Expr :=
  .binary "+" (.number "1") (.call "sqrt" [.number "4", .number "4"])

/-- The sum takes the argument that the root leaves over, and comes to 6, although it is 3 from
whichever of its own arguments the root is computed. -/
theorem evaluateStrict_surplusSumTree :
    Expr.parse .strict (standard.tokens "1 + sqrt(4, 4)") = .ok surplusSumTree ∧
      surplusSumTree.everyCall standard.supplies = true ∧ Scope.IsFinite .empty ∧
      Expr.values standard .empty [.number "4", .number "4"] = .ok [4, 4] ∧
      standard.evaluateStrict (standard.tokens "1 + sqrt(4, 4)") .empty = .ok 6 ∧
        ∀ keep : Nat → List Float → List Float,
          (∀ count xs, count ≤ xs.length → keep count xs ⊆ xs ∧ (keep count xs).length = count) →
          surplusSumTree.value (standard.keeping keep) .empty = .ok 3 := by
  have htokens : standard.tokens "1 + sqrt(4, 4)" =
      [ ⟨.number, "1"⟩, ⟨.operator, "+"⟩, ⟨.function, "sqrt"⟩, .openParen, ⟨.number, "4"⟩,
        ⟨.comma, ","⟩, ⟨.number, "4"⟩, .closeParen ] := by
    decide +kernel
  have hparse : Expr.parse .strict (standard.tokens "1 + sqrt(4, 4)") = .ok surplusSumTree := by
    rw [htokens]
    cbv
  have hvalues : Expr.values standard .empty [.number "4", .number "4"] = .ok [4, 4] := by
    decide +kernel
  have hfinite : Scope.IsFinite .empty := Scope.isFinite_of_forall fun _ h => by cases h
  refine ⟨hparse, by decide, hfinite, hvalues, ?_, ?_⟩
  · rw [htokens]
    decide +kernel
  · intro keep hkeep
    -- Whichever argument is kept, it is 4.
    obtain ⟨hsubset, hlength⟩ := hkeep 1 [4, 4] (by decide)
    obtain ⟨x, hpicked⟩ := List.length_eq_one_iff.1 hlength
    obtain rfl : x = 4 := by simpa [hpicked] using hsubset
    have hargs : Expr.values (standard.keeping keep) .empty [.number "4", .number "4"] =
        .ok [4, 4] := hvalues
    have hone : (Expr.number "1").value (standard.keeping keep) .empty = .ok 1 := by
      rw [Expr.value, show Decimal.readNumeral? "1" = some 1 by decide +kernel]
    have hrule : (standard.keeping keep).function? "sqrt" =
        some ((unary squareRoot Latex.rootRule).keeping keep) := by
      rw [function?_keeping]
      rfl
    have hroot : Expr.checked "sqrt" (((unary squareRoot Latex.rootRule).keeping keep).compute
        [4, 4]) = .ok 2 := by
      change Expr.checked "sqrt" ((unary squareRoot Latex.rootRule).compute (keep 1 [4, 4])) = _
      rw [hpicked]
      decide +kernel
    rw [surplusSumTree, Expr.value, hone, Expr.value, hargs, hrule]
    simp only [bind, Except.bind, hroot]
    change Expr.checked "+" ((standard.operator? "+").elim Binary64.nan (·.compute 1 2)) = .ok 3
    decide +kernel

end Registry

end LiveSheet
