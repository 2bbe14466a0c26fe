import LiveSheet.Proofs.Advance
import LiveSheet.Proofs.TreeValue

/-!
# The height of the stack

Every step of an expression in postfix order takes some values off the stack and puts one there, so
by how much it makes the stack higher is known before it runs (`Step.effect`), and with it the
height that all steps leave. Postfix order only moves steps (`perm_of_orderFrom`), so the height can
be counted on the tokens, where an operator counts by whether an operand stands before it. Strict
reading settles that count: what it takes for an operand makes the stack higher by one at most, and
every reference in it stands where an operand can begin (`Expr.Parses.raises`). So an expression
that has a value leaves that value alone on the stack (`Expr.run_eq_singleton`).

Nothing here asks that a function token be a call. Strict reading takes one without a parenthesis
for a reference of that name, while the stack calls the function; such a call only makes the stack
lower than its expression says.
-/

namespace LiveSheet

namespace Postfix

variable {r : Registry} {scope : Scope}

/-! ### Steps on a stack -/

/-- By how much a step makes the stack higher. -/
def Step.effect (r : Registry) : Step → Int
  | .number _ => 1
  | .reference _ => 1
  | .constant _ => 1
  | .prefixed _ => 0
  | .operator _ => -1
  | .call name => 1 - (r.function? name).elim 0 fun rule => (rule.arity.least.toNat : Int)

/-- A call makes the stack higher by one at most. -/
theorem Step.effect_call_le (name : String) : (Step.call name).effect r ≤ 1 := by
  rw [Step.effect]
  cases r.function? name with
  | none => exact Int.le_refl 1
  | some rule =>
    rw [Option.elim_some]
    omega

/-- By how much several steps make the stack higher. -/
def heightOf (r : Registry) (steps : List Step) : Int :=
  (steps.map (Step.effect r)).sum

/-- No steps leave the height as it is. -/
@[simp] theorem heightOf_nil : heightOf r [] = 0 :=
  rfl

/-- A step changes the height before the others do. -/
@[simp] theorem heightOf_cons (step : Step) (steps : List Step) :
    heightOf r (step :: steps) = step.effect r + heightOf r steps := by
  simp [heightOf]

/-- The changes of height in two lists of steps add up. -/
@[simp] theorem heightOf_append (front back : List Step) :
    heightOf r (front ++ back) = heightOf r front + heightOf r back := by
  simp [heightOf]

/-- What is put on a stack is put there whatever is below. -/
theorem eq_of_push {symbol : String} {x : Float} {stack stack' : List Float}
    (h : push symbol x stack = .ok stack') : stack' = x :: stack ∧
      ∀ other, push symbol x other = .ok (x :: other) := by
  unfold push at h ⊢
  split at h
  · cases h
  · next hnan =>
    refine ⟨(Except.ok.inj h).symm, fun other => ?_⟩
    rw [if_neg hnan]

/-- A step that pushes a value in place of some others does so whatever is below them. -/
theorem exists_taken_of_push {step : Step} (taken : List Float) {below stack' : List Float}
    (heffect : (taken.length : Int) + step.effect r = 1)
    (hpush : ∃ symbol x, ∀ other, runStep r scope (taken ++ other) step = push symbol x other)
    (h : runStep r scope (taken ++ below) step = .ok stack') :
    ∃ taken' below' x, taken ++ below = taken' ++ below' ∧ stack' = x :: below' ∧
      (taken'.length : Int) + step.effect r = 1 ∧
      ∀ other, runStep r scope (taken' ++ other) step = .ok (x :: other) := by
  obtain ⟨symbol, x, hx⟩ := hpush
  rw [hx below] at h
  obtain ⟨hstack, hother⟩ := eq_of_push h
  exact ⟨taken, below, x, rfl, hstack, heffect, fun other => (hx other).trans (hother other)⟩

/-- A step takes values off the stack and puts one there, whatever is below them. -/
theorem exists_taken_of_runStep {step : Step} {stack stack' : List Float}
    (h : runStep r scope stack step = .ok stack') :
    ∃ taken below x, stack = taken ++ below ∧ stack' = x :: below ∧
      (taken.length : Int) + step.effect r = 1 ∧
      ∀ other, runStep r scope (taken ++ other) step = .ok (x :: other) := by
  cases step with
  | number text | reference text =>
    rw [runStep] at h
    split at h
    · next x hx =>
      refine ⟨[], stack, x, rfl, (Except.ok.inj h).symm, rfl, fun other => ?_⟩
      rw [runStep, hx]
      rfl
    · cases h
  | constant name => exact exists_taken_of_push [] rfl ⟨name, _, fun _ => rfl⟩ h
  | prefixed symbol =>
    cases stack with
    | nil => cases h
    | cons a below =>
      have hpush : ∃ x, ∀ other, runStep r scope ([a] ++ other) (.prefixed symbol) =
          push symbol x other := by
        cases hrule : r.prefix? symbol <;>
          exact ⟨_, fun other => by simp only [List.singleton_append, runStep, hrule]; rfl⟩
      exact exists_taken_of_push [a] rfl ⟨symbol, hpush⟩ h
  | operator symbol =>
    cases stack with
    | nil => cases h
    | cons b rest =>
      cases rest with
      | nil => cases h
      | cons a below =>
        have hpush : ∃ x, ∀ other, runStep r scope ([b, a] ++ other) (.operator symbol) =
            push symbol x other := by
          cases hrule : r.operator? symbol <;>
            exact ⟨_, fun other => by simp only [List.cons_append, runStep, hrule]; rfl⟩
        exact exists_taken_of_push [b, a] rfl ⟨symbol, hpush⟩ h
  -- A function takes as many values as its rule asks for, if there are so many.
  | call name =>
    cases hrule : r.function? name with
    | none => simp [runStep, hrule] at h
    | some rule =>
      have henough : ¬ (stack.length : Int) < rule.arity.least := by
        intro hfew
        simp [runStep, hrule, hfew] at h
      have hlength : (stack.take rule.arity.least.toNat).length = rule.arity.least.toNat := by
        rw [List.length_take]
        omega
      rw [← List.take_append_drop rule.arity.least.toNat stack] at h ⊢
      refine exists_taken_of_push _ ?_
        ⟨name, rule.compute (stack.take rule.arity.least.toNat).reverse, fun other => ?_⟩ h
      · rw [hlength, Step.effect, hrule, Option.elim_some]
        omega
      · -- The arguments are still on top, so there are enough of them and they are the same.
        have henough' : ¬ ((stack.take rule.arity.least.toNat ++ other).length : Int) <
            rule.arity.least := by
          rw [List.length_append, hlength]
          omega
        rw [runStep, hrule]
        simp only
        rw [if_neg henough', List.take_left' hlength, List.drop_left' hlength]

/-- A step leaves a stack higher by its effect. -/
theorem length_of_runStep {step : Step} {stack stack' : List Float}
    (h : runStep r scope stack step = .ok stack') :
    (stack'.length : Int) = stack.length + step.effect r := by
  obtain ⟨taken, below, x, rfl, rfl, heffect, -⟩ := exists_taken_of_runStep h
  rw [List.length_cons, List.length_append]
  omega

/-- What is below the stack of a step stays there. -/
theorem runStep_append {step : Step} {stack stack' : List Float}
    (h : runStep r scope stack step = .ok stack') (low : List Float) :
    runStep r scope (stack ++ low) step = .ok (stack' ++ low) := by
  obtain ⟨taken, below, x, rfl, rfl, -, hother⟩ := exists_taken_of_runStep h
  rw [List.append_assoc]
  exact hother (below ++ low)

/-- Steps leave a stack higher by their effects. -/
theorem length_of_run {steps : List Step} {stack stack' : List Float}
    (h : run r scope stack steps = .ok stack') :
    (stack'.length : Int) = stack.length + heightOf r steps := by
  induction steps generalizing stack with
  | nil =>
    obtain rfl : stack = stack' := Except.ok.inj h
    simp
  | cons step steps ih =>
    rw [run] at h
    split at h
    · next middle hmiddle =>
      rw [ih h, length_of_runStep hmiddle, heightOf_cons]
      omega
    · cases h

/-- What is below the stack of some steps stays there. -/
theorem run_append_stack {steps : List Step} {stack stack' : List Float}
    (h : run r scope stack steps = .ok stack') (low : List Float) :
    run r scope (stack ++ low) steps = .ok (stack' ++ low) := by
  induction steps generalizing stack with
  | nil =>
    obtain rfl : stack = stack' := Except.ok.inj h
    rfl
  | cons step steps ih =>
    rw [run] at h ⊢
    split at h
    · next middle hmiddle =>
      rw [runStep_append hmiddle low]
      exact ih h
    · cases h

/-- Steps on some stack leave a value. -/
theorem ne_nil_of_run {steps : List Step} {stack stack' : List Float} (hne : steps ≠ [])
    (h : run r scope stack steps = .ok stack') : stack' ≠ [] := by
  induction steps generalizing stack with
  | nil => exact absurd rfl hne
  | cons step steps ih =>
    rw [run] at h
    split at h
    · next middle hmiddle =>
      obtain ⟨taken, below, x, -, rfl, -, -⟩ := exists_taken_of_runStep hmiddle
      cases steps with
      | nil =>
        obtain rfl : x :: below = stack' := Except.ok.inj h
        exact List.cons_ne_nil _ _
      | cons next steps => exact ih (List.cons_ne_nil _ _) h
    · cases h

/-! ### Tokens in postfix order -/

/-- By how much the step of a token makes the stack higher. -/
def effectOf (r : Registry) (free : Bool) (t : Token) : Int :=
  heightOf r (stepOf? r free t).toList

/-- By how much the steps of tokens make the stack higher. -/
def heightFrom (r : Registry) (free : Bool) (ts : List Token) : Int :=
  heightOf r (stepsFrom r free ts)

/-- A token changes the height before the others do. -/
theorem heightFrom_cons (free : Bool) (t : Token) (ts : List Token) :
    heightFrom r free (t :: ts) =
      effectOf r free t + heightFrom r (Token.isPrefixPosition (some t)) ts :=
  heightOf_append _ _

/-- The postfix order of tokens makes the stack higher by as much as the tokens. -/
theorem heightOf_order {ts : List Token} {steps : List Step} (h : order r ts = .ok steps) :
    heightOf r steps = heightFrom r true ts :=
  ((perm_of_orderFrom h).map _).sum_eq

/-! ### Tokens of an operand -/

/-- Whether every reference stands where an operand can begin. -/
def ReferencesPlaced : (free : Bool) → List Token → Prop
  | _, [] => True
  | free, t :: ts => (t.kind = .reference → free = true) ∧
    ReferencesPlaced (Token.isPrefixPosition (some t)) ts

/-- What strict reading makes sure of when it has read `count` operands between `ts` and `rest`, in
which `full` says whether all calls are full: behind the last of them no operand can begin, so if
references are placed in the rest they are placed in all of `ts`, and the stack is higher by the
number of operands at most. -/
structure Spans (r : Registry) (free : Bool) (ts : List Token) (count : Int) (full : Bool)
    (rest : List Token) : Prop where
  placed : ReferencesPlaced false rest → ReferencesPlaced free ts
  height : full = true → heightFrom r free ts ≤ count + heightFrom r false rest

section Spans

variable {free full full' all : Bool} {count count' : Int} {t : Token} {ts us mid rest : List Token}

/-- Nothing is read. -/
theorem Spans.stop (ts : List Token) (full : Bool) : Spans r false ts 0 full ts where
  placed := id
  height _ := by omega

/-- What is read in two parts, the second of which begins behind an operand. -/
theorem Spans.trans (h : Spans r free ts count full mid) (h' : Spans r false mid count' full' rest)
    (hall : all = true → full = true ∧ full' = true) :
    Spans r free ts (count + count') all rest where
  placed hrest := h.placed (h'.placed hrest)
  height hfull := by
    have hfirst := h.height (hall hfull).1
    have hsecond := h'.height (hall hfull).2
    omega

/-- One operand more. -/
theorem Spans.succ {n : Nat} (h : Spans r free ts 1 full mid) (h' : Spans r false mid n full' rest)
    (hall : all = true → full = true ∧ full' = true) : Spans r free ts (n + 1 : Nat) all rest := by
  have hspans := h.trans h' hall
  rwa [show (1 : Int) + n = (n + 1 : Nat) by omega] at hspans

/-- A token before what is read. -/
theorem Spans.cons (h : Spans r (Token.isPrefixPosition (some t)) us count full rest)
    (hplaced : t.kind = .reference → free = true)
    (heffect : all = true → full = true ∧ effectOf r free t + count ≤ count') :
    Spans r free (t :: us) count' all rest where
  placed hrest := ⟨hplaced, h.placed hrest⟩
  height hfull := by
    have hrest := h.height (heffect hfull).1
    have hsum := (heffect hfull).2
    rw [heightFrom_cons]
    omega

/-- A token that is an operand of its own. -/
theorem Spans.atom (hbehind : Token.isPrefixPosition (some t) = false)
    (heffect : effectOf r true t ≤ 1) (us : List Token) : Spans r true (t :: us) 1 full us := by
  have hrest : Spans r (Token.isPrefixPosition (some t)) us 0 full us := by
    rw [hbehind]
    exact .stop us full
  exact hrest.cons (fun _ => rfl) fun hfull => ⟨hfull, by omega⟩

/-- Numbers, references and constants are operands. -/
theorem Spans.value (hkind : t.kind ∈ [.number, .reference, .constant]) (us : List Token) :
    Spans r true (t :: us) 1 full us := by
  simp only [List.mem_cons, List.not_mem_nil, or_false] at hkind
  rcases hkind with hkind | hkind | hkind <;>
    exact .atom (by simp [Expr.isPrefixPosition_some, hkind])
      (by simp [effectOf, stepOf?, hkind, Step.effect]) us

/-- A closing parenthesis behind what is read. -/
theorem Spans.close (h : Spans r free ts count full (.closeParen :: rest)) :
    Spans r free ts count full rest where
  placed hrest := h.placed ⟨fun hkind => absurd hkind (by decide), hrest⟩
  height hfull := by
    have hclose := h.height hfull
    have heffect : effectOf r false .closeParen = 0 := rfl
    have hbehind : Token.isPrefixPosition (some .closeParen) = false := by decide
    rw [heightFrom_cons, heffect, hbehind] at hclose
    omega

/-- An operator and the operand behind it. -/
theorem Spans.operator (h : Spans r true us 1 full rest) (hkind : t.kind = .operator)
    (hall : all = true → full = true) : Spans r false (t :: us) 0 all rest := by
  have hfree : Token.isPrefixPosition (some t) = true := by simp [Token.isPrefixPosition, hkind]
  have heffect : effectOf r false t = -1 := by
    simp [effectOf, stepOf?, hkind, Step.effect]
  rw [← hfree] at h
  exact h.cons (by simp [hkind]) fun hfull => ⟨hall hfull, by omega⟩

/-- A prefix operator makes the stack no higher, whether it is registered or not. -/
theorem Spans.prefixed (h : Spans r true us 1 full rest) (hkind : t.kind = .operator) :
    Spans r true (t :: us) 1 full rest := by
  have hfree : Token.isPrefixPosition (some t) = true := by simp [Token.isPrefixPosition, hkind]
  have heffect : effectOf r true t ≤ 0 := by
    simp only [effectOf, stepOf?, hkind]
    split <;> simp [Step.effect]
  rw [← hfree] at h
  exact h.cons (by simp [hkind]) fun hfull => ⟨hfull, by omega⟩

/-- Behind a comma an operand can begin. -/
theorem Spans.comma (h : Spans r true us count full rest) (hkind : t.kind = .comma) :
    Spans r false (t :: us) count full rest := by
  have hfree : Token.isPrefixPosition (some t) = true := by simp [Token.isPrefixPosition, hkind]
  have heffect : effectOf r false t = 0 := by simp [effectOf, stepOf?, hkind]
  rw [← hfree] at h
  exact h.cons (by simp [hkind]) fun hfull => ⟨hfull, by omega⟩

/-- Behind an opening parenthesis an operand can begin. -/
theorem Spans.open (h : Spans r true us count full rest) (free : Bool) :
    Spans r free (.openParen :: us) count full rest := by
  have hfree : Token.isPrefixPosition (some .openParen) = true := by decide
  have heffect : effectOf r free .openParen = 0 := rfl
  rw [← hfree] at h
  exact h.cons (fun hkind => absurd hkind (by decide)) fun hfull => ⟨hfull, by omega⟩

/-- A call may have no arguments. -/
theorem Spans.noArguments (h : ∀ t ∈ ts.head?, t = .closeParen) (full : Bool) :
    Spans r true ts 0 full ts := by
  cases ts with
  | nil => exact ⟨id, fun _ => by simp [heightFrom, stepsFrom]⟩
  | cons t us =>
    obtain rfl : t = .closeParen := by simpa using h
    exact ⟨fun hplaced => ⟨fun _ => rfl, hplaced.2⟩, fun _ => by
      have heffect : effectOf r true .closeParen = effectOf r false .closeParen := rfl
      rw [heightFrom_cons, heightFrom_cons, heffect]
      omega⟩

/-- A call takes its arguments and leaves one value. -/
theorem Spans.call (h : Spans r true us count full (.closeParen :: rest))
    (hkind : t.kind = .function)
    (hall : all = true → full = true ∧ (Step.call t.text).effect r + count = 1) :
    Spans r true (t :: .openParen :: us) 1 all rest := by
  have hbehind : Token.isPrefixPosition (some t) = false := by
    simp [Expr.isPrefixPosition_some, hkind]
  have heffect : effectOf r true t = (Step.call t.text).effect r := by
    simp [effectOf, stepOf?, hkind]
  have hopen := h.close.open false
  rw [← hbehind] at hopen
  exact hopen.cons (by simp [hkind]) fun hfull => ⟨(hall hfull).1, by rw [heffect, (hall hfull).2]⟩

end Spans

end Postfix

/-- Whether a function of the name is registered and computed from so many arguments. -/
def Registry.takes (r : Registry) (name : String) (count : Nat) : Bool :=
  (r.function? name).any fun rule => (count : Int) = rule.arity.least

/-- A call with the arguments that its function takes leaves one value for them. -/
theorem Registry.effect_of_takes {r : Registry} {name : String} {count : Nat}
    (h : r.takes name count = true) : (Postfix.Step.call name).effect r + count = 1 := by
  obtain ⟨rule, hrule, htest⟩ := (Option.any_eq_true _ _).1 h
  have hcount : (count : Int) = rule.arity.least := of_decide_eq_true htest
  rw [Postfix.Step.effect, hrule, Option.elim_some]
  omega

namespace Expr

open Postfix

mutual

/-- Whether all calls in an expression satisfy a test of their names and numbers of arguments. -/
def everyCall (test : String → Nat → Bool) : Expr → Bool
  | number _ => true
  | reference _ => true
  | constant _ => true
  | prefixed _ operand => everyCall test operand
  | binary _ left right => everyCall test left && everyCall test right
  | group inner => everyCall test inner
  | call name args => test name args.length && everyCallOfAll test args

/-- The same for several expressions. -/
def everyCallOfAll (test : String → Nat → Bool) : List Expr → Bool
  | [] => true
  | e :: es => everyCall test e && everyCallOfAll test es

end

variable {r : Registry}

/-- Whether what a part of the parser reads makes the stack higher by as many values as it comes to;
behind a tail the calls before it are full too. -/
def Part.Raises (r : Registry) : Part → (ts rest : List Token) → Prop
  | .sum e, ts, rest | .product e, ts, rest | .power e, ts, rest | .factor e, ts, rest =>
    Spans r true ts 1 (e.everyCall r.takes) rest
  | .sumTail left e, ts, rest | .productTail left e, ts, rest =>
    Spans r false ts 0 (e.everyCall r.takes) rest ∧
      (e.everyCall r.takes = true → left.everyCall r.takes = true)
  | .arguments es, ts, rest => Spans r true ts es.length (everyCallOfAll r.takes es) rest
  | .argumentsTail es, ts, rest => Spans r false ts es.length (everyCallOfAll r.takes es) rest

/-- What is read without repairs raises the stack so. -/
theorem Parses.raises {reading : Reading} {part : Part} {ts rest : List Token}
    (h : Parses reading part ts rest) (hstrict : reading = .strict) : part.Raises r ts rest := by
  induction h with
  | sum _ _ ihfirst ihtail | product _ _ ihfirst ihtail =>
    obtain ⟨htail, hfull⟩ := ihtail hstrict
    exact (ihfirst hstrict).trans htail fun hcalls => ⟨hfull hcalls, hcalls⟩
  | sumEnd | productEnd => exact ⟨.stop _ _, id⟩
  | addition ht _ _ ihright ihtail | multiplication ht _ _ ihright ihtail =>
    obtain ⟨hkind, -⟩ := isOperatorAmong_iff.1 ht
    obtain ⟨htail, hfull⟩ := ihtail hstrict
    simp only [everyCall, Bool.and_eq_true] at hfull
    have hfirst := (ihright hstrict).operator hkind fun hcalls => (hfull hcalls).2
    exact ⟨hfirst.trans htail fun hcalls => ⟨hcalls, hcalls⟩, fun hcalls => (hfull hcalls).1⟩
  | base _ _ ih => exact ih hstrict
  | exponentiation _ ht _ ihbase ihexponent =>
    obtain ⟨hkind, -⟩ := isOperatorAmong_iff.1 ht
    have hpower := (ihexponent hstrict).operator hkind id
    exact (ihbase hstrict).trans hpower fun hcalls => Bool.and_eq_true_iff.1 hcalls
  | number | reference | constant => exact .value (by simp) _
  | negation ht _ ih => exact (ih hstrict).prefixed (isOperatorAmong_iff.1 ht).1
  | group _ hclose ih =>
    subst hstrict
    obtain rfl := hclose.eq_of_strict
    exact (ih rfl).close.open true
  | call _ hclose ih =>
    subst hstrict
    obtain rfl := hclose.eq_of_strict
    refine (ih rfl).call rfl fun hcalls => ?_
    obtain ⟨htakes, hfull⟩ := Bool.and_eq_true_iff.1 hcalls
    exact ⟨hfull, Registry.effect_of_takes htakes⟩
  | @name _ name us _ =>
    -- Without a parenthesis behind it, the function takes what its name does not stand for.
    refine .atom (by simp [isPrefixPosition_some]) ?_ us
    have hle := Step.effect_call_le (r := r) name
    simpa [effectOf, stepOf?] using hle
  | missing | stray => cases hstrict
  | noArguments hclose => exact .noArguments hclose _
  | arguments _ _ _ ihfirst ihmore =>
    exact (ihfirst hstrict).succ (ihmore hstrict) fun hcalls => Bool.and_eq_true_iff.1 hcalls
  | argumentsEnd => exact .stop _ _
  | nextArgument ht _ _ ihnext ihmore =>
    have hspans := (ihnext hstrict).succ (ihmore hstrict) fun hcalls =>
      Bool.and_eq_true_iff.1 hcalls
    exact hspans.comma ht

/-- An expression is one operand, up to the end of the tokens. -/
theorem spans_of_parse {ts : List Token} {e : Expr} (hne : ts ≠ [])
    (h : parse .strict ts = .ok e) : Spans r true ts 1 (e.everyCall r.takes) [] :=
  (parses_of_parse_strict hne h).raises rfl

/-! ### The value of an expression -/

/-- What begins with an operand does not consist of parentheses alone. -/
theorem Parses.stepsFrom_ne_nil {reading : Reading} {part : Part} {ts rest : List Token}
    (h : Parses reading part ts rest) (hstrict : reading = .strict)
    (hpart : part.BeginsWithOperand) (free : Bool) : stepsFrom r free ts ≠ [] := by
  induction h generalizing free with
  | sum _ _ ihfirst | product _ _ ihfirst => exact ihfirst hstrict trivial free
  | base _ _ ih => exact ih hstrict trivial free
  | exponentiation _ _ _ ihbase => exact ihbase hstrict trivial free
  | number | reference | constant | call | name => simp [stepsFrom, stepOf?]
  | negation ht =>
    -- The step of an operator is one of two, by whether an operand can begin there.
    obtain ⟨symbol, -, rfl⟩ := exists_of_isOperatorAmong ht
    rw [stepsFrom, stepOf?]
    dsimp only
    split <;> simp
  | group _ _ ih => exact ih hstrict trivial _
  | missing | stray => cases hstrict
  | _ => exact hpart.elim

/-- An expression that has a value leaves this value alone on the stack. -/
theorem run_eq_singleton {ts : List Token} {e : Expr} {scope : Scope} {x : Float} (hne : ts ≠ [])
    (hparse : parse .strict ts = .ok e) (hcalls : e.everyCall r.takes = true)
    (hvalue : r.evaluateStrict ts scope = .ok x) :
    ∃ steps, order r ts = .ok steps ∧ run r scope [] steps = .ok [x] := by
  unfold Registry.evaluateStrict at hvalue
  split at hvalue
  · cases hvalue
  · next steps horder =>
    -- The steps leave one value at most, and at least one since there are some.
    have hheight : heightOf r steps ≤ 1 := by
      have hspans := (spans_of_parse hne hparse).height hcalls
      have hnone : heightFrom r false [] = 0 := rfl
      rw [heightOf_order horder]
      omega
    have hsteps : steps ≠ [] := by
      rintro rfl
      exact (parses_of_parse_strict hne hparse).stepsFrom_ne_nil rfl trivial true
        (perm_of_orderFrom horder).nil_eq.symm
    split at hvalue
    · next y below hrun =>
      obtain rfl : y = x := Except.ok.inj hvalue
      have hlength := length_of_run hrun
      rw [List.length_cons, List.length_nil] at hlength
      obtain rfl : below = [] := List.eq_nil_of_length_eq_zero (by omega)
      exact ⟨steps, horder, hrun⟩
    · next hrun => exact absurd rfl (ne_nil_of_run hsteps hrun)
    · cases hvalue

end Expr

end LiveSheet
