import LiveSheet.Proofs.Height

/-!
# Names and what they stand for

To put an expression in place of a name is to give the name the value of the expression
(`Registry.evaluateStrict_inline`). The evaluator has no tree in which a part could be exchanged, so
this is said of its two passes. Postfix order of a group is that of its inside, whatever waits
outside (`Postfix.orderFrom_group`); it puts the steps of the inside where the step of the reference
would be, if the reference stands where an operand can begin, so that no function waits for the
parenthesis of the group (`Postfix.orderFrom_inline`). On the stack these steps leave one value on
what is there, as the reference does (`Postfix.run_inline`).
-/

namespace LiveSheet

/-- Tokens with a group in place of each reference to a name. -/
def Token.inline (name : String) (part ts : List Token) : List Token :=
  ts.flatMap fun t => if t = ⟨.reference, name⟩ then .openParen :: (part ++ [.closeParen]) else [t]

/-- Another token stays where it is. -/
theorem Token.inline_of_ne {name : String} {part : List Token} {t : Token} (ts : List Token)
    (h : t ≠ ⟨.reference, name⟩) :
    Token.inline name part (t :: ts) = t :: Token.inline name part ts := by
  rw [Token.inline, List.flatMap_cons, if_neg h]
  rfl

/-- The reference is replaced by the part in parentheses. -/
theorem Token.inline_reference (name : String) (part ts : List Token) :
    Token.inline name part (⟨.reference, name⟩ :: ts) =
      .openParen :: (part ++ .closeParen :: Token.inline name part ts) := by
  rw [Token.inline, List.flatMap_cons, if_pos rfl, List.cons_append, List.append_assoc]
  rfl

namespace Postfix

variable {r : Registry} {scope : Scope} {name : String} {part : List Token} {steps : List Step}

/-! ### Postfix order of a group -/

/-- An item that fails a test stops what is taken off the front, as the end of the list would. -/
theorem takeWhile_append_of_stop {α : Type} {test : α → Bool} {a : α} (h : test a = false)
    (front back : List α) :
    (front ++ a :: back).takeWhile test = front.takeWhile test ∧
      (front ++ a :: back).dropWhile test = front.dropWhile test ++ a :: back := by
  induction front with
  | nil => simp [h]
  | cons b front ih => by_cases hb : test b = true <;> simp [hb, ih]

/-- A name below an open parenthesis is not called by what is above it. -/
theorem calledFunction_append_paren (inner pending : List Pending) :
    calledFunction (inner ++ .paren :: pending) =
      ((calledFunction inner).1, (calledFunction inner).2 ++ .paren :: pending) := by
  match inner with
  | [] => rfl
  | .call _ :: _ => rfl
  | .prefixed _ :: _ => rfl
  | .operator _ :: _ => rfl
  | .paren :: _ => rfl

/-- What a token does inside parentheses is what it does alone. -/
theorem advance_append {free : Bool} {inner waiting : List Pending} {t : Token} {out : List Step}
    (h : advance r free inner t = .ok (out, waiting)) (pending : List Pending) :
    advance r free (inner ++ .paren :: pending) t = .ok (out, waiting ++ .paren :: pending) := by
  have hparen : ∀ test : Pending → Bool, test .paren = false →
      (inner ++ .paren :: pending).takeWhile test = inner.takeWhile test ∧
        (inner ++ .paren :: pending).dropWhile test = inner.dropWhile test ++ .paren :: pending :=
    fun test htest => takeWhile_append_of_stop htest inner pending
  -- No token looks behind the parenthesis, as none of the tests lets it pass.
  obtain ⟨hyields, hstays⟩ := hparen (yieldsTo r t.text) rfl
  obtain ⟨habove, hfrom⟩ := hparen (· != .paren) rfl
  unfold advance at h ⊢
  cases hkind : t.kind with
  | number | reference | constant =>
    simp only [hkind, Except.ok.injEq, Prod.mk.injEq] at h ⊢
    exact ⟨h.1, by rw [h.2]⟩
  | function =>
    simp only [hkind, Except.ok.injEq, Prod.mk.injEq] at h ⊢
    exact ⟨h.1, by rw [← h.2, List.cons_append]⟩
  | operator =>
    simp only [hkind] at h ⊢
    rw [hyields, hstays]
    by_cases hprefix : (free && (r.prefix? t.text).isSome) = true
    · rw [if_pos hprefix] at h ⊢
      obtain ⟨rfl, rfl⟩ := Prod.mk.inj (Except.ok.inj h)
      rfl
    · rw [if_neg hprefix] at h ⊢
      obtain ⟨rfl, rfl⟩ := Prod.mk.inj (Except.ok.inj h)
      rfl
  | comma =>
    simp only [hkind] at h ⊢
    unfold stepsAboveParen fromParen at h ⊢
    rw [habove, hfrom]
    obtain ⟨rfl, rfl⟩ := Prod.mk.inj (Except.ok.inj h)
    rfl
  | parenthesis =>
    simp only [hkind] at h ⊢
    split at h
    · next hopen =>
      obtain ⟨rfl, rfl⟩ := Prod.mk.inj (Except.ok.inj h)
      rw [if_pos hopen, List.cons_append]
    · next hopen =>
      rw [if_neg hopen]
      split at h
      · next hclose =>
        rw [if_pos hclose]
        split at h
        · cases h
        · next p outer hinner =>
          obtain ⟨rfl, rfl⟩ := Prod.mk.inj (Except.ok.inj h)
          unfold fromParen at hinner
          unfold stepsAboveParen fromParen
          rw [habove, hfrom, hinner, List.cons_append]
          simp only [calledFunction_append_paren]
      · next hclose =>
        obtain ⟨rfl, rfl⟩ := Prod.mk.inj (Except.ok.inj h)
        rw [if_neg hclose]

/-- What stands in parentheses comes out as it would alone, whatever waits before them. -/
theorem orderFrom_group {previous previous' : Option Token} {inner : List Pending}
    (h : orderFrom r previous inner part = .ok steps)
    (hprevious : Token.isPrefixPosition previous' = Token.isPrefixPosition previous)
    (pending : List Pending) (ts : List Token) :
    orderFrom r previous' (inner ++ .paren :: pending) (part ++ .closeParen :: ts) =
      prepend (steps ++ (calledFunction pending).1)
        (orderFrom r (some .closeParen) (calledFunction pending).2 ts) := by
  induction part generalizing previous previous' inner steps with
  | nil =>
    rw [orderFrom] at h
    split at h
    · cases h
    · next hopen =>
      obtain rfl := Except.ok.inj h
      have hall : ∀ p ∈ inner, (p != Pending.paren) = true := by
        intro p hp
        refine bne_iff_ne.2 ?_
        rintro rfl
        exact hopen (List.contains_iff_mem.2 hp)
      obtain ⟨htake, hdrop⟩ := takeWhile_append_of_all (· != Pending.paren) inner
        (.paren :: pending) hall (by simp)
      -- The closing parenthesis writes what waits above the open one, as the end of the part does.
      have hclose : advance r (Token.isPrefixPosition previous') (inner ++ .paren :: pending)
          .closeParen = .ok (inner.filterMap Pending.step? ++ (calledFunction pending).1,
            (calledFunction pending).2) := by
        have hisOpen : Token.closeParen.isOpenParen = false := by decide
        have hisClose : Token.closeParen.isCloseParen = true := by decide
        simp only [advance, show Token.closeParen.kind = .parenthesis from rfl, hisOpen, hisClose,
          Bool.false_eq_true, if_false, if_true, stepsAboveParen, fromParen, htake, hdrop]
      rw [List.nil_append, orderFrom_cons, hclose]
      rfl
  | cons t part ih =>
    obtain ⟨out, waiting, back, hadvance, hback, rfl⟩ := exists_advance_of_orderFrom h
    rw [List.cons_append, orderFrom_cons, hprevious, advance_append hadvance pending]
    change prepend out (orderFrom r (some t) (waiting ++ .paren :: pending) _) = _
    rw [ih hback rfl, prepend_prepend, List.append_assoc]

/-! ### Postfix order with a group for a name -/

/-- Steps with others in place of each reference to a name. -/
def inlineSteps (name : String) (partSteps steps : List Step) : List Step :=
  steps.flatMap fun step => if step = .reference name then partSteps else [step]

/-- Steps without the reference stay as they are. -/
theorem inlineSteps_of_forall_ne {partSteps : List Step}
    (h : ∀ step ∈ steps, step ≠ .reference name) :
    inlineSteps name partSteps steps = steps := by
  induction steps with
  | nil => rfl
  | cons step steps ih =>
    obtain ⟨hstep, hsteps⟩ := List.forall_mem_cons.1 h
    rw [inlineSteps, List.flatMap_cons, if_neg hstep]
    exact congrArg (step :: ·) (ih hsteps)

/-- What is put in front is inlined with the rest. -/
theorem map_prepend (partSteps front : List Step) (rest : Except Fault (List Step)) :
    (prepend front rest).map (inlineSteps name partSteps) =
      prepend (inlineSteps name partSteps front) (rest.map (inlineSteps name partSteps)) := by
  cases rest with
  | error f => rfl
  | ok back => exact congrArg Except.ok List.flatMap_append

/-- No pending item is a reference. -/
theorem ne_reference_of_pending {pending : List Pending} {step : Step}
    (h : step ∈ pending.filterMap Pending.step?) : step ≠ .reference name := by
  obtain ⟨p, -, hp⟩ := List.mem_filterMap.1 h
  rintro rfl
  cases p <;> cases hp

/-- A reference is written by its own token. -/
theorem eq_of_advance_reference {free : Bool} {pending waiting : List Pending} {t : Token}
    {out : List Step} (h : advance r free pending t = .ok (out, waiting))
    (hmem : Step.reference name ∈ out) : t = ⟨.reference, name⟩ := by
  have hperm := (perm_of_advance h).mem_iff.1 (List.mem_append_left _ hmem)
  rcases List.mem_append.1 hperm with hpending | hown
  · exact absurd rfl (ne_reference_of_pending hpending)
  · have hstep : stepOf? r free t = some (.reference name) := by
      cases hnone : stepOf? r free t with
      | none => simp [hnone] at hown
      | some step => simpa [hnone, eq_comm] using hown
    obtain ⟨kind, text⟩ := t
    unfold stepOf? at hstep
    cases kind with
    | reference => simpa using hstep
    | operator => simp only at hstep; split at hstep <;> cases hstep
    | _ => cases hstep

/-- Where an operand can begin, no function waits for its parenthesis. -/
theorem calledFunction_of_advance {free : Bool} {pending waiting : List Pending} {t : Token}
    {out : List Step} (h : advance r free pending t = .ok (out, waiting))
    (hfree : Token.isPrefixPosition (some t) = true) : calledFunction waiting = ([], waiting) := by
  unfold advance at h
  cases hkind : t.kind with
  | operator =>
    simp only [hkind] at h
    split at h <;>
    · obtain ⟨-, rfl⟩ := Prod.mk.inj (Except.ok.inj h)
      rfl
  | comma =>
    simp only [hkind] at h
    obtain ⟨-, rfl⟩ := Prod.mk.inj (Except.ok.inj h)
    cases hfrom : fromParen pending with
    | nil => rfl
    | cons p outer =>
      obtain rfl := eq_paren_of_fromParen hfrom
      rfl
  | parenthesis =>
    have hopen : t.isOpenParen = true := by simpa [Token.isPrefixPosition, hkind] using hfree
    simp only [hkind, hopen, if_true] at h
    obtain ⟨-, rfl⟩ := Prod.mk.inj (Except.ok.inj h)
    rfl
  | _ => simp [Expr.isPrefixPosition_some, hkind] at hfree

/-- With a group in place of a name, the steps of the group come in place of the reference. -/
theorem orderFrom_inline {partSteps : List Step} (hpart : order r part = .ok partSteps)
    {previous previous' : Option Token} {pending : List Pending} {ts : List Token}
    (hprevious : Token.isPrefixPosition previous' = Token.isPrefixPosition previous)
    (hplaced : ReferencesPlaced (Token.isPrefixPosition previous) ts)
    (hpending : Token.isPrefixPosition previous = true → calledFunction pending = ([], pending)) :
    orderFrom r previous' pending (Token.inline name part ts) =
      (orderFrom r previous pending ts).map (inlineSteps name partSteps) := by
  induction ts generalizing previous previous' pending with
  | nil =>
    change orderFrom r previous' pending [] = _
    rw [orderFrom, orderFrom]
    split
    · rfl
    · have hsteps : ∀ step ∈ pending.filterMap Pending.step?, step ≠ .reference name :=
        fun step hstep => ne_reference_of_pending hstep
      exact congrArg Except.ok (inlineSteps_of_forall_ne hsteps).symm
  | cons t ts ih =>
    obtain ⟨hfree, hrest⟩ := hplaced
    by_cases ht : t = ⟨.reference, name⟩
    · subst ht
      -- No function waits here, so the closing parenthesis of the group ends no call.
      have hnone := hpending (hfree rfl)
      have hopen : Token.isPrefixPosition (some .openParen) = Token.isPrefixPosition none := by
        decide
      have hgroup := orderFrom_group hpart hopen pending (Token.inline name part ts)
      have hbehind : orderFrom r (some .closeParen) pending (Token.inline name part ts) =
          (orderFrom r (some ⟨.reference, name⟩) pending ts).map (inlineSteps name partSteps) :=
        ih rfl hrest fun hfree => by cases hfree
      have hreference : orderFrom r previous pending (⟨.reference, name⟩ :: ts) =
          prepend [.reference name] (orderFrom r (some ⟨.reference, name⟩) pending ts) :=
        orderFrom_cons _ _ _ _
      have hsteps : inlineSteps name partSteps [.reference name] = partSteps := by
        simp [inlineSteps]
      calc
        orderFrom r previous' pending (Token.inline name part (⟨.reference, name⟩ :: ts))
        _ = orderFrom r (some .openParen) (.paren :: pending)
            (part ++ .closeParen :: Token.inline name part ts) := by
          rw [Token.inline_reference, orderFrom_open]
        _ = prepend partSteps
            (orderFrom r (some .closeParen) pending (Token.inline name part ts)) := by
          rw [hnone, List.append_nil] at hgroup
          exact hgroup
        _ = (orderFrom r previous pending (⟨.reference, name⟩ :: ts)).map
            (inlineSteps name partSteps) := by
          rw [hbehind, hreference, map_prepend, hsteps]
    · rw [Token.inline_of_ne ts ht, orderFrom_cons, orderFrom_cons, hprevious]
      cases hadvance : advance r (Token.isPrefixPosition previous) pending t with
      | error f => rfl
      | ok next =>
        obtain ⟨out, waiting⟩ := next
        have hout : ∀ step ∈ out, step ≠ .reference name := by
          rintro step hstep rfl
          exact ht (eq_of_advance_reference hadvance hstep)
        calc
          prepend out (orderFrom r (some t) waiting (Token.inline name part ts))
          _ = prepend out ((orderFrom r (some t) waiting ts).map (inlineSteps name partSteps)) := by
            rw [ih rfl hrest (calledFunction_of_advance hadvance)]
          _ = (prepend out (orderFrom r (some t) waiting ts)).map (inlineSteps name partSteps) := by
            rw [map_prepend, inlineSteps_of_forall_ne hout]

/-! ### The stack with steps for a name -/

/-- Steps in two parts are run one part after the other. -/
theorem run_append (stack : List Float) (front back : List Step) :
    run r scope stack (front ++ back) =
      (run r scope stack front).bind fun middle => run r scope middle back := by
  induction front generalizing stack with
  | nil => rfl
  | cons step front ih =>
    rw [List.cons_append, run, run]
    cases runStep r scope stack step with
    | error e => rfl
    | ok middle => exact ih middle

/-- A scope is read by references alone. -/
theorem runStep_insert {step : Step} (h : step ≠ .reference name) (v : Value) (stack : List Float) :
    runStep r (scope.insert name v) stack step = runStep r scope stack step := by
  cases step with
  | reference other =>
    have hne : other ≠ name := fun heq => h (heq ▸ rfl)
    rw [runStep, runStep, Table.get?_insert, if_neg hne]
  | _ => rfl

/-- Steps that leave one value are run in place of a reference to it. -/
theorem run_inline {partSteps : List Step} {x : Float}
    (hpart : run r scope [] partSteps = .ok [x]) (hx : Binary64.isFinite x = true)
    (stack : List Float) (steps : List Step) :
    run r scope stack (inlineSteps name partSteps steps) =
      run r (scope.insert name (.float x)) stack steps := by
  induction steps generalizing stack with
  | nil => rfl
  | cons step steps ih =>
    rw [inlineSteps, List.flatMap_cons]
    by_cases hstep : step = .reference name
    · subst hstep
      have hvalue : runStep r (scope.insert name (.float x)) stack (.reference name) =
          .ok (x :: stack) := by
        rw [runStep, Table.get?_insert, if_pos rfl]
        simp [Value.coerce, Value.finiteOrZero, hx]
      have hsteps : run r scope stack partSteps = .ok (x :: stack) := run_append_stack hpart stack
      rw [if_pos rfl, run_append, hsteps, run, hvalue]
      exact ih (x :: stack)
    · rw [if_neg hstep, List.singleton_append, run, run, runStep_insert hstep]
      cases runStep r scope stack step with
      | error e => rfl
      | ok middle => exact ih middle

end Postfix

/-! ### The value with an expression for a name -/

namespace Registry

/-- To put an expression in place of a name is to give the name its value: whatever the other
expression comes to, a number or a fault, it comes to with the group as with the name. The
expression has to be one without repairs whose calls are full, so that it leaves its value alone on
the stack, and its value has to be finite, since a name stands for finite numbers only. -/
theorem evaluateStrict_inline (r : Registry) (scope : Scope) (name : String) {part ts : List Token}
    {partTree tree : Expr} {x : Float} (hne : part ≠ [])
    (hpart : Expr.parse .strict part = .ok partTree) (hcalls : partTree.everyCall r.takes = true)
    (hts : Expr.parse .strict ts = .ok tree) (hvalue : r.evaluateStrict part scope = .ok x)
    (hx : Binary64.isFinite x = true) :
    r.evaluateStrict (Token.inline name part ts) scope =
      r.evaluateStrict ts (scope.insert name (.float x)) := by
  obtain ⟨partSteps, horder, hrun⟩ := Expr.run_eq_singleton hne hpart hcalls hvalue
  have hplaced : Postfix.ReferencesPlaced true ts := by
    by_cases hempty : ts = []
    · subst hempty
      trivial
    · exact (Expr.spans_of_parse (r := r) hempty hts).placed trivial
  have hinline : Postfix.order r (Token.inline name part ts) =
      (Postfix.order r ts).map (Postfix.inlineSteps name partSteps) :=
    Postfix.orderFrom_inline horder rfl hplaced fun _ => rfl
  unfold evaluateStrict
  rw [hinline]
  cases Postfix.order r ts with
  | error f => rfl
  | ok steps =>
    simp only [Except.map]
    rw [Postfix.run_inline hrun hx]

/-- The tokens of `A - 3 * 2`. -/
def differenceTokens : List Token :=
  [⟨.reference, "A"⟩, ⟨.operator, "-"⟩, ⟨.number, "3"⟩, ⟨.operator, "*"⟩, ⟨.number, "2"⟩]

/-- The tree of `A - 3 * 2`. -/
def differenceTree : Expr :=
  .binary "-" (.reference "A") (.binary "*" (.number "3") (.number "2"))

/-- The tokens of `sqrt(A * A) - 2 / -A`. -/
def squareTokens : List Token :=
  [ ⟨.function, "sqrt"⟩, .openParen, ⟨.reference, "A"⟩, ⟨.operator, "*"⟩, ⟨.reference, "A"⟩,
    .closeParen, ⟨.operator, "-"⟩, ⟨.number, "2"⟩, ⟨.operator, "/"⟩, ⟨.operator, "-"⟩,
    ⟨.reference, "A"⟩ ]

/-- The tree of `sqrt(A * A) - 2 / -A`. -/
def squareTree : Expr :=
  .binary "-" (.call "sqrt" [.binary "*" (.reference "A") (.reference "A")])
    (.binary "/" (.number "2") (.prefixed "-" (.reference "A")))

/-- The name itself occurs in what it stands for: with 4 for it the difference is -2, and with -2
for it the other expression is 1. -/
theorem evaluateStrict_inline_difference :
    differenceTokens ≠ [] ∧ Expr.parse .strict differenceTokens = .ok differenceTree ∧
      differenceTree.everyCall standard.takes = true ∧
      Expr.parse .strict squareTokens = .ok squareTree ∧
      standard.evaluateStrict differenceTokens ⟨[("A", .float 4)]⟩ = .ok (-2) ∧
      Binary64.isFinite (-2) = true ∧
      standard.evaluateStrict (Token.inline "A" differenceTokens squareTokens)
        ⟨[("A", .float 4)]⟩ = .ok 1 := by
  have hpart : Expr.parse .strict differenceTokens = .ok differenceTree := by cbv
  have hcalls : differenceTree.everyCall standard.takes = true := by decide
  have hts : Expr.parse .strict squareTokens = .ok squareTree := by cbv
  have hvalue : standard.evaluateStrict differenceTokens ⟨[("A", .float 4)]⟩ = .ok (-2) := by
    decide +kernel
  have hx : Binary64.isFinite (-2) = true := by decide +kernel
  have hnamed : standard.evaluateStrict squareTokens
      ((⟨[("A", .float 4)]⟩ : Scope).insert "A" (.float (-2))) = .ok 1 := by decide +kernel
  exact ⟨by decide, hpart, hcalls, hts, hvalue, hx,
    (evaluateStrict_inline standard _ "A" (by decide) hpart hcalls hts hvalue hx).trans hnamed⟩

end Registry

end LiveSheet
