import LiveSheet.Evaluation.Stack
import LiveSheet.Proofs.Postorder
import LiveSheet.Proofs.Totality

/-!
# The stack computes the value of the tree

`Expr.value` computes an expression on its tree, with the rules of the registry: operands and
arguments from left to right, and then what takes them. `evaluateStrict_eq_value` shows that the
stack comes to the same number or the same fault, for texts without repairs whose calls have as many
arguments as their functions are computed from.

The steps of a tree leave the stack as it was, with the value of the tree on top
(`Expr.run_postorder`); the first step that fails is that of the first part that has no value.
-/

namespace LiveSheet

/-! ### Calls in a text -/

namespace Lexer

/-- The token of a piece. -/
def Piece.token? : Piece → Option Token
  | .token t _ => some t
  | _ => none

/-- The tokens of lexemes are those of the pieces. -/
theorem lexemesFrom_token (start : Nat) (ps : List Piece) :
    (lexemesFrom start ps).map (·.token) = ps.filterMap Piece.token? := by
  induction ps generalizing start with
  | nil => rfl
  | cons p ps ih =>
    cases p with
    | token t spelling => exact congrArg (t :: ·) (ih _)
    | gap c => exact ih _
    | unread c => exact ih _

variable {isConstant : String → Bool} {c : Char} {cs rest spelling : List Char} {t : Token}

/-- White space starts no token. -/
theorem nextPiece_of_isBlank (isConstant : String → Bool) (h : Text.isBlank c = true)
    (cs : List Char) :
    (nextPiece isConstant c cs).1.token? = none ∧ (nextPiece isConstant c cs).2 = cs := by
  have hrange : c.toNat ≤ 32 ∨ 133 ≤ c.toNat := by
    simp only [Text.isBlank, Bool.or_eq_true, Bool.and_eq_true, decide_eq_true_eq, beq_iff_eq] at h
    omega
  -- Every character that starts a token lies between the blanks.
  have hne : ∀ d : Char, 32 < d.toNat ∧ d.toNat < 133 → c ≠ d := by
    rintro d hd rfl
    omega
  have hdigit : Decimal.isDigit c = false := by
    refine Bool.eq_false_iff.2 fun hdigit => ?_
    have : 48 ≤ c.toNat ∧ c.toNat ≤ 57 := by
      simpa [Decimal.isDigit, Char.le_def, UInt32.le_iff_toNat_le] using hdigit
    omega
  have hname : isNameStart c = false := by
    refine Bool.eq_false_iff.2 fun hname => ?_
    have : ((97 ≤ c.toNat ∧ c.toNat ≤ 122) ∨ 65 ≤ c.toNat ∧ c.toNat ≤ 90) ∨ c = '_' := by
      simpa [isNameStart, Char.le_def, UInt32.le_iff_toNat_le] using hname
    rcases this with (hlower | hupper) | rfl
    · omega
    · omega
    · exact hne '_' (by decide) rfl
  have hnumber : Decimal.takeNumber? (c :: cs) = none := by
    have hpoint : c ≠ '.' := hne '.' (by decide)
    simp [Decimal.takeNumber?, Decimal.takeFraction?, hdigit, hpoint]
  have hsymbol : symbolToken? c = none := by
    simp [symbolToken?, isOperatorChar, hne '+' (by decide), hne '-' (by decide),
      hne '*' (by decide), hne '/' (by decide), hne '^' (by decide), hne '%' (by decide),
      hne '(' (by decide), hne ')' (by decide), hne ',' (by decide)]
  have htake : takeName? (c :: cs) = none := by simp [takeName?, hname]
  unfold nextPiece
  split
  · exact ⟨rfl, rfl⟩
  · rw [hnumber, htake, hsymbol]
    exact ⟨rfl, rfl⟩

/-- An opening parenthesis is a token of its own. -/
theorem nextPiece_open (cs : List Char) :
    nextPiece isConstant '(' cs = (.token .openParen ['('], cs) :=
  rfl

/-- No symbol is a function. -/
theorem symbolToken?_kind_ne_function (h : symbolToken? c = some t) : t.kind ≠ .function := by
  unfold symbolToken? at h
  split at h
  · exact Option.some.inj h ▸ by simp
  · split at h
    · exact Option.some.inj h ▸ by simp
    · split at h
      · exact Option.some.inj h ▸ by simp
      · cases h

/-- A name is a function if a parenthesis follows it. -/
theorem parenFollows_of_nextPiece (h : (nextPiece isConstant c cs).1 = .token t spelling)
    (hkind : t.kind = .function) : parenFollows (nextPiece isConstant c cs).2 = true := by
  have hcut := cut_nextPiece isConstant c cs
  rw [h] at hcut
  generalize (nextPiece isConstant c cs).2 = rest at hcut ⊢
  cases hcut with
  | number => cases hkind
  | name =>
    by_contra hnot
    unfold nameToken at hkind
    rw [if_neg (by simpa using hnot)] at hkind
    split at hkind <;> cases hkind
  | symbol hsymbol => exact absurd hkind (symbolToken?_kind_ne_function hsymbol)

/-- Where the lexer sees a parenthesis ahead, the next token opens one. -/
theorem head?_of_parenFollows (h : parenFollows cs = true) :
    ((pieces isConstant cs).filterMap Piece.token?).head? = some .openParen := by
  induction cs with
  | nil => simp [parenFollows] at h
  | cons c cs ih =>
    rw [pieces]
    by_cases hblank : Text.isBlank c = true
    · obtain ⟨htoken, hrest⟩ := nextPiece_of_isBlank isConstant hblank cs
      rw [List.filterMap_cons_none htoken, hrest]
      refine ih ?_
      simpa [parenFollows, hblank] using h
    · obtain rfl : c = '(' := by simpa [parenFollows, hblank] using h
      rw [nextPiece_open]
      rfl

/-- Each function token of a text stands directly before an opening parenthesis. -/
theorem callsOpen_tokens (isConstant : String → Bool) (s : String) :
    Token.callsOpen (tokens isConstant s) = true := by
  unfold tokens lexemes
  rw [lexemesFrom_token]
  generalize s.toList = cs
  induction cs using pieces.induct isConstant with
  | case1 => simp [pieces, Token.callsOpen]
  | case2 c cs ih =>
    rw [pieces]
    cases hpiece : (nextPiece isConstant c cs).1 with
    | gap c => exact ih
    | unread c => exact ih
    | token t spelling =>
      rw [List.filterMap_cons_some (by rfl), Token.callsOpen, Bool.and_eq_true, Bool.or_eq_true]
      refine ⟨?_, ih⟩
      by_cases hkind : t.kind = .function
      · rw [head?_of_parenFollows (parenFollows_of_nextPiece hpiece hkind)]
        exact .inr rfl
      · exact .inl (by simpa using hkind)

end Lexer

/-! ### The value of a tree -/

namespace Expr

/-- The value of a part, which must not be `nan`. -/
def checked (symbol : String) (x : Float) : Except EvaluationError Float :=
  if x.isNaN then .error (.fault (.undefinedValue symbol)) else .ok x

mutual

/-- The value of an expression by the rules of a registry. -/
def value (r : Registry) (scope : Scope) : Expr → Except EvaluationError Float
  | number text =>
    match Decimal.readNumeral? text with
    | some x => .ok x
    | none => .error (.number (.unreadable text))
  | reference name =>
    match scope.get? name with
    | some v => v.coerce.mapError .number
    | none => .ok 0
  | constant name => checked name ((r.constant? name).getD Binary64.nan)
  | prefixed symbol operand => do
    let a ← value r scope operand
    checked symbol ((r.prefix? symbol).elim Binary64.nan (·.compute a))
  | binary symbol left right => do
    let a ← value r scope left
    let b ← value r scope right
    checked symbol ((r.operator? symbol).elim Binary64.nan (·.compute a b))
  | group inner => value r scope inner
  | call name args => do
    let xs ← values r scope args
    match r.function? name with
    | some rule => checked name (rule.compute xs)
    | none => .error (.fault (.unknownFunction name))

/-- The values of several expressions, from left to right. -/
def values (r : Registry) (scope : Scope) : List Expr → Except EvaluationError (List Float)
  | [] => .ok []
  | e :: es => do
    let x ← value r scope e
    let xs ← values r scope es
    return x :: xs

end

mutual

/-- Whether every call of a registered function has as many arguments as it is computed from. -/
def callsFull (r : Registry) : Expr → Bool
  | number _ => true
  | reference _ => true
  | constant _ => true
  | prefixed _ operand => callsFull r operand
  | binary _ left right => callsFull r left && callsFull r right
  | group inner => callsFull r inner
  | call name args =>
    (r.function? name).all (fun rule => (args.length : Int) = rule.arity.least) &&
      allCallsFull r args

/-- The same for several expressions. -/
def allCallsFull (r : Registry) : List Expr → Bool
  | [] => true
  | e :: es => callsFull r e && allCallsFull r es

end

/-! ### The stack after the steps of a tree -/

section

open Postfix

variable {r : Registry} {scope : Scope}

/-- What a bind comes to, its two parts come to. -/
theorem ok_of_bind {ε α β : Type} {x : Except ε α} {next : α → Except ε β} {b : β}
    (h : x.bind next = .ok b) : ∃ a, x = .ok a ∧ next a = .ok b := by
  cases x with
  | error err => cases h
  | ok a => exact ⟨a, rfl, h⟩

/-- What a bind raises, the first part raises or else the second. -/
theorem error_of_bind {α β : Type} {x : Except EvaluationError α}
    {next : α → Except EvaluationError β} {err : EvaluationError} (h : x.bind next = .error err) :
    x = .error err ∨ ∃ a, next a = .error err := by
  cases x with
  | error err' => exact .inl (by simpa [Except.bind] using h)
  | ok a => exact .inr ⟨a, h⟩

/-- There are as many values as trees. -/
theorem length_of_values {es : List Expr} {xs : List Float} (h : values r scope es = .ok xs) :
    xs.length = es.length := by
  induction es generalizing xs with
  | nil =>
    obtain rfl : [] = xs := Except.ok.inj h
    rfl
  | cons e es ih =>
    rw [values] at h
    obtain ⟨x, -, h⟩ := ok_of_bind h
    obtain ⟨ys, hys, h⟩ := ok_of_bind h
    obtain rfl : x :: ys = xs := Except.ok.inj h
    rw [List.length_cons, List.length_cons, ih hys]

/-- A value is checked before it is put on the stack. -/
theorem push_eq (symbol : String) (x : Float) (stack : List Float) :
    push symbol x stack = (checked symbol x).map (· :: stack) := by
  unfold push checked
  split <;> rfl

/-- What a step puts on the stack, and how the steps behind it go on. -/
theorem run_cons {step : Step} {before stack : List Float} {x : Except EvaluationError Float}
    (h : runStep r scope before step = x.map (· :: stack)) (steps : List Step) :
    run r scope before (step :: steps) = x.bind fun x => run r scope (x :: stack) steps := by
  rw [run, h]
  cases x <;> rfl

/-- The step of a number puts its value on the stack. -/
theorem runStep_number (text : String) (stack : List Float) :
    runStep r scope stack (.number text) =
      ((number text).value r scope).map (· :: stack) := by
  rw [runStep, value]
  cases Decimal.readNumeral? text <;> rfl

/-- The step of a reference puts its value on the stack. -/
theorem runStep_reference (name : String) (stack : List Float) :
    runStep r scope stack (.reference name) =
      ((reference name).value r scope).map (· :: stack) := by
  rw [runStep, value]
  cases scope.get? name with
  | none => rfl
  | some v =>
    dsimp only [Option.getD_some]
    cases v.coerce <;> rfl

/-- The step of a constant puts its value on the stack. -/
theorem runStep_constant (name : String) (stack : List Float) :
    runStep r scope stack (.constant name) =
      ((constant name).value r scope).map (· :: stack) := by
  rw [runStep, value, push_eq]

/-- The step of a sign replaces the top by what the sign makes of it. -/
theorem runStep_prefixed (symbol : String) (a : Float) (stack : List Float) :
    runStep r scope (a :: stack) (.prefixed symbol) =
      (checked symbol ((r.prefix? symbol).elim Binary64.nan (·.compute a))).map (· :: stack) := by
  rw [runStep, ← push_eq]
  cases r.prefix? symbol <;> rfl

/-- The step of an operator replaces two values by what it makes of them. -/
theorem runStep_operator (symbol : String) (a b : Float) (stack : List Float) :
    runStep r scope (b :: a :: stack) (.operator symbol) =
      (checked symbol ((r.operator? symbol).elim Binary64.nan (·.compute a b))).map
        (· :: stack) := by
  rw [runStep, ← push_eq]
  cases r.operator? symbol <;> rfl

/-- A call takes as many values as its function is computed from, in the order in which they were
put there. -/
theorem runStep_call_of_le {name : String} {rule : FunctionRule}
    (hrule : r.function? name = some rule) {stack : List Float}
    (hle : rule.arity.least ≤ stack.length) :
    runStep r scope stack (.call name) =
      (checked name (rule.compute (stack.take rule.arity.least.toNat).reverse)).map
        (· :: stack.drop rule.arity.least.toNat) := by
  have henough : ¬ (stack.length : Int) < rule.arity.least := by omega
  rw [runStep, hrule]
  dsimp only
  rw [if_neg henough, push_eq]

/-- A call takes its arguments off the stack. -/
theorem runStep_call {name : String} {rule : FunctionRule} (hrule : r.function? name = some rule)
    {xs : List Float} (hcount : (xs.length : Int) = rule.arity.least) (stack : List Float) :
    runStep r scope (xs.reverse ++ stack) (.call name) =
      (checked name (rule.compute xs)).map (· :: stack) := by
  have hnat : rule.arity.least.toNat = xs.reverse.length := by
    rw [← hcount, List.length_reverse, Int.toNat_natCast]
  have hle : rule.arity.least ≤ ((xs.reverse ++ stack).length : Int) := by
    rw [← hcount, List.length_append, List.length_reverse]
    omega
  rw [runStep_call_of_le hrule hle, hnat, List.take_left, List.drop_left, List.reverse_reverse]

mutual

/-- The steps of a tree put its value on the stack. -/
theorem run_postorder (stack : List Float) (steps : List Step) : (e : Expr) →
    e.callsFull r = true → run r scope stack (e.postorder ++ steps) =
      (e.value r scope).bind fun x => run r scope (x :: stack) steps
  | number text, _ => run_cons (runStep_number text stack) steps
  | reference name, _ => run_cons (runStep_reference name stack) steps
  | constant name, _ => run_cons (runStep_constant name stack) steps
  | prefixed symbol operand, h => by
    rw [callsFull] at h
    rw [postorder, List.append_assoc, run_postorder _ _ operand h, value]
    cases operand.value r scope with
    | error e => rfl
    | ok a => exact run_cons (runStep_prefixed symbol a stack) steps
  | binary symbol left right, h => by
    rw [callsFull, Bool.and_eq_true] at h
    rw [postorder, List.append_assoc, List.append_assoc, run_postorder _ _ left h.1, value]
    cases left.value r scope with
    | error e => rfl
    | ok a =>
      refine (run_postorder (a :: stack) _ right h.2).trans ?_
      cases right.value r scope with
      | error e => rfl
      | ok b => exact run_cons (runStep_operator symbol a b stack) steps
  | group inner, h => by
    rw [callsFull] at h
    rw [postorder, run_postorder _ _ inner h, value]
  | call name args, h => by
    rw [callsFull, Bool.and_eq_true] at h
    rw [postorder, List.append_assoc, run_postorderOfAll _ _ args h.2, value]
    cases hvalues : values r scope args with
    | error e => rfl
    | ok xs =>
      simp only [bind, Except.bind]
      cases hrule : r.function? name with
      | none =>
        rw [List.singleton_append, run, runStep, hrule]
      | some rule =>
        -- A full call has as many arguments as the function takes off the stack.
        have hcount : (args.length : Int) = rule.arity.least := by simpa [hrule] using h.1
        rw [← length_of_values hvalues] at hcount
        exact run_cons (runStep_call hrule hcount stack) steps

/-- The steps of a list of trees put their values on the stack, the last one on top. -/
theorem run_postorderOfAll (stack : List Float) (steps : List Step) : (es : List Expr) →
    allCallsFull r es = true → run r scope stack (postorderOfAll es ++ steps) =
      (values r scope es).bind fun xs => run r scope (xs.reverse ++ stack) steps
  | [], _ => rfl
  | e :: es, h => by
    rw [allCallsFull, Bool.and_eq_true] at h
    rw [postorderOfAll, List.append_assoc, run_postorder _ _ e h.1, values]
    cases e.value r scope with
    | error err => rfl
    | ok x =>
      refine (run_postorderOfAll (x :: stack) steps es h.2).trans ?_
      cases values r scope es with
      | error err => rfl
      | ok xs => simp [bind, Except.bind, pure, Except.pure]

end

end

/-! ### What keeps a tree from having a value -/

section

variable {r : Registry} {scope : Scope}

/-- What only an operation outside its domain or a call of a name that is no function raises. -/
def Partial (f : Fault) : Prop :=
  (∃ symbol, f = .undefinedValue symbol) ∨ ∃ name, f = .unknownFunction name

/-- A check that fails is a fault of an operation outside its domain. -/
theorem partial_of_checked {symbol : String} {x : Float} {f : Fault}
    (h : checked symbol x = .error (.fault f)) : Partial f := by
  unfold checked at h
  split at h
  · obtain rfl : Fault.undefinedValue symbol = f := by simpa using h
    exact .inl ⟨symbol, rfl⟩
  · cases h

mutual

/-- No fault of a tree is about the operands of a part. -/
theorem partial_of_value {f : Fault} : (e : Expr) → e.value r scope = .error (.fault f) → Partial f
  | number text, h => by
    rw [value] at h
    split at h <;> cases h
  | reference name, h => by
    rw [value] at h
    split at h
    · next v _ => cases hv : v.coerce <;> simp [hv, Except.mapError] at h
    · cases h
  | constant name, h => partial_of_checked h
  | prefixed symbol operand, h => by
    rw [value] at h
    rcases error_of_bind h with h | ⟨a, h⟩
    · exact partial_of_value operand h
    · exact partial_of_checked h
  | binary symbol left right, h => by
    rw [value] at h
    rcases error_of_bind h with h | ⟨a, h⟩
    · exact partial_of_value left h
    · rcases error_of_bind h with h | ⟨b, h⟩
      · exact partial_of_value right h
      · exact partial_of_checked h
  | group inner, h => by
    rw [value] at h
    exact partial_of_value inner h
  | call name args, h => by
    rw [value] at h
    rcases error_of_bind h with h | ⟨xs, h⟩
    · exact partial_of_values args h
    · split at h
      · exact partial_of_checked h
      · obtain rfl : Fault.unknownFunction name = f := by simpa using h
        exact .inr ⟨name, rfl⟩

/-- A list of trees has no other faults. -/
theorem partial_of_values {f : Fault} :
    (es : List Expr) → values r scope es = .error (.fault f) → Partial f
  | [], h => by cases h
  | e :: es, h => by
    rw [values] at h
    rcases error_of_bind h with h | ⟨x, h⟩
    · exact partial_of_value e h
    · rcases error_of_bind h with h | ⟨xs, h⟩
      · exact partial_of_values es h
      · cases h

end

end

end Expr

/-! ### Evaluation -/

/-- Whether all values are finite numbers. -/
def Scope.IsFinite (scope : Scope) : Prop :=
  ∀ name v, scope.get? name = some v → ∃ x, v = .float x ∧ Binary64.isFinite x = true

/-- Whether a value is a finite number. -/
def Value.isFiniteFloat : Value → Bool
  | .float x => Binary64.isFinite x
  | _ => false

/-- A scope is finite if its entries are. -/
theorem Scope.isFinite_of_forall {scope : Scope}
    (h : ∀ entry ∈ scope.entries, entry.2.isFiniteFloat = true) : scope.IsFinite := by
  intro name v hv
  have hfinite := h (name, v) (Table.mem_of_lookup hv)
  unfold Value.isFiniteFloat at hfinite
  split at hfinite
  · next x hx => exact ⟨x, hx, hfinite⟩
  · cases hfinite

/-- In a finite scope every name has a number. -/
theorem Scope.IsFinite.coerce {scope : Scope} (h : scope.IsFinite) (name : String) :
    ∃ x, ((scope.get? name).getD .null).coerce = .ok x :=
  Scope.IsNumeric.coerce (fun name v hv => (h name v hv).imp fun _ hx => hx.1) name

namespace Registry

section

variable {r : Registry} {text : String} {e : Expr} (scope : Scope)

/-- No tokens are read as the number 0. -/
theorem value_of_parse_nil (h : Expr.parse .strict [] = .ok e) : e.value r scope = .ok 0 := by
  obtain rfl : Expr.number "0" = e := by simpa [Expr.parse] using h
  rw [Expr.value, show Decimal.readNumeral? "0" = some 0 by decide +kernel]

/-- The value of a text is what the steps of its tree leave on top of the stack. -/
theorem evaluateStrict_eq_run (hr : r.FollowsGrammar) (hne : r.tokens text ≠ [])
    (hparse : Expr.parse .strict (r.tokens text) = .ok e) :
    r.evaluateStrict (r.tokens text) scope =
      (Postfix.run r scope [] e.postorder).map fun stack => stack.headD 0 := by
  have horder : Postfix.order r (r.tokens text) = .ok e.postorder :=
    Expr.order_of_parse hr hne (Lexer.callsOpen_tokens _ text) hparse
  unfold evaluateStrict
  rw [horder]
  dsimp only
  cases Postfix.run r scope [] e.postorder with
  | error err => rfl
  | ok stack => cases stack <;> rfl

/-- The stack comes to the value of the tree, or to the fault of the first part without value. -/
theorem evaluateStrict_of_parse (hr : r.FollowsGrammar)
    (hparse : Expr.parse .strict (r.tokens text) = .ok e) (hcalls : e.callsFull r = true) :
    r.evaluateStrict (r.tokens text) scope = e.value r scope := by
  by_cases hne : r.tokens text = []
  · rw [hne] at hparse ⊢
    rw [value_of_parse_nil scope hparse]
    rfl
  · have hrun : Postfix.run r scope [] (e.postorder ++ []) = _ := Expr.run_postorder [] [] e hcalls
    rw [List.append_nil] at hrun
    rw [evaluateStrict_eq_run scope hr hne hparse, hrun]
    cases e.value r scope <;> rfl

/-- With numbers for the names, nothing in the tree of a text is refused as a number. -/
theorem value_ne_number (hr : r.FollowsGrammar)
    (hparse : Expr.parse .strict (r.tokens text) = .ok e) (hcalls : e.callsFull r = true)
    {scope : Scope} (hscope : scope.IsFinite) (err : NumberError) :
    e.value r scope ≠ .error (.number err) := by
  rw [← evaluateStrict_of_parse scope hr hparse hcalls]
  exact evaluateStrict_ne_number r text hscope.coerce err

end

/-- With the standard operators and functions, the stack comes to the value of the tree of a text,
if the text is an expression without repairs and its calls have as many arguments as their functions
are computed from. So what is wrong with it is an operation outside its domain or a call of a name
that is no function, at the first part that has no value. -/
theorem evaluateStrict_eq_value (text : String) (e : Expr) (scope : Scope)
    (hparse : Expr.parse .strict (standard.tokens text) = .ok e)
    (hcalls : e.callsFull standard = true) (hscope : scope.IsFinite) :
    standard.evaluateStrict (standard.tokens text) scope = e.value standard scope ∧
      ((∃ x, e.value standard scope = .ok x) ∨
        (∃ symbol, e.value standard scope = .error (.fault (.undefinedValue symbol))) ∨
          ∃ name, e.value standard scope = .error (.fault (.unknownFunction name))) := by
  refine ⟨evaluateStrict_of_parse scope standard_followsGrammar hparse hcalls, ?_⟩
  cases hresult : e.value standard scope with
  | ok x => exact .inl ⟨x, rfl⟩
  | error err =>
    cases err with
    | number err =>
      exact absurd hresult (value_ne_number standard_followsGrammar hparse hcalls hscope err)
    | fault f =>
      rcases Expr.partial_of_value e hresult with ⟨symbol, rfl⟩ | ⟨name, rfl⟩
      · exact .inr (.inl ⟨symbol, rfl⟩)
      · exact .inr (.inr ⟨name, rfl⟩)

/-- The tree of `sqrt(A * 4) - (B - 1) / 2`. -/
def rootTree : Expr :=
  .binary "-" (.call "sqrt" [.binary "*" (.reference "A") (.number "4")])
    (.binary "/" (.group (.binary "-" (.reference "B") (.number "1"))) (.number "2"))

/-- Numbers for the names in it. -/
def rootScope : Scope :=
  ⟨[("A", .float 4), ("B", .float 3)]⟩

/-- The stack takes the operands of both subtractions and of the quotient in order. -/
theorem evaluateStrict_rootTree :
    Expr.parse .strict (standard.tokens "sqrt(A * 4) - (B - 1) / 2") = .ok rootTree ∧
      rootTree.callsFull standard = true ∧ rootScope.IsFinite ∧
        standard.evaluateStrict (standard.tokens "sqrt(A * 4) - (B - 1) / 2") rootScope =
          .ok 3 := by
  have htokens : standard.tokens "sqrt(A * 4) - (B - 1) / 2" =
      [ ⟨.function, "sqrt"⟩, .openParen, ⟨.reference, "A"⟩, ⟨.operator, "*"⟩, ⟨.number, "4"⟩,
        .closeParen, ⟨.operator, "-"⟩, .openParen, ⟨.reference, "B"⟩, ⟨.operator, "-"⟩,
        ⟨.number, "1"⟩, .closeParen, ⟨.operator, "/"⟩, ⟨.number, "2"⟩ ] := by
    decide +kernel
  have hparse :
      Expr.parse .strict (standard.tokens "sqrt(A * 4) - (B - 1) / 2") = .ok rootTree := by
    rw [htokens]
    cbv
  have hcalls : rootTree.callsFull standard = true := by decide
  have hscope : rootScope.IsFinite := Scope.isFinite_of_forall (by decide +kernel)
  have hvalue : rootTree.value standard rootScope = .ok 3 := by decide +kernel
  exact ⟨hparse, hcalls, hscope,
    (evaluateStrict_eq_value _ _ _ hparse hcalls hscope).1.trans hvalue⟩

end Registry

end LiveSheet
