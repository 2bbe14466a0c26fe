import LiveSheet.Proofs.Domains
import LiveSheet.Proofs.Logarithms
import LiveSheet.Proofs.RealValues

/-!
# Calculi of real numbers

A calculus whose numbers stand for real numbers computes sums, differences, products, quotients and
square roots as those of the real numbers, rounded to 53 binary digits, and logarithms as quotients
of complex ones (`Calculus.RoundsReals`). With the same operands each operation of the stack comes
to the same number as that of the calculus, unless the number is so near to 0 that the stack loses
digits of it. The functions of the platform have values in their domains (`Platform.HasValues`),
though they may be rounded in another way.
-/

namespace LiveSheet

open Binary64 Registry

/-- Whether an outcome is the real number that is given, and fails without one and out of range. -/
structure Calculus.Yields {α : Type} (val : α → ℝ) (outcome : Except Refusal α) (x? : Option ℝ) :
    Prop where
  sound : ∀ {w}, outcome = .ok w → x? = some (val w) ∧ |val w| ≤ greatest
  complete : ∀ {x}, x? = some x → |x| ≤ greatest → ∃ w, outcome = .ok w

/-- Whether a power is a finite real number. -/
def HasPower (a b : ℝ) : Prop :=
  0 < a ∨ a = 0 ∧ 0 ≤ b ∨ a < 0 ∧ ∃ n : ℤ, b = n

/-- Whether the numbers of a calculus are real numbers with which it computes in 53 binary digits
and with unbounded exponents. A part without a finite real value fails, and so does one out of
range. How powers, logarithms in their domain and the functions of angles are rounded is not
said. -/
structure Calculus.RoundsReals {α : Type} (k : Calculus α) (val : α → ℝ) (log : ℝ → ℂ) : Prop where
  number : ∀ text, Yields val (k.number text) ((Decimal.readNumeral? text).bind real?)
  reference : ∀ v, Yields val (k.reference v) (v.coerce.toOption.bind real?)
  constant : ∀ x, Yields val (k.constant x) (real? x)
  negation : ∀ a, Yields val (k.negation a) (some (-val a))
  add : ∀ a b, Yields val (k.operator "+" a b) (some (round53 (val a + val b)))
  sub : ∀ a b, Yields val (k.operator "-" a b) (some (round53 (val a - val b)))
  mul : ∀ a b, Yields val (k.operator "*" a b) (some (round53 (val a * val b)))
  div : ∀ a b, Yields val (k.operator "/" a b)
    (if val b = 0 then none else some (round53 (val a / val b)))
  sqrt : ∀ a, Yields val (k.function "sqrt" [a])
    (if val a < 0 then none else some (round53 √(val a)))
  log : ∀ a b, ¬ (0 < val a ∧ 0 < val b ∧ val b ≠ 1) →
    Yields val (k.function "log" [a, b]) (logQuotient? log (val a) (val b))
  power : ∀ {a b w}, k.operator "^" a b = .ok w → HasPower (val a) (val b)
  pow : ∀ {a b w}, k.function "pow" [a, b] = .ok w → HasPower (val a) (val b)
  ln : ∀ {a w}, k.function "ln" [a] = .ok w → 0 < val a
  asin : ∀ {a w}, k.function "asin" [a] = .ok w → |val a| ≤ 1
  acos : ∀ {a w}, k.function "acos" [a] = .ok w → |val a| ≤ 1

/-- Whether the functions of a platform have values wherever they have finite real ones, and its
logarithm has finite ones that are 0 only for the number 1. -/
structure Registry.Platform.HasValues (p : Platform) : Prop where
  pow : ∀ {x y a b}, real? x = some a → real? y = some b → HasPower a b → (p.pow x y).isNaN = false
  log : ∀ {x a}, real? x = some a → 0 < a → ∃ l, real? (p.log x) = some l ∧ (l = 0 → a = 1)
  sin : ∀ {x a}, real? x = some a → (p.sin x).isNaN = false
  cos : ∀ {x a}, real? x = some a → (p.cos x).isNaN = false
  tan : ∀ {x a}, real? x = some a → (p.tan x).isNaN = false
  asin : ∀ {x a}, real? x = some a → |a| ≤ 1 → (p.asin x).isNaN = false
  acos : ∀ {x a}, real? x = some a → |a| ≤ 1 → (p.acos x).isNaN = false
  atan : ∀ {x a}, real? x = some a → (p.atan x).isNaN = false

section

variable {α : Type} {k : Calculus α} {val : α → ℝ} {log : ℝ → ℂ} {scope : Scope}

namespace Calculus

/-- Such a calculus takes only what the stack can read. -/
theorem RoundsReals.readsInputs (hk : k.RoundsReals val log) : k.ReadsInputs where
  number {text w} hw := by
    obtain ⟨x, hx, -⟩ := Option.bind_eq_some_iff.1 ((hk.number text).sound hw).1
    exact ⟨x, hx⟩
  reference {v w} hw := by
    obtain ⟨x, hx, -⟩ := Option.bind_eq_some_iff.1 ((hk.reference v).sound hw).1
    cases hv : v.coerce with
    | error e => simp [hv, Except.toOption] at hx
    | ok y => exact ⟨y, rfl⟩

namespace RoundsReals

/-! ### One operation -/

section

variable {a b w : α} {x y : Float}

/-- Negation of floats is negation of what they stand for. -/
theorem real?_negation (hk : k.RoundsReals val log) (hx : real? x = some (val a))
    (hw : k.negation a = .ok w) : real? (-x) = some (val w) := by
  obtain ⟨hvalue, hrange⟩ := (hk.negation a).sound hw
  rw [← Option.some.inj hvalue, abs_neg] at hrange
  rw [real?_neg hx hrange, hvalue]

/-- Addition of floats that stand for values. -/
theorem real?_sum (hk : k.RoundsReals val log) (hx : real? x = some (val a))
    (hy : real? y = some (val b)) (hw : k.operator "+" a b = .ok w) :
    real? (x + y) = some (val w) := by
  obtain ⟨hvalue, hrange⟩ := (hk.add a b).sound hw
  rw [← Option.some.inj hvalue] at hrange
  rw [real?_add hx hy hrange, hvalue]

/-- Subtraction of floats that stand for values. -/
theorem real?_difference (hk : k.RoundsReals val log) (hx : real? x = some (val a))
    (hy : real? y = some (val b)) (hw : k.operator "-" a b = .ok w) :
    real? (x - y) = some (val w) := by
  obtain ⟨hvalue, hrange⟩ := (hk.sub a b).sound hw
  rw [← Option.some.inj hvalue] at hrange
  rw [real?_sub hx hy hrange, hvalue]

/-- Multiplication of floats that stand for values, unless the product is tiny. -/
theorem real?_product (hk : k.RoundsReals val log) (hx : real? x = some (val a))
    (hy : real? y = some (val b)) (htiny : ¬ IsTiny (val a * val b))
    (hw : k.operator "*" a b = .ok w) : real? (x * y) = some (val w) := by
  obtain ⟨hvalue, hrange⟩ := (hk.mul a b).sound hw
  rw [← Option.some.inj hvalue] at hrange
  rw [real?_mul hx hy htiny hrange, hvalue]

/-- There is a quotient only by what is not 0, here and there. -/
theorem real?_quotient (hk : k.RoundsReals val log) (hx : real? x = some (val a))
    (hy : real? y = some (val b)) (htiny : ¬ IsTiny (val a / val b))
    (hw : k.operator "/" a b = .ok w) : real? (quotient x y) = some (val w) := by
  obtain ⟨hvalue, hrange⟩ := (hk.div a b).sound hw
  split at hvalue
  · cases hvalue
  · next hb =>
    rw [← Option.some.inj hvalue] at hrange
    unfold quotient
    rw [if_neg (fun hzero => hb (eq_of_beq_of_real? hy real?_zero hzero)),
      real?_div hx hy hb htiny hrange, hvalue]

/-- And there is a square root only of what is not negative. -/
theorem real?_squareRoot (hk : k.RoundsReals val log) (hx : real? x = some (val a))
    (hw : k.function "sqrt" [a] = .ok w) : real? (squareRoot x) = some (val w) := by
  obtain ⟨hvalue, hrange⟩ := (hk.sqrt a).sound hw
  split at hvalue
  · cases hvalue
  · next ha =>
    rw [← Option.some.inj hvalue] at hrange
    unfold squareRoot
    rw [if_neg (fun hneg => ha ((lt_zero_iff hx).1 hneg)),
      real?_sqrt hx (not_lt.1 ha) hrange, hvalue]

end

end RoundsReals

end Calculus

/-! ### Functions of the platform -/

section

variable {p : Platform}

/-- A function of one argument has a value wherever it comes to something in the calculus. -/
theorem exists_unary (hk : k.RoundsReals val log) (hp : p.HasValues) {name : String}
    (hname : name ∈ ["ln", "sin", "cos", "tan", "asin", "acos", "atan"]) :
    ∃ compute latex, (standardOn p).function? name = some (unary compute latex) ∧
      ∀ {a w : α} {x : Float}, real? x = some (val a) → k.function name [a] = .ok w →
        (compute x).isNaN = false := by
  simp only [List.mem_cons, List.not_mem_nil, or_false] at hname
  rcases hname with rfl | rfl | rfl | rfl | rfl | rfl | rfl
  · refine ⟨_, _, rfl, fun hx hw => ?_⟩
    have hpos := hk.ln hw
    obtain ⟨l, hl, -⟩ := hp.log hx hpos
    rw [naturalLogarithm, if_neg (fun hle => not_le.2 hpos ((le_zero_iff hx).1 hle))]
    exact isNaN_of_real? hl
  · exact ⟨_, _, rfl, fun hx _ => hp.sin hx⟩
  · exact ⟨_, _, rfl, fun hx _ => hp.cos hx⟩
  · exact ⟨_, _, rfl, fun hx _ => hp.tan hx⟩
  · exact ⟨_, _, rfl, fun hx hw => hp.asin hx (hk.asin hw)⟩
  · exact ⟨_, _, rfl, fun hx hw => hp.acos hx (hk.acos hw)⟩
  · exact ⟨_, _, rfl, fun hx _ => hp.atan hx⟩

/-- In its domain the logarithm to a base has a value. -/
theorem isNaN_logarithm (hp : p.HasValues) {x y : Float} {a b : ℝ} (hx : real? x = some a)
    (hy : real? y = some b) (hdomain : 0 < a ∧ 0 < b ∧ b ≠ 1) :
    (logarithm p.log x y).isNaN = false := by
  obtain ⟨ha, hb, hne⟩ := hdomain
  obtain ⟨l, hl, -⟩ := hp.log hx ha
  obtain ⟨l', hl', hone⟩ := hp.log hy hb
  have hbase : (y == 1) = false :=
    Bool.eq_false_iff.2 fun hbeq => hne (eq_of_beq_of_real? hy real?_one hbeq)
  have hguard : (0 < x && 0 < y && y != 1) = true := by
    simp [(zero_lt_iff hx).2 ha, (zero_lt_iff hy).2 hb, bne, hbase]
  rw [logarithm, if_pos hguard]
  exact isNaN_div_of_real? hl hl' fun hzero => hne (hone hzero)

end

end

/-! ### The real numbers themselves -/

namespace Calculus

open Classical in
/-- The number, if there is one and it is in range. -/
noncomputable def inRange? : Option ℝ → Except Refusal ℝ
  | some x => if |x| ≤ greatest then .ok x else .error .noValue
  | none => .error .noValue

/-- A real number is yielded where it is in range. -/
theorem yields_inRange? (x? : Option ℝ) : Yields id (inRange? x?) x? where
  sound {w} hw := by
    cases x? with
    | none => cases hw
    | some x =>
      simp only [inRange?] at hw
      split_ifs at hw with hle
      obtain rfl : x = w := Except.ok.inj hw
      exact ⟨rfl, hle⟩
  complete {x} hx hle := ⟨x, by rw [hx, inRange?, if_pos hle]⟩

/-- What is in range only under a condition comes with the condition. -/
theorem of_inRange?_ite {P : Prop} {_ : Decidable P} {x w : ℝ}
    (h : inRange? (if P then some x else none) = .ok w) : P := by
  by_contra hnot
  rw [if_neg hnot] at h
  cases h

open Classical in
/-- The power of a real number, where it is a finite real number, with 53 binary digits. -/
noncomputable def power? (x y : ℝ) : Option ℝ :=
  if HasPower x y then some (round53 (x ^ y)) else none

open Classical in
/-- The real value of an operator, with 53 binary digits. -/
noncomputable def realOperator? : String → ℝ → ℝ → Option ℝ
  | "+", x, y => some (round53 (x + y))
  | "-", x, y => some (round53 (x - y))
  | "*", x, y => some (round53 (x * y))
  | "/", x, y => if y = 0 then none else some (round53 (x / y))
  | "^", x, y => power? x y
  | _, _, _ => none

open Classical in
/-- The real value of a function, with 53 binary digits. -/
noncomputable def realFunction? : String → List ℝ → Option ℝ
  | "sqrt", [x] => if x < 0 then none else some (round53 √x)
  | "pow", [x, y] => power? x y
  | "log", [x, y] =>
    if 0 < x ∧ 0 < y ∧ y ≠ 1 then some (round53 (Real.log x / Real.log y))
    else logQuotient? (fun x => Complex.log x) x y
  | "ln", [x] => if 0 < x then some (round53 (Real.log x)) else none
  | "sin", [x] => some (round53 (Real.sin x))
  | "cos", [x] => some (round53 (Real.cos x))
  | "tan", [x] => some (round53 (Real.tan x))
  | "asin", [x] => if |x| ≤ 1 then some (round53 (Real.arcsin x)) else none
  | "acos", [x] => if |x| ≤ 1 then some (round53 (Real.arccos x)) else none
  | "atan", [x] => some (round53 (Real.arctan x))
  | _, _ => none

open Classical in
/-- Real numbers that are rounded to 53 binary digits wherever they are computed. -/
noncomputable def reals : Calculus ℝ where
  number text := inRange? ((Decimal.readNumeral? text).bind real?)
  reference v := inRange? (v.coerce.toOption.bind real?)
  constant x := inRange? (real? x)
  negation x := inRange? (some (-x))
  operator symbol x y := inRange? (realOperator? symbol x y)
  function name xs := inRange? (realFunction? name xs)
  result x := if h : ∃ y, real? y = some (roundBinary64 x) then .ok h.choose else .error .noValue

/-- The calculus of real numbers satisfies what is assumed of a symbolic one. -/
theorem roundsReals_reals : reals.RoundsReals id fun x => Complex.log x where
  number text := yields_inRange? _
  reference v := yields_inRange? _
  constant x := yields_inRange? _
  negation x := yields_inRange? (some (-x))
  add x y := yields_inRange? (some (round53 (x + y)))
  sub x y := yields_inRange? (some (round53 (x - y)))
  mul x y := yields_inRange? (some (round53 (x * y)))
  div x y := yields_inRange? (if y = 0 then none else some (round53 (x / y)))
  sqrt x := yields_inRange? (if x < 0 then none else some (round53 √x))
  log x y hdomain := by
    have hvalue : realFunction? "log" [x, y] = logQuotient? (fun x => Complex.log x) x y :=
      if_neg hdomain
    rw [show reals.function "log" [x, y] = inRange? (realFunction? "log" [x, y]) from rfl, hvalue]
    exact yields_inRange? _
  power h := of_inRange?_ite h
  pow h := of_inRange?_ite h
  ln h := of_inRange?_ite h
  asin h := of_inRange?_ite h
  acos h := of_inRange?_ite h

end Calculus

end LiveSheet
