import LiveSheet.Proofs.RealCalculus

/-!
# Where a calculus departs from the stack

As long as a calculus of real numbers and the stack make the same number of all parts of an
expression, the stack has none of them outside its domain. So the stack can have as an error what is
a number in the calculus only where the two depart (`Expr.Departs`): in the corners of the
logarithm, where a product or a quotient is so near to 0 that the stack loses digits of it, and
where the platform and the calculus do not round a function in the same way. Only in the corners the
one has a number and the other none. Sums, differences, changes of sign, square roots and divisions
by 0 are none of these places, and neither are powers, logarithms and arcs outside their domains.
-/

namespace LiveSheet

open Binary64 Registry

section

variable {α : Type} {k : Calculus α} {val : α → ℝ} {log : ℝ → ℂ} {scope : Scope}

namespace Expr

/-! ### Parts that the two agree on -/

section

variable {r : Registry}

/-- Whether a calculus and the stack make the same number of an expression. -/
def ComesTo (k : Calculus α) (val : α → ℝ) (r : Registry) (scope : Scope) (e : Expr) (v : ℝ) :
    Prop :=
  (∃ w, k.convert r scope e = .ok w ∧ val w = v) ∧ ∃ x, e.value r scope = .ok x ∧ real? x = some v

/-- Whether a calculus and the stack make two different numbers of an expression. -/
def Differs (k : Calculus α) (val : α → ℝ) (r : Registry) (scope : Scope) (e : Expr) : Prop :=
  ∃ w x, k.convert r scope e = .ok w ∧ e.value r scope = .ok x ∧ real? x ≠ some (val w)

/-- The functions of which it is not known how they are rounded, besides the logarithm to a base. -/
def transcendental : List String :=
  ["pow", "ln", "sin", "cos", "tan", "asin", "acos", "atan"]

/-- The places where a calculus and the stack depart, though they make the same numbers of all
operands: in the corners of the logarithm there is no number on the stack, and elsewhere another
one. -/
inductive Departs (k : Calculus α) (val : α → ℝ) (log : ℝ → ℂ) (r : Registry) (scope : Scope) :
    Expr → Prop
  /-- Number or base of a logarithm are outside the domain, but there is a real quotient. -/
  | corner {left right : Expr} {a b : ℝ} (hleft : left.ComesTo k val r scope a)
      (hright : right.ComesTo k val r scope b) (h : LogCorner log a b) :
      Departs k val log r scope (.call "log" [left, right])
  /-- A product loses digits. -/
  | product {left right : Expr} {a b : ℝ} (hleft : left.ComesTo k val r scope a)
      (hright : right.ComesTo k val r scope b) (h : IsTiny (a * b)) :
      Departs k val log r scope (.binary "*" left right)
  /-- A quotient loses digits. -/
  | quotient {left right : Expr} {a b : ℝ} (hleft : left.ComesTo k val r scope a)
      (hright : right.ComesTo k val r scope b) (h : IsTiny (a / b)) :
      Departs k val log r scope (.binary "/" left right)
  /-- A power is rounded to another number. -/
  | power {left right : Expr} {a b : ℝ} (hleft : left.ComesTo k val r scope a)
      (hright : right.ComesTo k val r scope b)
      (h : (Expr.binary "^" left right).Differs k val r scope) :
      Departs k val log r scope (.binary "^" left right)
  /-- A logarithm in its domain is rounded to another number. -/
  | logarithm {left right : Expr} {a b : ℝ} (hleft : left.ComesTo k val r scope a)
      (hright : right.ComesTo k val r scope b) (hdomain : 0 < a ∧ 0 < b ∧ b ≠ 1)
      (h : (Expr.call "log" [left, right]).Differs k val r scope) :
      Departs k val log r scope (.call "log" [left, right])
  /-- The value of another function is rounded to another number. -/
  | function {name : String} {args : List Expr} (hname : name ∈ transcendental)
      (hargs : ∀ arg ∈ args, ∃ a, arg.ComesTo k val r scope a)
      (h : (Expr.call name args).Differs k val r scope) :
      Departs k val log r scope (.call name args)

/-- What the stack makes of an expression is checked to be a number, and it is. -/
theorem ComesTo.of_checked {e : Expr} {w : α} (hw : k.convert r scope e = .ok w) {x : Float}
    {symbol : String} (hvalue : e.value r scope = checked symbol x)
    (hx : real? x = some (val w)) : e.ComesTo k val r scope (val w) := by
  refine ⟨⟨w, hw, rfl⟩, x, ?_, hx⟩
  rw [hvalue, checked, isNaN_of_real? hx]
  rfl

/-- If it is a number at all, then it is the one of the calculus or another one. -/
theorem comesTo_or_differs {e : Expr} {w : α} (hw : k.convert r scope e = .ok w) {x : Float}
    {symbol : String} (hvalue : e.value r scope = checked symbol x) (hx : x.isNaN = false) :
    e.ComesTo k val r scope (val w) ∨ e.Differs k val r scope := by
  by_cases hreal : real? x = some (val w)
  · exact .inl (.of_checked hw hvalue hreal)
  · refine .inr ⟨w, x, hw, ?_, hreal⟩
    rw [hvalue, checked, hx]
    rfl

/-- The value on the stack, where that of the operands is known. -/
theorem value_binary {left right : Expr} {x y : Float} (symbol : String)
    (hx : left.value r scope = .ok x) (hy : right.value r scope = .ok y) :
    (binary symbol left right).value r scope =
      checked symbol ((r.operator? symbol).elim Binary64.nan (·.compute x y)) := by
  rw [value, hx, hy]
  rfl

/-- The same for a call, where the values of its arguments are known. -/
theorem value_call {name : String} {args : List Expr} {xs : List Float} {rule : FunctionRule}
    (hrule : r.function? name = some rule) (hxs : values r scope args = .ok xs) :
    (call name args).value r scope = checked name (rule.compute xs) := by
  simp only [value, hxs, hrule, bind, Except.bind]

/-- One argument has the list of its value. -/
theorem values_one {arg : Expr} {x : Float} (hx : arg.value r scope = .ok x) :
    values r scope [arg] = .ok [x] := by
  rw [values, hx]
  rfl

/-- Two arguments have the list of their values. -/
theorem values_two {left right : Expr} {x y : Float} (hx : left.value r scope = .ok x)
    (hy : right.value r scope = .ok y) : values r scope [left, right] = .ok [x, y] := by
  rw [values, hx, values, hy]
  rfl

end

/-! ### Operators and calls -/

section

variable {p : Platform}

/-- On every platform a minus sign changes the sign. -/
theorem value_negation {operand : Expr} {x : Float}
    (hx : operand.value (standardOn p) scope = .ok x) :
    (prefixed "-" operand).value (standardOn p) scope = checked "-" (-x) := by
  rw [value, hx]
  rfl

/-- An operator with the same operands comes to the same number, if it is no place to depart. -/
theorem comesTo_binary (hk : k.RoundsReals val log) (hp : p.HasValues) {symbol : String}
    {left right : Expr} {a b w : α} (hsymbol : symbol ∈ ["+", "-", "*", "/", "^"])
    (hw : k.convert (standardOn p) scope (binary symbol left right) = .ok w)
    (hoperator : k.operator symbol a b = .ok w)
    (hleft : left.ComesTo k val (standardOn p) scope (val a))
    (hright : right.ComesTo k val (standardOn p) scope (val b))
    (hnot : ¬ Departs k val log (standardOn p) scope (binary symbol left right)) :
    (binary symbol left right).ComesTo k val (standardOn p) scope (val w) := by
  obtain ⟨-, x, hx, hxa⟩ := id hleft
  obtain ⟨-, y, hy, hyb⟩ := id hright
  have hvalue := value_binary symbol hx hy
  simp only [List.mem_cons, List.not_mem_nil, or_false] at hsymbol
  rcases hsymbol with rfl | rfl | rfl | rfl | rfl
  · exact .of_checked hw hvalue (hk.real?_sum hxa hyb hoperator)
  · exact .of_checked hw hvalue (hk.real?_difference hxa hyb hoperator)
  · have htiny : ¬ IsTiny (val a * val b) := fun h => hnot (.product hleft hright h)
    exact .of_checked hw hvalue (hk.real?_product hxa hyb htiny hoperator)
  · have htiny : ¬ IsTiny (val a / val b) := fun h => hnot (.quotient hleft hright h)
    exact .of_checked hw hvalue (hk.real?_quotient hxa hyb htiny hoperator)
  · have hnumber : (p.pow x y).isNaN = false := hp.pow hxa hyb (hk.power hoperator)
    rcases comesTo_or_differs hw hvalue hnumber with hsame | hdiffers
    · exact hsame
    · exact absurd (.power hleft hright hdiffers) hnot

/-- A square root comes to the same number. -/
theorem comesTo_sqrt (hk : k.RoundsReals val log) {arg : Expr} {a w : α}
    (hw : k.convert (standardOn p) scope (call "sqrt" [arg]) = .ok w)
    (hfunction : k.function "sqrt" [a] = .ok w)
    (harg : arg.ComesTo k val (standardOn p) scope (val a)) :
    (call "sqrt" [arg]).ComesTo k val (standardOn p) scope (val w) := by
  obtain ⟨-, x, hx, hxa⟩ := harg
  have hrule : (standardOn p).function? "sqrt" = some (unary squareRoot Latex.rootRule) := rfl
  exact .of_checked hw (value_call hrule (values_one hx)) (hk.real?_squareRoot hxa hfunction)

/-- So does a logarithm, if it is no place to depart. -/
theorem comesTo_log (hk : k.RoundsReals val log) (hlog : IsLogarithm log) (hp : p.HasValues)
    {left right : Expr} {a b w : α}
    (hw : k.convert (standardOn p) scope (call "log" [left, right]) = .ok w)
    (hfunction : k.function "log" [a, b] = .ok w)
    (hleft : left.ComesTo k val (standardOn p) scope (val a))
    (hright : right.ComesTo k val (standardOn p) scope (val b))
    (hnot : ¬ Departs k val log (standardOn p) scope (call "log" [left, right])) :
    (call "log" [left, right]).ComesTo k val (standardOn p) scope (val w) := by
  by_cases hdomain : 0 < val a ∧ 0 < val b ∧ val b ≠ 1
  · obtain ⟨-, x, hx, hxa⟩ := id hleft
    obtain ⟨-, y, hy, hyb⟩ := id hright
    have hrule : (standardOn p).function? "log" =
        some (Registry.binary (Registry.logarithm p.log) Latex.logarithmRule) := rfl
    have hvalue := value_call hrule (values_two hx hy)
    rcases comesTo_or_differs hw hvalue (isNaN_logarithm hp hxa hyb hdomain) with hsame | hdiffers
    · exact hsame
    · exact absurd (.logarithm hleft hright hdomain hdiffers) hnot
  -- Outside the domain there is a quotient only in a corner.
  · have hquotient := ((hk.log a b hdomain).sound hfunction).1
    have hcorner := logCorner_of_isSome hlog hdomain (by rw [hquotient]; rfl)
    exact absurd (.corner hleft hright hcorner) hnot

/-- Another function with the same arguments comes to a number on the stack too. -/
theorem exists_number_of_transcendental (hk : k.RoundsReals val log) (hp : p.HasValues)
    {name : String} (hname : name ∈ transcendental) {args : List Expr} {as : List α} {w : α}
    (hcall : (standardOn p).checkCall name args.length = .ok ())
    (has : k.convertAll (standardOn p) scope args = .ok as) (hfunction : k.function name as = .ok w)
    (hargs : ∀ arg ∈ args, ∀ a, k.convert (standardOn p) scope arg = .ok a →
      arg.ComesTo k val (standardOn p) scope (val a)) :
    ∃ x, (call name args).value (standardOn p) scope = checked name x ∧ x.isNaN = false := by
  obtain ⟨-, rule, hrule, hcount⟩ := rule_of_checkCall hcall
  rcases List.mem_cons.1 hname with rfl | hunary
  · obtain rfl : Registry.binary p.pow Latex.powerRule = rule := Option.some.inj hrule
    obtain ⟨left, right, rfl⟩ := List.length_eq_two.1 (Int.ofNat_inj.1 hcount)
    obtain ⟨a, bs, ha, hbs, rfl⟩ := Calculus.of_convertAll_cons has
    obtain ⟨b, cs, hb, hnil, rfl⟩ := Calculus.of_convertAll_cons hbs
    obtain rfl : [] = cs := Except.ok.inj hnil
    obtain ⟨-, x, hx, hxa⟩ := hargs left (by simp) a ha
    obtain ⟨-, y, hy, hyb⟩ := hargs right (by simp) b hb
    have hnumber : (p.pow x y).isNaN = false := hp.pow hxa hyb (hk.pow hfunction)
    exact ⟨_, value_call hrule (values_two hx hy), hnumber⟩
  · obtain ⟨compute, latex, hunary, hnumber⟩ := exists_unary hk hp hunary
    obtain rfl : unary compute latex = rule := Option.some.inj (hunary.symm.trans hrule)
    obtain ⟨arg, rfl⟩ := List.length_eq_one_iff.1 (Int.ofNat_inj.1 hcount)
    obtain ⟨a, bs, ha, hnil, rfl⟩ := Calculus.of_convertAll_cons has
    obtain rfl : [] = bs := Except.ok.inj hnil
    obtain ⟨-, x, hx, hxa⟩ := hargs arg (by simp) a ha
    exact ⟨_, value_call hrule (values_one hx), hnumber hxa hfunction⟩

/-- A call with the same arguments comes to the same number, if it is no place to depart. -/
theorem comesTo_call (hk : k.RoundsReals val log) (hlog : IsLogarithm log) (hp : p.HasValues)
    {name : String} {args : List Expr} {w : α}
    (hw : k.convert (standardOn p) scope (call name args) = .ok w)
    (hargs : ∀ arg ∈ args, ∀ a, k.convert (standardOn p) scope arg = .ok a →
      arg.ComesTo k val (standardOn p) scope (val a))
    (hnot : ¬ Departs k val log (standardOn p) scope (call name args)) :
    (call name args).ComesTo k val (standardOn p) scope (val w) := by
  obtain ⟨hcall, as, has, hfunction⟩ := Calculus.of_convert_call hw
  obtain ⟨hname, rule, hrule, hcount⟩ := rule_of_checkCall hcall
  have hnames : ∀ name ∈ exactFunctions, name = "sqrt" ∨ name = "log" ∨ name ∈ transcendental := by
    decide
  rcases hnames name hname with rfl | rfl | htranscendental
  · obtain rfl : unary squareRoot Latex.rootRule = rule := Option.some.inj hrule
    obtain ⟨arg, rfl⟩ := List.length_eq_one_iff.1 (Int.ofNat_inj.1 hcount)
    obtain ⟨a, bs, ha, hnil, rfl⟩ := Calculus.of_convertAll_cons has
    obtain rfl : [] = bs := Except.ok.inj hnil
    exact comesTo_sqrt hk hw hfunction (hargs arg (by simp) a ha)
  · obtain rfl : Registry.binary (Registry.logarithm p.log) Latex.logarithmRule = rule :=
      Option.some.inj hrule
    obtain ⟨left, right, rfl⟩ := List.length_eq_two.1 (Int.ofNat_inj.1 hcount)
    obtain ⟨a, bs, ha, hbs, rfl⟩ := Calculus.of_convertAll_cons has
    obtain ⟨b, cs, hb, hnil, rfl⟩ := Calculus.of_convertAll_cons hbs
    obtain rfl : [] = cs := Except.ok.inj hnil
    have hleft := hargs left (by simp) a ha
    have hright := hargs right (by simp) b hb
    exact comesTo_log hk hlog hp hw hfunction hleft hright hnot
  · obtain ⟨x, hvalue, hnumber⟩ :=
      exists_number_of_transcendental hk hp htranscendental hcall has hfunction hargs
    rcases comesTo_or_differs hw hvalue hnumber with hsame | hdiffers
    · exact hsame
    · refine absurd (.function htranscendental (fun arg hmem => ?_) hdiffers) hnot
      obtain ⟨a, ha⟩ := Calculus.convert_of_mem_args has arg hmem
      exact ⟨val a, hargs arg hmem a ha⟩

mutual

/-- Without a place to depart, a calculus and the stack make the same number. -/
theorem comesTo_of_convert (hk : k.RoundsReals val log) (hlog : IsLogarithm log)
    (hp : p.HasValues) : (e : Expr) → (w : α) → k.convert (standardOn p) scope e = .ok w →
      (∀ part ∈ e.parts, ¬ Departs k val log (standardOn p) scope part) →
        e.ComesTo k val (standardOn p) scope (val w)
  | number text, w, hw, _ => by
    have hvalue := ((hk.number text).sound (by rwa [Calculus.convert] at hw)).1
    obtain ⟨x, hx, hreal⟩ := Option.bind_eq_some_iff.1 hvalue
    exact ⟨⟨w, hw, rfl⟩, x, by rw [value, hx], hreal⟩
  | reference name, w, hw, _ => by
    have hvalue := ((hk.reference _).sound (by rwa [Calculus.convert] at hw)).1
    obtain ⟨x, hx, hreal⟩ := Option.bind_eq_some_iff.1 hvalue
    refine ⟨⟨w, hw, rfl⟩, x, ?_, hreal⟩
    rw [value]
    cases hget : scope.get? name with
    | none =>
      rw [hget] at hx
      exact congrArg Except.ok (Option.some.inj hx)
    | some v =>
      rw [hget, Option.getD_some] at hx
      cases hv : v.coerce with
      | error e => simp [hv, Except.toOption] at hx
      | ok y =>
        rw [hv] at hx
        obtain rfl : y = x := Option.some.inj hx
        simp only [hv, Except.mapError]
  | constant name, w, hw, _ => by
    have hconstant := hw
    rw [Calculus.convert] at hconstant
    split at hconstant
    · next x hx =>
      have hvalue : (constant name).value (standardOn p) scope = checked name x := by
        rw [value, hx]
        rfl
      exact .of_checked hw hvalue ((hk.constant x).sound hconstant).1
    · cases hconstant
  | prefixed symbol operand, w, hw, hnone => by
    obtain ⟨rfl, a, ha, hnegation⟩ := Calculus.of_convert_prefixed hw
    obtain ⟨-, x, hx, hxa⟩ := comesTo_of_convert hk hlog hp operand a ha
      fun part hmem => hnone part (parts_subset_prefixed _ operand hmem)
    exact .of_checked hw (value_negation hx) (hk.real?_negation hxa hnegation)
  | binary symbol left right, w, hw, hnone => by
    obtain ⟨hsymbol, a, b, ha, hb, hoperator⟩ := Calculus.of_convert_binary hw
    have hleft := comesTo_of_convert hk hlog hp left a ha
      fun part hmem => hnone part (parts_subset_left symbol left right hmem)
    have hright := comesTo_of_convert hk hlog hp right b hb
      fun part hmem => hnone part (parts_subset_right symbol left right hmem)
    exact comesTo_binary hk hp hsymbol hw hoperator hleft hright (hnone _ (mem_parts _))
  | group inner, w, hw, hnone => by
    have hinner : k.convert (standardOn p) scope inner = .ok w := by rwa [Calculus.convert] at hw
    obtain ⟨-, x, hx, hreal⟩ := comesTo_of_convert hk hlog hp inner w hinner
      fun part hmem => hnone part (List.mem_cons_of_mem _ hmem)
    exact ⟨⟨w, hw, rfl⟩, x, by rwa [value], hreal⟩
  | call name args, w, hw, hnone => by
    have hargs := comesTo_of_args hk hlog hp args
      fun part hmem => hnone part (parts_subset_call name args hmem)
    exact comesTo_call hk hlog hp hw hargs (hnone _ (mem_parts _))

/-- The same for each of several arguments. -/
theorem comesTo_of_args (hk : k.RoundsReals val log) (hlog : IsLogarithm log) (hp : p.HasValues) :
    (es : List Expr) → (∀ part ∈ partsOfAll es, ¬ Departs k val log (standardOn p) scope part) →
      ∀ arg ∈ es, ∀ a, k.convert (standardOn p) scope arg = .ok a →
        arg.ComesTo k val (standardOn p) scope (val a)
  | [], _ => by simp
  | e :: es, hnone => by
    refine List.forall_mem_cons.2 ⟨fun a ha => ?_, ?_⟩
    · exact comesTo_of_convert hk hlog hp e a ha
        fun part hmem => hnone part (List.mem_append_left _ hmem)
    · exact comesTo_of_args hk hlog hp es
        fun part hmem => hnone part (List.mem_append_right _ hmem)

end

/-- So if the stack has an expression outside its domain, the two depart from each other in it. -/
theorem OnlyConverted.departs (hk : k.RoundsReals val log) (hlog : IsLogarithm log)
    (hp : p.HasValues) {e : Expr} (h : e.OnlyConverted k (standardOn p) scope) :
    ∃ part ∈ e.parts, part.Departs k val log (standardOn p) scope := by
  obtain ⟨⟨w, hw⟩, houtside⟩ := h
  by_contra hnone
  push Not at hnone
  obtain ⟨-, x, hx, -⟩ := comesTo_of_convert hk hlog hp e w hw hnone
  exact houtside.value_ne_ok x hx

/-- In a corner of the logarithm they always do. -/
theorem onlyConverted_of_corner (hk : k.RoundsReals val log) (hlog : IsLogarithm log)
    {left right : Expr} {a b : ℝ} (hleft : left.ComesTo k val (standardOn p) scope a)
    (hright : right.ComesTo k val (standardOn p) scope b) (hcorner : LogCorner log a b) :
    (call "log" [left, right]).OnlyConverted k (standardOn p) scope := by
  obtain ⟨⟨u, hu, hua⟩, x, hx, -⟩ := hleft
  obtain ⟨⟨v, hv, hvb⟩, y, hy, hyb⟩ := hright
  have hbase := hcorner.base_nonpos
  have hdomain : ¬ (0 < a ∧ 0 < b ∧ b ≠ 1) := fun h => absurd h.2.1 (not_lt.2 hbase)
  constructor
  · obtain ⟨c, hc, hle⟩ : ∃ c, logQuotient? log a b = some c ∧ |c| ≤ greatest := by
      rcases hcorner.logQuotient? hlog with hzero | hone
      · exact ⟨0, hzero, abs_zero.trans_le (zero_le_two.trans two_le_greatest)⟩
      · exact ⟨1, hone, abs_one.trans_le (one_le_two.trans two_le_greatest)⟩
    rw [← hua, ← hvb] at hc hdomain
    obtain ⟨w, hw⟩ := (hk.log u v hdomain).complete hc hle
    refine ⟨w, ?_⟩
    rw [Calculus.convert, Calculus.convertAll, hu, Calculus.convertAll, hv]
    exact hw
  · have hnot : ¬ 0 < y := fun hpos => absurd ((zero_lt_iff hyb).1 hpos) (not_lt.2 hbase)
    have hnan : (Registry.logarithm p.log x y).isNaN = true := by
      rw [Registry.logarithm, if_neg (by simp [hnot])]
      decide
    exact ⟨[x, y], _, values_two hx hy, rfl, hnan⟩

end

end Expr

end

namespace Registry

/-- On every platform, for every calculus that rounds real numbers, for every text and every scope:
an error with the calculus in front of the stack is one on the stack. A number of the calculus
stands against an error of the stack if and only if some part of the text has a value in the
calculus though the stack has it outside its domain. In every such part there is a place where the
two depart from each other, though they make the same numbers of its operands; and a corner of the
logarithm always is such a part. -/
theorem answersError_iff_of_roundsReals {α : Type} (k : Calculus α) (val : α → ℝ) (log : ℝ → ℂ)
    (p : Platform) (hlog : IsLogarithm log) (hk : k.RoundsReals val log) (hp : p.HasValues)
    (text : String) (scope : Scope) :
    (k.evaluateInLine (standardOn p) (Evaluator.line true) (.text text) scope =
          .ok (.failed .error) →
        (standardOn p).evaluate ((standardOn p).tokens text) scope = .ok (.failed .error)) ∧
      (AnswersError k (standardOn p) text scope ↔
        ∃ e w x, (standardOn p).readTree text = .ok e ∧ k.convert (standardOn p) scope e = .ok w ∧
          k.result w = .ok x ∧ ∃ part ∈ e.parts, part.OnlyConverted k (standardOn p) scope) ∧
      (∀ e : Expr, e.OnlyConverted k (standardOn p) scope →
        ∃ part ∈ e.parts, part.Departs k val log (standardOn p) scope) ∧
      ∀ (left right : Expr) (a b : ℝ), left.ComesTo k val (standardOn p) scope a →
        right.ComesTo k val (standardOn p) scope b → LogCorner log a b →
          (Expr.call "log" [left, right]).OnlyConverted k (standardOn p) scope := by
  obtain ⟨herror, hanswers⟩ :=
    answersError_iff k hk.readsInputs (standardOn_followsGrammar p) text scope
  refine ⟨herror, hanswers, fun e he => he.departs hk hlog hp, ?_⟩
  intro left right a b hleft hright hcorner
  exact Expr.onlyConverted_of_corner hk hlog hleft hright hcorner

end Registry

/-! ### A negative number to its own base -/

/-- The number 2 stands for 2. -/
theorem real?_two : real? 2 = some 2 := by
  have hdecode : decode 2 = .finite false (2 ^ 52) (-51) := by decide +kernel
  rw [real?, hdecode]
  norm_num

namespace Expr

/-- The tree of `-2`. -/
def negativeTwo : Expr :=
  .prefixed "-" (.number "2")

/-- Among the real numbers it comes to -2. -/
theorem convert_negativeTwo (r : Registry) :
    Calculus.reals.convert r .empty negativeTwo = .ok (-2) := by
  have hrange : |(2 : ℝ)| ≤ greatest := abs_two.trans_le two_le_greatest
  have hnumeral : Decimal.readNumeral? "2" = some 2 := by decide +kernel
  have hnumber : Calculus.reals.number "2" = .ok 2 := by
    show Calculus.inRange? ((Decimal.readNumeral? "2").bind real?) = .ok 2
    rw [hnumeral, Option.bind_some, real?_two]
    exact if_pos hrange
  rw [negativeTwo, Calculus.convert, Calculus.convert, hnumber]
  exact if_pos ((abs_neg (2 : ℝ)).trans_le hrange)

/-- And so it does on the stack. -/
theorem comesTo_negativeTwo (p : Platform) :
    negativeTwo.ComesTo Calculus.reals id (standardOn p) .empty (-2) := by
  have hnumeral : Decimal.readNumeral? "2" = some 2 := by decide +kernel
  have htwo : (number "2").value (standardOn p) .empty = .ok 2 := by rw [value, hnumeral]
  have hvalue : negativeTwo.value (standardOn p) .empty = checked "-" (-2) := value_negation htwo
  have hreal : real? (-2) = some (-2) := real?_neg real?_two (abs_two.trans_le two_le_greatest)
  exact .of_checked (convert_negativeTwo _) hvalue hreal

end Expr

namespace Registry

/-- The reading of the text with that number and that base. -/
theorem readTree_logNegative : standard.readTree "log(-2,-2)" =
    .ok (.call "log" [Expr.negativeTwo, Expr.negativeTwo]) := by
  have htokens : standard.tokens "log(-2,-2)" =
      [ ⟨.function, "log"⟩, .openParen, ⟨.operator, "-"⟩, ⟨.number, "2"⟩, ⟨.comma, ","⟩,
        ⟨.operator, "-"⟩, ⟨.number, "2"⟩, .closeParen ] := by
    decide +kernel
  rw [readTree_ok_iff, htokens]
  refine ⟨by decide +kernel, by decide, ?_⟩
  cbv

/-- The number is its own base, so the quotient is 1 and no logarithm. -/
theorem number_of_log_negative :
    (∃ x, Calculus.reals.evaluateInLine standard (Evaluator.line true) (.text "log(-2,-2)") .empty =
        .ok (.number x) ∧ real? x = some 1) ∧
      standard.evaluate (standard.tokens "log(-2,-2)") .empty = .ok (.failed .error) := by
  have hneg : (-2 : ℝ) < 0 := by norm_num
  have hfunction : Calculus.reals.function "log" [-2, -2] = .ok 1 := by
    have hquotient : Calculus.realFunction? "log" [-2, -2] = some 1 :=
      (if_neg fun h => absurd h.1 hneg.not_gt).trans
        (logQuotient?_of_eq isLogarithm_log hneg hneg rfl)
    show Calculus.inRange? (Calculus.realFunction? "log" [-2, -2]) = .ok 1
    rw [hquotient]
    exact if_pos (abs_one.trans_le (one_le_two.trans two_le_greatest))
  have hconvert : Calculus.reals.convert standard .empty
      (.call "log" [Expr.negativeTwo, Expr.negativeTwo]) = .ok 1 := by
    rw [Calculus.convert, Calculus.convertAll, Calculus.convertAll, Calculus.convertAll,
      Expr.convert_negativeTwo]
    exact hfunction
  have hround : real? 1 = some (roundBinary64 1) := by
    rw [(holds_unpack real?_one).rounded, real?_one]
  constructor
  · have hexists : ∃ x, real? x = some (roundBinary64 1) := ⟨1, hround⟩
    refine ⟨hexists.choose, ?_, ?_⟩
    · apply Calculus.evaluateInLine_of_ok
      exact Calculus.evaluateSourceExact_ok_iff.2
        ⟨_, 1, readTree_logNegative, hconvert, dif_pos hexists⟩
    · rw [hexists.choose_spec, ← hround, real?_one]
  · have hstack : standard.evaluateStrict (standard.tokens "log(-2,-2)") .empty =
        .error (.fault (.undefinedValue "log")) := by
      decide +kernel
    rw [evaluate, hstack]

/-- A platform of constants, which is enough where no function has operands in its domain. -/
def Platform.constant : Platform where
  pow _ _ := 1
  log x := if x == 1 then 0 else 1
  sin _ := 0
  cos _ := 0
  tan _ := 0
  asin _ := 0
  acos _ := 0
  atan _ := 0

/-- Its functions have values everywhere. -/
theorem Platform.hasValues_constant : Platform.constant.HasValues where
  pow _ _ _ := isNaN_of_real? real?_one
  log {x a} hx _ := by
    by_cases hone : (x == 1) = true
    · exact ⟨0, (congrArg real? (if_pos hone)).trans real?_zero,
        fun _ => eq_of_beq_of_real? hx real?_one hone⟩
    · exact ⟨1, (congrArg real? (if_neg hone)).trans real?_one, fun h => absurd h one_ne_zero⟩
  sin _ := isNaN_of_real? real?_zero
  cos _ := isNaN_of_real? real?_zero
  tan _ := isNaN_of_real? real?_zero
  asin _ _ := isNaN_of_real? real?_zero
  acos _ _ := isNaN_of_real? real?_zero
  atan _ := isNaN_of_real? real?_zero

/-- The number to its own base is such a part, with a place to depart. -/
theorem answersError_iff_log_negative :
    Calculus.reals.RoundsReals id (fun x => Complex.log x) ∧ Platform.constant.HasValues ∧
      (Expr.call "log" [Expr.negativeTwo, Expr.negativeTwo]).OnlyConverted Calculus.reals
        (standardOn .constant) .empty ∧
      ∃ part ∈ (Expr.call "log" [Expr.negativeTwo, Expr.negativeTwo]).parts,
        part.Departs Calculus.reals id (fun x => Complex.log x) (standardOn .constant) .empty := by
  obtain ⟨-, -, hdeparts, hcorner⟩ := answersError_iff_of_roundsReals Calculus.reals id
    (fun x => Complex.log x) .constant isLogarithm_log Calculus.roundsReals_reals
    Platform.hasValues_constant "log(-2,-2)" .empty
  have hneg : (-2 : ℝ) < 0 := by norm_num
  have honly := hcorner _ _ _ _ (Expr.comesTo_negativeTwo _) (Expr.comesTo_negativeTwo _)
    (.same hneg hneg rfl)
  exact ⟨Calculus.roundsReals_reals, Platform.hasValues_constant, honly, hdeparts _ honly⟩

end Registry

end LiveSheet
