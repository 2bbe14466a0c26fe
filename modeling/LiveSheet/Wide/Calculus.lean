import LiveSheet.Evaluation.Chain
import LiveSheet.Wide.Functions

/-!
# The calculus of wide numbers

Wide numbers neither overflow nor underflow on the way. Every part of an expression has to come to a
finite real number that is not above the greatest binary64 number; anything else is refused.

The logarithm to a base is the quotient of two complex logarithms, the parts of which are not
checked themselves. So it is 0 for base 0 and for the number 1 to a negative base, and 1 for a
negative number to its own base.
-/

namespace LiveSheet

namespace Wide

/-- The number, if it is in the binary64 range. -/
def checked (x : Wide) : Except Refusal Wide :=
  if x.inRange then .ok x else .error .noValue

/-- The number, if there is one and it is in range. -/
def checked? : Option Wide → Except Refusal Wide
  | some x => x.checked
  | none => .error .noValue

/-- The quotient of the complex logarithms of two numbers, where it is a real number: the logarithm
of a negative number has the imaginary part π, and that of 0 is infinite. -/
def logQuotient? (value base : Wide) : Option Wide :=
  if value.isZero then none
  else if base.isZero then some zero
  else
    let numerator := value.lnAbs
    let denominator := base.lnAbs
    match value.isNegative, base.isNegative with
    | false, false => numerator.div? denominator
    | true, true => if numerator = denominator then some one else none
    | false, true => if numerator.isZero then some zero else none
    | true, false => none

/-- The value of an operator of arithmetic. -/
def operator? (symbol : String) (x y : Wide) : Option Wide :=
  if symbol == "+" then some (x.add y)
  else if symbol == "-" then some (x.sub y)
  else if symbol == "*" then some (x.mul y)
  else if symbol == "/" then x.div? y
  else if symbol == "^" then x.pow? y
  else none

/-- The value of a function for its arguments. -/
def function? (name : String) : List Wide → Option Wide
  | [x] =>
    if name == "sqrt" then x.sqrt?
    else if name == "ln" then x.ln?
    else if name == "sin" then some x.sin
    else if name == "cos" then some x.cos
    else if name == "tan" then some x.tan
    else if name == "asin" then x.asin?
    else if name == "acos" then x.acos?
    else if name == "atan" then some x.atan
    else none
  | [x, y] =>
    if name == "pow" then x.pow? y
    else if name == "log" then logQuotient? x y
    else none
  | _ => none

/-- The number that a value in a scope counts as. -/
def ofValue (v : Value) : Except Refusal Wide :=
  match v.coerce with
  | .ok x => checked? (ofFloat? x)
  | .error _ => .error .noValue

/-- Wide numbers, each of which has to be in range. -/
def calculus : Calculus Wide where
  number text := checked? ((Decimal.readNumeral? text).bind ofFloat?)
  reference := ofValue
  constant x := checked? (ofFloat? x)
  negation x := x.neg.checked
  operator symbol x y := checked? (operator? symbol x y)
  function name xs := checked? (function? name xs)
  result x := .ok x.toFloat

end Wide

namespace Registry

/-- The value of what is evaluated in wide numbers. -/
def evaluateSourceExact (r : Registry) (source : Source) (scope : Scope) : Except Refusal Float :=
  Wide.calculus.evaluateSourceExact r source scope

/-- The result of the first evaluator of a line that does not refuse, with wide numbers for
trees. -/
def evaluateInLine (r : Registry) (line : List Evaluator) (source : Source) (scope : Scope) :
    Except NumberError Result :=
  Wide.calculus.evaluateInLine r line source scope

/-- The result of a text by the evaluators in line, with wide numbers for trees, or of tokens on the
stack. -/
def evaluateSource (r : Registry) (line : List Evaluator) (source : Source) (scope : Scope) :
    Except NumberError Result :=
  Wide.calculus.evaluateSource r line source scope

end Registry

end LiveSheet
