import LiveSheet.Decimal.Notation
import LiveSheet.Decimal.Numeral
import LiveSheet.Evaluation.Refusal

/-!
# Mathematical typesetting of an expression tree

Sets an expression as mathematics and not as it was typed: grouping parentheses stand only where
precedence asks for them, a product is written side by side, a quotient as a fraction, and whole
numbers lose leading zeros. It reads what the exact evaluator reads, and refuses the rest.
-/

namespace LiveSheet.Latex

/-- What an expression is when it becomes a part of a larger one. -/
inductive Form where
  | sum
  | product
  /-- A product with a minus sign in front. -/
  | negative
  | power
  /-- A call whose name can carry an exponent, in two parts. -/
  | call (name argument : String)
  /-- A number that is not whole. -/
  | decimal
  | atom
deriving Repr, DecidableEq

/-- An expression that has been set. -/
structure Typeset where
  latex : String
  form : Form
deriving Repr, DecidableEq

namespace Typeset

/-- The LaTeX as a term after the first of a sum. -/
def asTerm (t : Typeset) : String :=
  if t.form = .sum then fenced t.latex else t.latex

/-- The LaTeX as a factor, the first of a product or a later one. -/
def asFactor (t : Typeset) (first : Bool) : String :=
  if t.form = .sum ∨ (t.form = .negative ∧ !first) then fenced t.latex else t.latex

/-- The sum of two terms; a negative second term is subtracted. -/
def plus (a b : Typeset) : Typeset :=
  if b.form = .negative then ⟨a.latex ++ " " ++ b.latex, .sum⟩
  else ⟨a.latex ++ " + " ++ b.asTerm, .sum⟩

/-- The difference of two terms. -/
def minus (a b : Typeset) : Typeset :=
  ⟨a.latex ++ " - " ++ b.asTerm, .sum⟩

/-- Whether a factor ends in a digit, perhaps within braces. -/
def endsInDigit (s : String) : Bool :=
  match s.toList.reverse.dropWhile fun c => c == ' ' || c.toNat == 0x7d with
  | c :: _ => Decimal.isDigit c
  | [] => false

/-- Whether a factor starts with a digit. -/
def startsWithDigit (s : String) : Bool :=
  match s.toList with
  | c :: _ => Decimal.isDigit c
  | [] => false

/-- The product of two factors side by side, with a dot between numbers. -/
def times (a b : Typeset) : Typeset :=
  let left := a.asFactor true
  let right := b.asFactor false
  let dot := if endsInDigit left && startsWithDigit right then " \\cdot " else " "
  ⟨left ++ dot ++ right, if a.form = .negative then .negative else .product⟩

/-- The quotient as a fraction. -/
def dividedBy (a b : Typeset) : Typeset :=
  ⟨"\\frac" ++ braced a.latex ++ braced b.latex, .product⟩

/-- The expression with a minus sign in front. -/
def negated (a : Typeset) : Typeset :=
  ⟨"- " ++ (if a.form = .sum then "(" ++ a.latex ++ ")" else a.latex), .negative⟩

/-- The power; the exponent of a call stands behind its name. -/
def toThe (a b : Typeset) : Typeset :=
  let latex :=
    match a.form with
    | .call name argument => name ++ "^" ++ braced b.latex ++ argument
    | .decimal => braced a.latex ++ "^" ++ braced b.latex
    | .atom => a.latex ++ "^" ++ braced b.latex
    | _ => fenced a.latex ++ "^" ++ braced b.latex
  ⟨latex, .power⟩

/-- The square root. -/
def root (a : Typeset) : Typeset :=
  ⟨"\\sqrt" ++ braced a.latex, .power⟩

/-- An argument between parentheses. -/
def argument (a : Typeset) : String :=
  braced ("\\left(" ++ a.latex ++ " \\right)")

/-- A call of a function by its LaTeX name. -/
def called (name : String) (a : Typeset) : Typeset :=
  ⟨name ++ a.argument, .call name a.argument⟩

/-- The natural logarithm, which takes an exponent behind its argument. -/
def logarithm (a : Typeset) : Typeset :=
  let latex := "\\log" ++ a.argument
  ⟨latex, .call latex ""⟩

/-- A function by its LaTeX name, where it is set by name. -/
def calledName? (name : String) : Option String :=
  if name == "sin" then some "\\sin"
  else if name == "cos" then some "\\cos"
  else if name == "tan" then some "\\tan"
  else if name == "asin" || name == "acos" || name == "atan" then
    some ("\\operatorname" ++ braced name)
  else none

/-- The call of a function. -/
def call? (name : String) (args : List Typeset) : Option Typeset :=
  match args with
  | [a] =>
    if name == "sqrt" then some a.root
    else if name == "ln" then some a.logarithm
    else (calledName? name).map a.called
  | [a, b] =>
    if name == "pow" then some (a.toThe b)
    else if name == "log" then some (a.logarithm.dividedBy b.logarithm)
    else none
  | _ => none

/-- A number: digits alone as a whole number without leading zeros, others by their value. -/
def number? (text : String) : Option Typeset :=
  if text.toList.all Decimal.isDigit then
    some ⟨toString (Decimal.digitsValue text.toList), .atom⟩
  else (Decimal.readNumeral? text).map fun x => ⟨Decimal.plain.format x, .decimal⟩

/-- The combination of two operands by an operator. -/
def operator? (symbol : String) (a b : Typeset) : Option Typeset :=
  if symbol == "+" then some (a.plus b)
  else if symbol == "-" then some (a.minus b)
  else if symbol == "*" then some (a.times b)
  else if symbol == "/" then some (a.dividedBy b)
  else if symbol == "^" then some (a.toThe b)
  else none

/-- What has been set, or the refusal to set it. -/
def orRefuse {α : Type} : Option α → Except Refusal α
  | some a => .ok a
  | none => .error .noValue

end Typeset

mutual

/-- Sets an expression. -/
def typeset (r : Registry) : Expr → Except Refusal Typeset
  | .number text => Typeset.orRefuse (Typeset.number? text)
  | .reference name => .ok ⟨name, .atom⟩
  | .constant name =>
    match r.constant? name with
    | some _ => .ok ⟨if name == "pi" then "\\pi" else name, .atom⟩
    | none => .error (.unknownConstant name)
  | .prefixed symbol operand =>
    if symbol == "-" then (typeset r operand).map Typeset.negated else .error .noValue
  | .binary symbol left right =>
    if ["+", "-", "*", "/", "^"].contains symbol then
      match typeset r left with
      | .error e => .error e
      | .ok a =>
        match typeset r right with
        | .error e => .error e
        | .ok b => Typeset.orRefuse (Typeset.operator? symbol a b)
    else .error (.stackOperator symbol)
  | .group inner => typeset r inner
  | .call name args =>
    match r.checkCall name args.length with
    | .error e => .error e
    | .ok () =>
      match typesetAll r args with
      | .error e => .error e
      | .ok parts => Typeset.orRefuse (Typeset.call? name parts)

/-- Sets several expressions, from left to right. -/
def typesetAll (r : Registry) : List Expr → Except Refusal (List Typeset)
  | [] => .ok []
  | e :: es =>
    match typeset r e with
    | .error e => .error e
    | .ok a =>
      match typesetAll r es with
      | .error e => .error e
      | .ok rest => .ok (a :: rest)

end

/-- The typeset LaTeX of a text. -/
def typesetText (r : Registry) (text : String) : Except Refusal String :=
  match r.readTree text with
  | .error e => .error e
  | .ok e => (typeset r e).map (·.latex)

end LiveSheet.Latex
