import LiveSheet.Expr

/-!
# LaTeX markup

The pieces that displayed formulas are put together from, and the rules by which operators and
functions are set. A rule sees the LaTeX of each operand and the outermost form of the operand,
because it is the form that decides about parentheses.
-/

namespace LiveSheet.Latex

/-- A text between braces. -/
def braced (s : String) : String :=
  "\x7b" ++ s ++ "\x7d"

/-- A text between parentheses that grow with it. -/
def fenced (s : String) : String :=
  "\\left(" ++ s ++ "\\right)"

/-- An operand that has been set, with its outermost form. -/
structure Part where
  latex : String
  shape : Expr.Shape
deriving Repr, DecidableEq

/-- What stands where an operand is missing. -/
def Part.missing : Part :=
  ⟨"", .number⟩

/-- How an operator or a function is set from its operands. -/
abbrev Rule :=
  List Part → String

/-- Both operands with a sign between them. -/
def infixRule (sign : String) : Rule
  | [left, right] => left.latex ++ " " ++ sign ++ " " ++ right.latex
  | _ => ""

/-- The first operand over the second one. -/
def fractionRule : Rule
  | [left, right] => "\\frac" ++ braced left.latex ++ braced right.latex
  | _ => ""

/-- The second operand as a superscript of the first one, between parentheses if that is a binary
operation. -/
def powerRule : Rule
  | [base, exponent] =>
    (if base.shape = .binary then fenced base.latex else base.latex) ++ "^" ++ braced exponent.latex
  | _ => ""

/-- A sign before the operand, between parentheses if that is compound. -/
def signRule (sign : String) : Rule
  | [operand] =>
    sign ++ (if operand.shape.isCompound then fenced operand.latex else operand.latex)
  | _ => ""

/-- The operand under a root. -/
def rootRule : Rule
  | [operand] => "\\sqrt" ++ braced operand.latex
  | _ => ""

/-- The logarithm of the first operand to the second one as its base. -/
def logarithmRule : Rule
  | [operand, base] => "\\log_" ++ braced base.latex ++ fenced operand.latex
  | _ => ""

/-- A name before the operand between parentheses. -/
def namedRule (name : String) : Rule
  | [operand] => name ++ fenced operand.latex
  | _ => ""

end LiveSheet.Latex
