import LiveSheet.Expr.Parser
import LiveSheet.Registry

/-!
# LaTeX of an expression tree

Sets an expression as it was written, by the rules of the registry. What has no rule there is set
plainly: a prefix operator before its operand, an operator between blanks, and a function by its
name with its arguments between parentheses.
-/

namespace LiveSheet.Latex

/-- The names that the functions without a rule are set by, where they have one in LaTeX. -/
def functionNames : List (String × String) :=
  [ ("sin", "\\sin"), ("cos", "\\cos"), ("tan", "\\tan"), ("ln", "\\ln"),
    ("asin", "\\arcsin"), ("acos", "\\arccos"), ("atan", "\\arctan") ]

/-- The LaTeX of a prefix operator and its operand. -/
def prefixLatex (r : Registry) (symbol : String) (operand : Part) : String :=
  match (r.prefix? symbol).bind (·.latex) with
  | some rule => rule [operand]
  | none => signRule symbol [operand]

/-- The LaTeX of an operator between its operands. -/
def binaryLatex (r : Registry) (symbol : String) (left right : Part) : String :=
  match (r.operator? symbol).bind (·.latex) with
  | some rule => rule [left, right]
  | none => infixRule (if symbol == "*" then "\\cdot" else symbol) [left, right]

/-- The arguments that the rule of a function sees: one or two of a function that takes exactly so
many, with nothing for those that are missing, and else all. -/
def ruleArguments (arity : Arity) (args : List Part) : List Part :=
  match arity with
  | .exactly 1 => [args.headD .missing]
  | .exactly 2 => [args.headD .missing, args.tail.headD .missing]
  | _ => args

/-- The LaTeX of a call. -/
def callLatex (r : Registry) (name : String) (args : List Part) : String :=
  match r.function? name with
  | some ⟨arity, _, some rule⟩ => rule (ruleArguments arity args)
  | _ =>
    match functionNames.lookup name with
    | some latexName => latexName ++ fenced (args.headD .missing).latex
    | none => name ++ fenced (",\\,".intercalate (args.map (·.latex)))

mutual

/-- The LaTeX of an expression. -/
def ofExpr (r : Registry) : Expr → String
  | .number text => text
  | .reference name => name
  | .constant name => if name == "pi" then "\\pi" else name
  | .prefixed symbol operand => prefixLatex r symbol ⟨ofExpr r operand, operand.shape⟩
  | .binary symbol left right =>
    binaryLatex r symbol ⟨ofExpr r left, left.shape⟩ ⟨ofExpr r right, right.shape⟩
  | .group inner => fenced (ofExpr r inner)
  | .call name args => callLatex r name (partsOf r args)

/-- Several expressions with their LaTeX. -/
def partsOf (r : Registry) : List Expr → List Part
  | [] => []
  | e :: es => ⟨ofExpr r e, e.shape⟩ :: partsOf r es

end

/-- The LaTeX of a list of tokens, read leniently. -/
def ofTokens (r : Registry) (ts : List Token) : String :=
  match Expr.parse .lenient ts with
  | .ok e => ofExpr r e
  | .error _ => ""

end LiveSheet.Latex
