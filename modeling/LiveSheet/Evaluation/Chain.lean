import LiveSheet.Evaluation.Tree

/-!
# Evaluators in line

An expression goes to the first evaluator of a line that does not refuse it. The stack evaluator
refuses nothing, and is the only one that takes tokens without their text. If everyone in the line
refuses, the result is `Error`. The numbers of the tree evaluator are those of a calculus.
-/

namespace LiveSheet

/-- An evaluator in a line. -/
inductive Evaluator where
  /-- The evaluator of trees. -/
  | tree
  /-- The evaluator on a stack. -/
  | stack
  /-- An evaluator that is not there. -/
  | absent
deriving Repr, DecidableEq

/-- The line of evaluators by the setting whether the one of trees is used. -/
def Evaluator.line (exact : Bool) : List Evaluator :=
  if exact then [.tree, .stack] else [.stack]

/-- What is evaluated. -/
inductive Source where
  | text (s : String)
  | tokens (ts : List Token)

/-- The tokens of what is evaluated. -/
def Registry.tokensOf (r : Registry) : Source → List Token
  | .text s => r.tokens s
  | .tokens ts => ts

namespace Calculus

variable {α : Type}

/-- The value of what is evaluated on its tree, which wants the text. -/
def evaluateSourceExact (k : Calculus α) (r : Registry) (source : Source) (scope : Scope) :
    Except Refusal Float :=
  match source with
  | .text s => do
    let e ← r.readTree s
    let x ← k.convert r scope e
    k.result x
  | .tokens _ => .error .tokensOnly

/-- The result of the first evaluator of a line that does not refuse. -/
def evaluateInLine (k : Calculus α) (r : Registry) (line : List Evaluator) (source : Source)
    (scope : Scope) : Except NumberError Result :=
  match line with
  | [] => .ok (.failed .error)
  | .absent :: line => k.evaluateInLine r line source scope
  | .stack :: _ => r.evaluate (r.tokensOf source) scope
  | .tree :: line =>
    match k.evaluateSourceExact r source scope with
    | .ok x => .ok (.number x)
    | .error _ => k.evaluateInLine r line source scope

/-- The result of a text by the evaluators in line, or of tokens on the stack. -/
def evaluateSource (k : Calculus α) (r : Registry) (line : List Evaluator) (source : Source)
    (scope : Scope) : Except NumberError Result :=
  match source with
  | .text _ => k.evaluateInLine r line source scope
  | .tokens ts => r.evaluate ts scope

end Calculus

end LiveSheet
