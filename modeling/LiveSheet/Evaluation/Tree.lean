import LiveSheet.Evaluation.Refusal
import LiveSheet.Evaluation.Stack

/-!
# Evaluation of the tree

An expression can be computed on its tree, with numbers of whatever kind: a calculus has them and
their operations, each of which may fail. The operations do not depend on what the registry
computes: from the registry come only the values of the constants and the argument counts of the
functions. What cannot be computed is refused, so that someone else may decide about it.
-/

namespace LiveSheet

/-- Numbers of some kind and what is computed with them. Every operation may fail. -/
structure Calculus (α : Type) where
  /-- The number that a numeral stands for. -/
  number : (text : String) → Except Refusal α
  /-- The number that a value in a scope counts as. -/
  reference : Value → Except Refusal α
  /-- The number of a constant of the registry. -/
  constant : Float → Except Refusal α
  /-- The number with its sign changed. -/
  negation : α → Except Refusal α
  /-- What an operator makes of two numbers. -/
  operator : (symbol : String) → α → α → Except Refusal α
  /-- What a function makes of its arguments. -/
  function : (name : String) → List α → Except Refusal α
  /-- The binary64 number that is shown in the end. -/
  result : α → Except Refusal Float

namespace Calculus

variable {α : Type}

mutual

/-- What an expression comes to. -/
def convert (k : Calculus α) (r : Registry) (scope : Scope) : Expr → Except Refusal α
  | .number text => k.number text
  | .reference name => k.reference ((scope.get? name).getD .null)
  | .constant name =>
    match r.constant? name with
    | some x => k.constant x
    | none => .error (.unknownConstant name)
  | .prefixed symbol operand =>
    if symbol == "-" then do
      let x ← convert k r scope operand
      k.negation x
    else .error .noValue
  | .binary symbol left right =>
    if ["+", "-", "*", "/", "^"].contains symbol then do
      let x ← convert k r scope left
      let y ← convert k r scope right
      k.operator symbol x y
    else .error (.stackOperator symbol)
  | .group inner => convert k r scope inner
  | .call name args => do
    r.checkCall name args.length
    let xs ← convertAll k r scope args
    k.function name xs

/-- What several expressions come to, from left to right. -/
def convertAll (k : Calculus α) (r : Registry) (scope : Scope) :
    List Expr → Except Refusal (List α)
  | [] => .ok []
  | e :: es => do
    let x ← convert k r scope e
    let xs ← convertAll k r scope es
    return x :: xs

end

end Calculus

end LiveSheet
