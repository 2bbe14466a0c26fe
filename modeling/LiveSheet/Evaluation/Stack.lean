import LiveSheet.Postfix
import LiveSheet.Result
import LiveSheet.Value.Number

/-!
# Evaluation on a stack

Runs an expression in postfix order on a stack of numbers. An operator takes its operands off the
stack and puts its value there, a function takes its least count of arguments, and every value is
checked not to be `nan`. `evaluateStrict` says what is wrong with an expression, `evaluate` answers
every fault with the result `Error`; a number that cannot be read at all is an error of both.
-/

namespace LiveSheet

/-- The values of the names in an expression. -/
abbrev Scope :=
  Table String Value

/-- Why an expression has no value. -/
inductive EvaluationError where
  | fault (f : Fault)
  | number (e : NumberError)
deriving Repr, DecidableEq

namespace Postfix

/-- Puts a value on the stack, unless it is `nan`. -/
def push (symbol : String) (value : Float) (stack : List Float) :
    Except EvaluationError (List Float) :=
  if value.isNaN then .error (.fault (.undefinedValue symbol)) else .ok (value :: stack)

/-- Runs one step on a stack, its top first. -/
def runStep (r : Registry) (scope : Scope) (stack : List Float) :
    Step → Except EvaluationError (List Float)
  | .number text =>
    match Decimal.readNumeral? text with
    | some x => .ok (x :: stack)
    | none => .error (.number (.unreadable text))
  | .reference name =>
    match ((scope.get? name).getD .null).coerce with
    | .ok x => .ok (x :: stack)
    | .error e => .error (.number e)
  | .constant name => push name ((r.constant? name).getD Binary64.nan) stack
  | .prefixed symbol =>
    match stack with
    | a :: stack =>
      match r.prefix? symbol with
      | some rule => push symbol (rule.compute a) stack
      | none => push symbol Binary64.nan stack
    | [] => .error (.fault (.prefixOperand symbol))
  | .operator symbol =>
    match stack with
    | b :: a :: stack =>
      match r.operator? symbol with
      | some rule => push symbol (rule.compute a b) stack
      | none => push symbol Binary64.nan stack
    | _ => .error (.fault (.operands symbol))
  | .call name =>
    match r.function? name with
    | none => .error (.fault (.unknownFunction name))
    | some rule =>
      let count := rule.arity.least
      if (stack.length : Int) < count then .error (.fault (.arguments name count stack.length))
      else
        push name (rule.compute (stack.take count.toNat).reverse) (stack.drop count.toNat)

/-- Runs steps one after the other. -/
def run (r : Registry) (scope : Scope) : List Float → List Step → Except EvaluationError (List Float)
  | stack, [] => .ok stack
  | stack, s :: steps =>
    match runStep r scope stack s with
    | .ok stack => run r scope stack steps
    | .error e => .error e

end Postfix

namespace Registry

/-- The value of a list of tokens; no tokens at all, or none that leaves a value, are 0. -/
def evaluateStrict (r : Registry) (ts : List Token) (scope : Scope) :
    Except EvaluationError Float :=
  match Postfix.order r ts with
  | .error f => .error (.fault f)
  | .ok steps =>
    match Postfix.run r scope [] steps with
    | .ok (x :: _) => .ok x
    | .ok [] => .ok 0
    | .error e => .error e

/-- The result of a list of tokens, `Error` for every fault. -/
def evaluate (r : Registry) (ts : List Token) (scope : Scope) : Except NumberError Result :=
  match r.evaluateStrict ts scope with
  | .ok x => .ok (.number x)
  | .error (.fault _) => .ok (.failed .error)
  | .error (.number e) => .error e

end Registry

end LiveSheet
