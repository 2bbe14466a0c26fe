import LiveSheet.Expr.Parser
import LiveSheet.Registry

/-!
# Reading for the exact evaluator

The evaluator and the typesetter that work on the tree of an expression take only what they fully
understand and refuse the rest, so that whoever comes next in line can decide about it. `readTree`
is the part that they share: every character has to belong to a token, the remainder operator is
left to the stack, and the tokens have to form an expression without repairs.
-/

namespace LiveSheet

/-- Why an expression is left to someone else. -/
inductive Refusal where
  /-- There are only tokens, and no text. -/
  | tokensOnly
  /-- Characters that belong to no token. -/
  | unreadCharacters (cs : List Char)
  /-- An operator that only the stack computes. -/
  | stackOperator (symbol : String)
  /-- A text that is no expression without repairs. -/
  | unparsable (text : String) (e : ParseError)
  /-- A constant that is not registered. -/
  | unknownConstant (name : String)
  /-- A function that is not registered, or that has no exact counterpart. -/
  | unmappedFunction (name : String)
  /-- A call with another number of arguments than the function takes. -/
  | argumentCount (name : String) (found : Nat) (least : Int)
  /-- A value that is no finite real number in the binary64 range, or a call that cannot be made. -/
  | noValue
deriving Repr, DecidableEq

namespace Refusal

/-- The message of a refusal; what the value was is not told. -/
def message? : Refusal → Option String
  | tokensOnly => some "SymPy evaluation needs the expression text"
  | unreadCharacters cs =>
    some ("Characters outside the language: " ++ Text.quoted (String.ofList cs))
  | stackOperator symbol =>
    some ("Operator " ++ Text.quoted symbol ++ " is left to the builtin evaluator")
  | unparsable text e => some ("Cannot parse " ++ Text.quoted text ++ ": " ++ e.message)
  | unknownConstant name => some ("Unknown constant " ++ Text.quoted name)
  | unmappedFunction name => some ("No SymPy mapping for function " ++ Text.quoted name)
  | argumentCount name found least =>
    some (name ++ " called with " ++ toString found ++ " arguments, expected " ++ toString least)
  | noValue => none

end Refusal

namespace Registry

/-- Refuses an expression with a remainder operator. -/
def refuseRemainder (ts : List Token) : Except Refusal Unit :=
  if ts.any (·.isOperatorAmong ["%"]) then .error (.stackOperator "%") else .ok ()

/-- The tree of a text that is an expression from end to end. -/
def readTree (r : Registry) (text : String) : Except Refusal Expr :=
  let ts := r.tokens text
  match r.unreadChars text with
  | [] =>
    match refuseRemainder ts with
    | .error e => .error e
    | .ok () =>
      match Expr.parse .strict ts with
      | .ok e => .ok e
      | .error e => .error (.unparsable text e)
  | cs => .error (.unreadCharacters cs)

/-- The names of the functions that have exact counterparts. -/
def exactFunctions : List String :=
  ["sqrt", "pow", "log", "ln", "sin", "cos", "tan", "asin", "acos", "atan"]

/-- Refuses a call of a function without exact counterpart or with a wrong number of arguments. -/
def checkCall (r : Registry) (name : String) (found : Nat) : Except Refusal Unit :=
  match r.function? name with
  | none => .error (.unmappedFunction name)
  | some rule =>
    if !exactFunctions.contains name then .error (.unmappedFunction name)
    else if (found : Int) ≠ rule.arity.least then
      .error (.argumentCount name found rule.arity.least)
    else .ok ()

end Registry

end LiveSheet
