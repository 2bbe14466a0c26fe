import LiveSheet.Registry

/-!
# Postfix order

`order` brings the tokens of an expression into postfix order: operands first, then the operator or
function that takes them. Operators and functions wait on a stack: an operator until one that binds
no tighter comes, a function until its closing parenthesis, all of them until a comma or the end.
Nothing but the parentheses has to be well formed.
-/

namespace LiveSheet

/-- What is wrong with an expression that is computed. -/
inductive Fault where
  /-- A closing parenthesis that closes nothing. -/
  | unmatchedClose
  /-- An opening parenthesis that is not closed. -/
  | unmatchedOpen
  /-- A prefix operator without an operand. -/
  | prefixOperand (symbol : String)
  /-- An operator with fewer than two operands. -/
  | operands (symbol : String)
  /-- A call with fewer operands than the function takes. -/
  | arguments (name : String) (least : Int) (found : Nat)
  /-- A call of a name that is no function. -/
  | unknownFunction (name : String)
  /-- An operation outside its domain. -/
  | undefinedValue (symbol : String)
deriving Repr, DecidableEq

namespace Fault

/-- The message of a fault. -/
def message : Fault → String
  | unmatchedClose => "Unmatched ')'"
  | unmatchedOpen => "Unmatched '('"
  | prefixOperand symbol => "Unary " ++ symbol ++ " needs an operand"
  | operands symbol => "Operator " ++ symbol ++ " needs two operands"
  | arguments name least found =>
    name ++ " expects " ++ toString least ++ " arguments, found " ++ toString found
  | unknownFunction name => "Unknown function: " ++ name
  | undefinedValue symbol => symbol ++ " produced NaN"

/-- The token that the fault is about. -/
def token : Fault → String
  | unmatchedClose => ")"
  | unmatchedOpen => "("
  | prefixOperand symbol => symbol
  | operands symbol => symbol
  | arguments name _ _ => name
  | unknownFunction name => name
  | undefinedValue symbol => symbol

end Fault

namespace Postfix

/-- One step of an expression in postfix order. -/
inductive Step where
  | number (text : String)
  | reference (name : String)
  | constant (name : String)
  | prefixed (symbol : String)
  | operator (symbol : String)
  | call (name : String)
deriving Repr, DecidableEq

/-- What waits for its operands. -/
inductive Pending where
  | prefixed (symbol : String)
  | operator (symbol : String)
  | call (name : String)
  | paren
deriving Repr, DecidableEq

/-- The step that a pending operator or function becomes; a parenthesis becomes none. -/
def Pending.step? : Pending → Option Step
  | prefixed symbol => some (.prefixed symbol)
  | operator symbol => some (.operator symbol)
  | call name => some (.call name)
  | paren => none

/-- The precedence of prefix operators: tighter than any standard operator. -/
def prefixPrecedence : Int :=
  4

/-- Whether a pending item takes its operands before an operator of the given symbol comes. -/
def yieldsTo (r : Registry) (symbol : String) : Pending → Bool
  | .prefixed _ => r.precedence symbol < prefixPrecedence
  | .operator top =>
    r.precedence symbol < r.precedence top ||
      (r.precedence top == r.precedence symbol && !r.isRightAssociative symbol)
  | .call _ => false
  | .paren => false

/-- The steps of the pending items above the innermost open parenthesis. -/
def stepsAboveParen (pending : List Pending) : List Step :=
  (pending.takeWhile (· != .paren)).filterMap Pending.step?

/-- The pending items from the innermost open parenthesis on. -/
def fromParen (pending : List Pending) : List Pending :=
  pending.dropWhile (· != .paren)

/-- The function that stands before a closed parenthesis, and the other pending items. -/
def calledFunction : List Pending → List Step × List Pending
  | .call name :: pending => ([.call name], pending)
  | pending => ([], pending)

/-- Puts steps before those of the rest of the expression. -/
def prepend (steps : List Step) (rest : Except Fault (List Step)) : Except Fault (List Step) :=
  rest.map (steps ++ ·)

/-- The steps of the tokens that come after `previous`, with `pending` waiting, last one first. -/
def orderFrom (r : Registry) (previous : Option Token) (pending : List Pending) :
    List Token → Except Fault (List Step)
  | [] =>
    if pending.contains .paren then .error .unmatchedOpen
    else .ok (pending.filterMap Pending.step?)
  | t :: ts =>
    match t.kind with
    | .number => prepend [.number t.text] (orderFrom r (some t) pending ts)
    | .reference => prepend [.reference t.text] (orderFrom r (some t) pending ts)
    | .constant => prepend [.constant t.text] (orderFrom r (some t) pending ts)
    | .function => orderFrom r (some t) (.call t.text :: pending) ts
    | .operator =>
      if Token.isPrefixPosition previous && (r.prefix? t.text).isSome then
        orderFrom r (some t) (.prefixed t.text :: pending) ts
      else
        prepend ((pending.takeWhile (yieldsTo r t.text)).filterMap Pending.step?)
          (orderFrom r (some t) (.operator t.text :: pending.dropWhile (yieldsTo r t.text)) ts)
    | .comma => prepend (stepsAboveParen pending) (orderFrom r (some t) (fromParen pending) ts)
    | .parenthesis =>
      if t.isOpenParen then orderFrom r (some t) (.paren :: pending) ts
      else if t.isCloseParen then
        match fromParen pending with
        | [] => .error .unmatchedClose
        | _ :: outer =>
          let (called, outer) := calledFunction outer
          prepend (stepsAboveParen pending ++ called) (orderFrom r (some t) outer ts)
      else orderFrom r (some t) pending ts

/-- The tokens of an expression in postfix order. -/
def order (r : Registry) (ts : List Token) : Except Fault (List Step) :=
  orderFrom r none [] ts

end Postfix

end LiveSheet
