import LiveSheet.Latex.Markup
import LiveSheet.Table
import LiveSheet.Text.LetterCase
import LiveSheet.Text.Quoted
import LiveSheet.Token.Lexer

/-!
# The vocabulary of expressions

A registry says which operators, functions and constants there are, how they bind, what they
compute, and how they are set in LaTeX. Functions and constants are known by their name in small
letters, operators by their symbol. What is registered again keeps its place.
-/

namespace LiveSheet

/-- How operators of one precedence group. -/
inductive Associativity where
  | left
  | right
deriving Repr, DecidableEq

/-- How many arguments a function takes: a count, or a least and a greatest one. -/
inductive Arity where
  | exactly (count : Int)
  | between (least greatest : Int)
deriving Repr, DecidableEq

/-- The number of arguments that a call is computed from. -/
def Arity.least : Arity → Int
  | exactly count => count
  | between least _ => least

/-- An operator between two operands. -/
structure BinaryRule where
  precedence : Int
  associativity : Associativity
  compute : Float → Float → Float
  latex : Option Latex.Rule

/-- An operator before its operand. -/
structure PrefixRule where
  compute : Float → Float
  latex : Option Latex.Rule

/-- A function of a list of arguments. -/
structure FunctionRule where
  arity : Arity
  compute : List Float → Float
  latex : Option Latex.Rule

/-- Why a definition is refused. -/
inductive DefinitionError where
  | associativity (name : String)
  | arityBounds (bounds : List Int)
deriving Repr, DecidableEq

/-- The message of an error. -/
def DefinitionError.message : DefinitionError → String
  | associativity name => "Invalid associativity: " ++ Text.quoted name
  | arityBounds bounds =>
    "Arity range must be (min, max), got [" ++ ", ".intercalate (bounds.map toString) ++ "]"

/-- The associativity of a name. -/
def Associativity.ofName (name : String) : Except DefinitionError Associativity :=
  if name == "left" then .ok .left
  else if name == "right" then .ok .right
  else .error (.associativity name)

/-- The arity of a list of bounds, which has to hold the least and the greatest count. -/
def Arity.ofBounds (bounds : List Int) : Except DefinitionError Arity :=
  match bounds with
  | [least, greatest] => .ok (.between least greatest)
  | _ => .error (.arityBounds bounds)

/-- The operators, functions and constants of expressions. -/
structure Registry where
  operators : Table String BinaryRule
  prefixes : Table String PrefixRule
  functions : Table String FunctionRule
  constants : Table String Float

namespace Registry

/-- A registry without entries. -/
def empty : Registry :=
  ⟨.empty, .empty, .empty, .empty⟩

/-- Registers an operator. -/
def addOperator (r : Registry) (symbol : String) (rule : BinaryRule) : Registry :=
  { r with operators := r.operators.insert symbol rule }

/-- Registers a prefix operator. -/
def addPrefix (r : Registry) (symbol : String) (rule : PrefixRule) : Registry :=
  { r with prefixes := r.prefixes.insert symbol rule }

/-- Registers a function. -/
def addFunction (r : Registry) (name : String) (rule : FunctionRule) : Registry :=
  { r with functions := r.functions.insert (Text.lowercase name) rule }

/-- Registers a constant. -/
def addConstant (r : Registry) (name : String) (value : Float) : Registry :=
  { r with constants := r.constants.insert (Text.lowercase name) value }

/-- The operator of a symbol. -/
def operator? (r : Registry) (symbol : String) : Option BinaryRule :=
  r.operators.get? symbol

/-- The prefix operator of a symbol. -/
def prefix? (r : Registry) (symbol : String) : Option PrefixRule :=
  r.prefixes.get? symbol

/-- The function of a name, in letters of any case. -/
def function? (r : Registry) (name : String) : Option FunctionRule :=
  r.functions.get? (Text.lowercase name)

/-- The constant of a name, in letters of any case. -/
def constant? (r : Registry) (name : String) : Option Float :=
  r.constants.get? (Text.lowercase name)

/-- The precedence of an operator, 0 if it is not registered. -/
def precedence (r : Registry) (symbol : String) : Int :=
  match r.operator? symbol with
  | some rule => rule.precedence
  | none => 0

/-- Whether operators of the symbol group to the right; those not registered do not. -/
def isRightAssociative (r : Registry) (symbol : String) : Bool :=
  match r.operator? symbol with
  | some rule => rule.associativity == .right
  | none => false

/-- The tokens of a text with their places. -/
def lexemes (r : Registry) (s : String) : List Lexeme :=
  Lexer.lexemes (fun name => (r.constants.get? name).isSome) s

/-- The tokens of a text. -/
def tokens (r : Registry) (s : String) : List Token :=
  Lexer.tokens (fun name => (r.constants.get? name).isSome) s

/-- The characters of a text that belong to no token and no gap. -/
def unreadChars (r : Registry) (s : String) : List Char :=
  Lexer.unreadChars (fun name => (r.constants.get? name).isSome) s

/-- The names of the nodes that a text refers to, in order of first mention. -/
def references (r : Registry) (s : String) : List String :=
  referencesOf (r.tokens s)

end Registry

end LiveSheet
