/-!
# Tokens

The words of an expression: numbers, names of three kinds, operators, parentheses and commas. A
token keeps its kind and its text, and nothing about where it stood.
-/

namespace LiveSheet

/-- The kinds of words. -/
inductive TokenKind where
  | number
  | reference
  | constant
  | function
  | operator
  | parenthesis
  | comma
deriving Repr, DecidableEq

/-- A word of an expression. -/
structure Token where
  kind : TokenKind
  text : String
deriving Repr, DecidableEq

namespace Token

/-- An opening parenthesis. -/
def openParen : Token :=
  ⟨.parenthesis, "("⟩

/-- A closing parenthesis. -/
def closeParen : Token :=
  ⟨.parenthesis, ")"⟩

/-- Whether the token opens a group or a call. -/
def isOpenParen (t : Token) : Bool :=
  t == openParen

/-- Whether the token closes a group or a call. -/
def isCloseParen (t : Token) : Bool :=
  t == closeParen

/-- Whether the token is an operator with one of the symbols. -/
def isOperatorAmong (t : Token) (symbols : List String) : Bool :=
  t.kind == .operator && symbols.contains t.text

/-- Whether an operator behind the token stands in front of its operand: at the start, behind an
operator or a comma, and behind an opening parenthesis. -/
def isPrefixPosition : (previous : Option Token) → Bool
  | none => true
  | some t => t.kind == .operator || t.kind == .comma || t.isOpenParen

end Token

end LiveSheet
