/-!
# Expressions

The tree of an expression. Names and number texts stay as they were written; a group is a pair of
parentheses that stands for itself, so that an expression can be written back.
-/

namespace LiveSheet

/-- The tree of an expression. -/
inductive Expr where
  | number (text : String)
  | reference (name : String)
  | constant (name : String)
  | prefixed (symbol : String) (operand : Expr)
  | binary (symbol : String) (left right : Expr)
  | group (inner : Expr)
  | call (name : String) (args : List Expr)
deriving Repr, Inhabited

namespace Expr

/-- The outermost form of an expression. -/
inductive Shape where
  | number
  | reference
  | constant
  | prefixed
  | binary
  | group
  | call
deriving Repr, DecidableEq

/-- The outermost form of an expression. -/
def shape : Expr → Shape
  | number _ => .number
  | reference _ => .reference
  | constant _ => .constant
  | prefixed .. => .prefixed
  | binary .. => .binary
  | group _ => .group
  | call .. => .call

/-- Whether a prefix operator needs parentheses before an expression of this form. -/
def Shape.isCompound : Shape → Bool
  | binary | group | call => true
  | _ => false

mutual

/-- The forms of an expression and its parts, each before its own parts, from left to right. -/
def shapes : Expr → List Shape
  | number _ => [.number]
  | reference _ => [.reference]
  | constant _ => [.constant]
  | prefixed _ operand => .prefixed :: shapes operand
  | binary _ left right => .binary :: (shapes left ++ shapes right)
  | group inner => .group :: shapes inner
  | call _ args => .call :: shapesOfAll args

/-- The forms of several expressions and their parts. -/
def shapesOfAll : List Expr → List Shape
  | [] => []
  | e :: es => shapes e ++ shapesOfAll es

end

end Expr

end LiveSheet
