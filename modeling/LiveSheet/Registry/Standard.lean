import LiveSheet.Binary64.Basic
import LiveSheet.Registry

/-!
# The standard vocabulary

The arithmetic of `standard`: the four operations, the remainder that takes the sign of the
dividend, powers, negation, roots, logarithms and the trigonometric functions, and π. A computation
outside the domain of its rule gives `nan`. Powers, logarithms and the trigonometric functions are
those of the platform.
-/

namespace LiveSheet.Registry

open Latex

/-- The functions of binary64 numbers that a platform computes. -/
structure Platform where
  pow : Float → Float → Float
  log : Float → Float
  sin : Float → Float
  cos : Float → Float
  tan : Float → Float
  asin : Float → Float
  acos : Float → Float
  atan : Float → Float

/-- Those of the platform that the program runs on. -/
def Platform.native : Platform where
  pow := Float.pow
  log := Float.log
  sin := Float.sin
  cos := Float.cos
  tan := Float.tan
  asin := Float.asin
  acos := Float.acos
  atan := Float.atan

/-- The quotient, which division by zero does not have. -/
def quotient (a b : Float) : Float :=
  if b == 0 then Binary64.nan else a / b

/-- The remainder with the sign of the dividend, which division by zero does not have. -/
def remainder (a b : Float) : Float :=
  if b == 0 then Binary64.nan else Binary64.remainder a b

/-- The square root of a number that is not negative. -/
def squareRoot (a : Float) : Float :=
  if a < 0 then Binary64.nan else a.sqrt

/-- The logarithm of a positive number to a positive base other than 1. -/
def logarithm (log : Float → Float) (a b : Float) : Float :=
  if 0 < a && 0 < b && b != 1 then log a / log b else Binary64.nan

/-- The natural logarithm of a positive number. -/
def naturalLogarithm (log : Float → Float) (a : Float) : Float :=
  if a ≤ 0 then Binary64.nan else log a

/-- A function of one argument. -/
def unary (compute : Float → Float) (latex : Rule) : FunctionRule where
  arity := .exactly 1
  compute
    | [a] => compute a
    | _ => Binary64.nan
  latex := some latex

/-- A function of two arguments. -/
def binary (compute : Float → Float → Float) (latex : Rule) : FunctionRule where
  arity := .exactly 2
  compute
    | [a, b] => compute a b
    | _ => Binary64.nan
  latex := some latex

/-- The operators, in order of registration. -/
def standardOperators (p : Platform) : List (String × BinaryRule) :=
  [ ("+", ⟨1, .left, (· + ·), some (infixRule "+")⟩),
    ("-", ⟨1, .left, (· - ·), some (infixRule "-")⟩),
    ("*", ⟨2, .left, (· * ·), some (infixRule "\\cdot")⟩),
    ("/", ⟨2, .left, quotient, some fractionRule⟩),
    ("%", ⟨2, .left, remainder, some (infixRule "\\bmod")⟩),
    ("^", ⟨3, .right, p.pow, some powerRule⟩) ]

/-- The functions, in order of registration. -/
def standardFunctions (p : Platform) : List (String × FunctionRule) :=
  [ ("sqrt", unary squareRoot rootRule),
    ("pow", binary p.pow powerRule),
    ("log", binary (logarithm p.log) logarithmRule),
    ("sin", unary p.sin (namedRule "\\sin")),
    ("cos", unary p.cos (namedRule "\\cos")),
    ("tan", unary p.tan (namedRule "\\tan")),
    ("ln", unary (naturalLogarithm p.log) (namedRule "\\ln")),
    ("asin", unary p.asin (namedRule "\\arcsin")),
    ("acos", unary p.acos (namedRule "\\arccos")),
    ("atan", unary p.atan (namedRule "\\arctan")) ]

/-- The standard operators, functions and constants on a platform. -/
def standardOn (p : Platform) : Registry where
  operators := ⟨standardOperators p⟩
  prefixes := ⟨[("-", ⟨Float.neg, some (signRule "-")⟩)]⟩
  functions := ⟨standardFunctions p⟩
  constants := ⟨[("pi", 3.141592653589793)]⟩

/-- The standard operators, functions and constants. -/
def standard : Registry :=
  standardOn .native

end LiveSheet.Registry
