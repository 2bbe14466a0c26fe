import LiveSheet.Binary64.Basic

/-!
# Numbers of 53 digits with any exponent

Binary64 numbers without their bounds: a mantissa of at most 53 binary digits times a power of two
whose exponent is any integer. There is one zero, nothing overflows and nothing underflows; sum,
difference, product, quotient and square root are rounded to the nearest number, with ties to the
even mantissa. Exponents can be far too large to shift by, so no operation shifts by more digits
than the result can show.
-/

namespace LiveSheet

-- Powers are those of the numbers themselves, also where monoids are in scope.
attribute [local instance (2000)] instPowNat

/-- The number `mantissa · 2^exponent`. -/
structure Wide where
  mantissa : Int
  exponent : Int
deriving Repr, DecidableEq

namespace Wide

open Binary64 (bitLength roundShift)

/-- The number 0. -/
def zero : Wide :=
  ⟨0, 0⟩

/-- `m · 2^e` rounded to 53 digits; the mantissa of a nonzero number has exactly 53. -/
def round (m e : Int) : Wide :=
  if m = 0 then zero
  else
    let length := bitLength m.natAbs
    let magnitude :=
      if length ≤ 53 then m.natAbs * 2 ^ (53 - length) else roundShift m.natAbs (length - 53)
    let exponent := e + length - 53
    -- Rounding up may give one digit too many, the lowest of them 0.
    let (magnitude, exponent) :=
      if magnitude = 2 ^ (53 : Nat) then (2 ^ (52 : Nat), exponent + 1) else (magnitude, exponent)
    ⟨if m < 0 then -(magnitude : Int) else magnitude, exponent⟩

/-- The number of a finite binary64 number. -/
def ofFloat? (x : Float) : Option Wide :=
  match Binary64.decode x with
  | .finite negative m e => some (round (if negative then -(m : Int) else m) e)
  | _ => none

/-- The nearest binary64 number; a negative number that vanishes keeps its sign. -/
def toFloat (x : Wide) : Float :=
  Binary64.ofDyadic (x.mantissa < 0) x.mantissa.natAbs x.exponent

/-- Whether the number is 0. -/
def isZero (x : Wide) : Bool :=
  x.mantissa = 0

/-- Whether the number is below 0. -/
def isNegative (x : Wide) : Bool :=
  x.mantissa < 0

/-- Whether the number is at most the greatest binary64 number, or its negative at least. -/
def inRange (x : Wide) : Bool :=
  x.mantissa = 0 || x.exponent ≤ 971

/-- The number with its sign changed. -/
def neg (x : Wide) : Wide :=
  ⟨-x.mantissa, x.exponent⟩

/-- The number without its sign. -/
def abs (x : Wide) : Wide :=
  ⟨x.mantissa.natAbs, x.exponent⟩

/-- The sum. A term so far below the other one that it cannot touch the result is left out. -/
def add (x y : Wide) : Wide :=
  if x.mantissa = 0 then y
  else if y.mantissa = 0 then x
  else if y.exponent + 120 < x.exponent then x
  else if x.exponent + 120 < y.exponent then y
  else
    let e := min x.exponent y.exponent
    round (x.mantissa * 2 ^ (x.exponent - e).toNat + y.mantissa * 2 ^ (y.exponent - e).toNat) e

/-- The difference. -/
def sub (x y : Wide) : Wide :=
  add x (neg y)

/-- The product. -/
def mul (x y : Wide) : Wide :=
  round (x.mantissa * y.mantissa) (x.exponent + y.exponent)

/-- `n / d · 2^e` rounded: a digit below the last one stands for a remainder. -/
def ofQuotient (n : Int) (d : Nat) (e : Int) : Wide :=
  let shift := 120 + bitLength d
  let scaled := n.natAbs * 2 ^ shift
  let quotient := 2 * (scaled / d) + (if scaled % d = 0 then 0 else 1)
  round (if n < 0 then -(quotient : Int) else quotient) (e - shift - 1)

/-- The quotient, which division by zero does not have. -/
def div? (x y : Wide) : Option Wide :=
  if y.mantissa = 0 then none
  else
    some (ofQuotient (if y.mantissa < 0 then -x.mantissa else x.mantissa) y.mantissa.natAbs
      (x.exponent - y.exponent))

/-- Newton's iteration for the square root of `n` from above, for at most so many rounds. -/
def sqrtFrom (n : Nat) : (rounds : Nat) → (guess : Nat) → Nat
  | 0, guess => guess
  | rounds + 1, guess =>
    let next := (guess + n / guess) / 2
    if next < guess then sqrtFrom n rounds next else guess

/-- The square root of a natural number, rounded down. -/
def floorSqrt (n : Nat) : Nat :=
  sqrtFrom n (bitLength n + 2) (2 ^ (bitLength n / 2 + 1))

/-- The square root, which negative numbers do not have. -/
def sqrt? (x : Wide) : Option Wide :=
  if x.mantissa < 0 then none
  else if x.mantissa = 0 then some zero
  else
    let even := x.exponent % 2 = 0
    let m := x.mantissa.natAbs * (if even then 1 else 2) * 2 ^ (120 : Nat)
    let e := (if even then x.exponent else x.exponent - 1) - 120
    let root := floorSqrt m
    let digit := if root * root = m then 0 else 1
    some (round (2 * root + digit : Nat) (e / 2 - 1))

end Wide

end LiveSheet
