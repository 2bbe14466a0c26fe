import LiveSheet.Wide.FixedPoint

/-!
# Functions of wide numbers

Powers, logarithms and trigonometric functions, to about the last digit. Each is computed in fixed
point at a precision that leaves more than a hundred digits for the result, after its argument has
been reduced, and then rounded once. Where a function has no finite real value there is none here.
-/

namespace LiveSheet.Wide

-- Powers are those of the numbers themselves, also where monoids are in scope.
attribute [local instance (2000)] instPowNat

open Binary64 (bitLength)

/-- The number 1. -/
def one : Wide :=
  ⟨2 ^ (52 : Nat), -52⟩

/-- The exponent of two of the leading digit of a nonzero number. -/
def magnitude (x : Wide) : Int :=
  x.exponent + 53

/-- Numbers so small that sine, tangent and their inverses are the number itself. -/
def isTiny (x : Wide) : Bool :=
  x.mantissa = 0 || x.magnitude < -64

/-- The number in fixed point, for exponents that the precision covers. -/
def toFixed (p : Nat) (x : Wide) : Int :=
  x.mantissa * 2 ^ (x.exponent + p).toNat

/-- The logarithm of the size of a nonzero number, in fixed point. -/
def lnFixed (p : Nat) (x : Wide) : Int :=
  -- The number is `f · 2^k` with `2/3 < f ≤ 4/3`.
  let k := x.exponent + 52
  let f : Int := x.mantissa.natAbs * 2 ^ (p - 52)
  let (f, k) := if 4 * FixedPoint.one p < 3 * f then (f / 2, k + 1) else (f, k)
  let z := FixedPoint.div p (f - FixedPoint.one p) (f + FixedPoint.one p)
  k * FixedPoint.ln2 p + FixedPoint.doubleArtanh p z

/-- The logarithm of the size of a nonzero number. -/
def lnAbs (x : Wide) : Wide :=
  round (lnFixed 256 x) (-256)

/-- The natural logarithm, which only positive numbers have. -/
def ln? (x : Wide) : Option Wide :=
  if x.mantissa ≤ 0 then none else some (lnAbs x)

/-- The exponential of a number in fixed point. -/
def expFixed (p : Nat) (y : Int) : Wide :=
  let ln2 := FixedPoint.ln2 p
  let k := (2 * y + ln2) / (2 * ln2)
  round (FixedPoint.exp p (y - k * ln2)) (k - p)

/-- A mantissa cut to `digits` binary digits, and its exponent. -/
def cut (digits m : Nat) (e : Int) : Nat × Int :=
  let excess := bitLength m - digits
  (m / 2 ^ excess, e + excess)

/-- `m^n · 2^(e n)` to `digits` binary digits, by the binary digits of `n`, lowest first; `rounds`
is at least their number. -/
def powerDigits (digits : Nat) : (rounds : Nat) → (m : Nat) → (e : Int) → (n : Nat) → Nat × Int
  | 0, _, _, _ => (1, 0)
  | rounds + 1, m, e, n =>
    if n = 0 then (1, 0)
    else
      let square := cut digits (m * m) (2 * e)
      let rest := powerDigits digits rounds square.1 square.2 (n / 2)
      if n % 2 = 0 then rest else cut digits (m * rest.1) (e + rest.2)

/-- The power of a nonzero number to a whole exponent. -/
def powInt (x : Wide) (n : Int) : Wide :=
  let digits := 160 + 2 * bitLength n.natAbs
  let (m, e) := powerDigits digits (bitLength n.natAbs) x.mantissa.natAbs x.exponent n.natAbs
  let sign : Int := if x.mantissa < 0 ∧ n % 2 = 1 then -1 else 1
  if 0 ≤ n then round (sign * m) e else ofQuotient sign m (-e)

/-- The whole number that a number is. -/
def toInt? (x : Wide) : Option Int :=
  if 0 ≤ x.exponent then some (x.mantissa * 2 ^ x.exponent.toNat)
  else if x.mantissa = 0 then some 0
  else if x.exponent < -53 then none
  else
    let unit : Nat := 2 ^ (-x.exponent).toNat
    if x.mantissa % unit = 0 then some (x.mantissa / unit) else none

/-- The power of a positive number to any exponent, as the exponential of a multiple of its
logarithm. -/
def powReal (x y : Wide) : Wide :=
  let size := y.magnitude + bitLength x.exponent.natAbs + 8
  if size < -200 then one
  else
    let p := 256 + 2 * size.toNat
    let product := y.mantissa * lnFixed p x
    let scaled :=
      if 0 ≤ y.exponent then product * 2 ^ y.exponent.toNat
      else product / 2 ^ (-y.exponent).toNat
    expFixed p scaled

/-- The power, where it is a finite real number; the power to 0 is 1. -/
def pow? (x y : Wide) : Option Wide :=
  if y.isZero then some one
  else if x.isZero then (if y.isNegative then none else some zero)
  else
    match y.toInt? with
    | some n => some (powInt x n)
    | none => if x.isNegative then none else some (powReal x y)

/-- Sine and cosine in fixed point, and the precision, of a number that is not tiny. -/
def sinCos (x : Wide) : Int × Int × Nat :=
  let p := 256 + x.magnitude.toNat
  let fixed := x.toFixed p
  let halfPi := FixedPoint.pi p / 2
  let quarter := (2 * fixed + halfPi) / (2 * halfPi)
  let rest := fixed - quarter * halfPi
  let s := FixedPoint.sin p rest
  let c := FixedPoint.cos p rest
  if quarter % 4 = 0 then (s, c, p)
  else if quarter % 4 = 1 then (c, -s, p)
  else if quarter % 4 = 2 then (-s, -c, p)
  else (-c, s, p)

/-- The sine. -/
def sin (x : Wide) : Wide :=
  if x.isTiny then x
  else
    let (s, _, p) := sinCos x
    round s (-p)

/-- The cosine. -/
def cos (x : Wide) : Wide :=
  if x.isTiny then one
  else
    let (_, c, p) := sinCos x
    round c (-p)

/-- The tangent. -/
def tan (x : Wide) : Wide :=
  if x.isTiny then x
  else
    let (s, c, _) := sinCos x
    ofQuotient (if c < 0 then -s else s) c.natAbs 0

/-- The angle, between 0 and π/2, whose tangent is the quotient of two numbers that are not
negative and not both 0. -/
def angle (p : Nat) (opposite adjacent : Int) : Int :=
  if opposite ≤ adjacent then FixedPoint.arctan p (FixedPoint.div p opposite adjacent)
  else FixedPoint.pi p / 2 - FixedPoint.arctan p (FixedPoint.div p adjacent opposite)

/-- A fixed-point number with the sign of `x`, rounded. -/
def roundLike (x : Wide) (p : Nat) (value : Int) : Wide :=
  round (if x.mantissa < 0 then -value else value) (-p)

/-- The inverse tangent. -/
def atan (x : Wide) : Wide :=
  if x.isTiny then x
  else roundLike x 256 (angle 256 (x.abs.toFixed 256) (FixedPoint.one 256))

/-- The inverse sine of the size of a number between -1 and 1, in fixed point. -/
def asinFixed (p : Nat) (x : Wide) : Int :=
  let opposite := x.abs.toFixed p
  let one := FixedPoint.one p
  angle p opposite (FixedPoint.sqrt p (FixedPoint.mul p (one - opposite) (one + opposite)))

/-- Whether the number lies between -1 and 1. -/
def isUnit (x : Wide) : Bool :=
  x.mantissa = 0 || x.exponent < -52 || (x.exponent = -52 && x.mantissa.natAbs = 2 ^ (52 : Nat))

/-- The inverse sine, which numbers between -1 and 1 have. -/
def asin? (x : Wide) : Option Wide :=
  if !x.isUnit then none
  else if x.isTiny then some x
  else some (roundLike x 256 (asinFixed 256 x))

/-- The inverse cosine, which numbers between -1 and 1 have. -/
def acos? (x : Wide) : Option Wide :=
  if !x.isUnit then none
  else
    let halfPi := FixedPoint.pi 256 / 2
    if x.isTiny then some (round halfPi (-256))
    else
      let s := asinFixed 256 x
      some (round (if x.mantissa < 0 then halfPi + s else halfPi - s) (-256))

end LiveSheet.Wide
