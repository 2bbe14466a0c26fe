import LiveSheet.Wide.Basic

/-!
# Elementary functions in fixed point

Exponential, logarithm and trigonometric functions as sums of their series in fixed point: the
integer `n` stands for `n · 2^-p`, where `p` is the precision. Quotients are cut off towards 0, so
that the terms of a series come to 0 from either side. Each sum ends when its terms vanish
at that precision; `p + 10` terms are enough for all of them, because every argument is reduced so
far that a term has at most half the size of the one before.
-/

namespace LiveSheet.FixedPoint

-- Powers are those of the numbers themselves, also where monoids are in scope.
attribute [local instance (2000)] instPowNat

/-- The number 1. -/
def one (p : Nat) : Int :=
  2 ^ p

/-- The product. -/
def mul (p : Nat) (x y : Int) : Int :=
  (x * y).tdiv (2 ^ p)

/-- The quotient. -/
def div (p : Nat) (x y : Int) : Int :=
  (x * 2 ^ p).tdiv y

/-- The square root. -/
def sqrt (p : Nat) (x : Int) : Int :=
  Wide.floorSqrt (x.toNat * 2 ^ p)

/-- `Σ sign^i · power · factor^i / (2k + 2i + 1)`: the tail from index `k` of the series of the
inverse tangent (`sign = -1`) or of the inverse hyperbolic tangent (`sign = 1`). -/
def oddSeries (p : Nat) (sign factor : Int) : (terms : Nat) → (power : Int) → (k : Nat) → Int
  | 0, _, _ => 0
  | terms + 1, power, k =>
    if power = 0 then 0
    else power.tdiv (2 * k + 1) + oddSeries p sign factor terms (sign * mul p power factor) (k + 1)

/-- The inverse tangent of `1 / n`. -/
def arctanInverse (p n : Nat) : Int :=
  let first := one p / n
  oddSeries p (-1) (one p / (n * n)) (p + 10) first 0

/-- π, by Machin's formula. -/
def pi (p : Nat) : Int :=
  let q := p + 16
  (16 * arctanInverse q 5 - 4 * arctanInverse q 239) / 2 ^ (16 : Nat)

/-- Twice the inverse hyperbolic tangent of a number of at most 1/3. -/
def doubleArtanh (p : Nat) (z : Int) : Int :=
  2 * oddSeries p 1 (mul p z z) (p + 10) z 0

/-- The logarithm of 2. -/
def ln2 (p : Nat) : Int :=
  let q := p + 16
  doubleArtanh q (one q / 3) / 2 ^ (16 : Nat)

/-- The series of the exponential function from the term `term` with index `k` on. -/
def expSeries (p : Nat) (x : Int) : (terms : Nat) → (term : Int) → (k : Nat) → Int
  | 0, _, _ => 0
  | terms + 1, term, k =>
    if term = 0 then 0 else term + expSeries p x terms ((mul p term x).tdiv (k + 1)) (k + 1)

/-- Squares a number `n` times. -/
def squareTimes (p : Nat) : (n : Nat) → Int → Int
  | 0, x => x
  | n + 1, x => squareTimes p n (mul p x x)

/-- The exponential of a number between -1 and 1. -/
def exp (p : Nat) (x : Int) : Int :=
  let q := p + 32
  let reduced := x * 2 ^ (32 : Nat) / 2 ^ (8 : Nat)
  squareTimes q 8 (expSeries q reduced (q + 10) (one q) 0) / 2 ^ (32 : Nat)

/-- The series of sine (from `k = 1`) or cosine (from `k = 0`), whose terms alternate and grow by
the square of the argument over `(k + 1) (k + 2)`. -/
def alternatingSeries (p : Nat) (square : Int) : (terms : Nat) → (term : Int) → (k : Nat) → Int
  | 0, _, _ => 0
  | terms + 1, term, k =>
    if term = 0 then 0
    else
      term + alternatingSeries p square terms
        (-(mul p term square).tdiv ((k + 1) * (k + 2) : Nat)) (k + 2)

/-- The sine of a number between -1 and 1. -/
def sin (p : Nat) (x : Int) : Int :=
  alternatingSeries p (mul p x x) (p + 10) x 1

/-- The cosine of a number between -1 and 1. -/
def cos (p : Nat) (x : Int) : Int :=
  alternatingSeries p (mul p x x) (p + 10) (one p) 0

/-- Halves the angle of an inverse tangent `n` times: `x ↦ x / (1 + √(1 + x²))`. -/
def halveAngle (p : Nat) : (n : Nat) → Int → Int
  | 0, x => x
  | n + 1, x => halveAngle p n (div p x (one p + sqrt p (one p + mul p x x)))

/-- The inverse tangent of a number between 0 and 1. -/
def arctan (p : Nat) (x : Int) : Int :=
  let q := p + 32
  let z := halveAngle q 3 (x * 2 ^ (32 : Nat))
  8 * oddSeries q (-1) (mul q z z) (q + 10) z 0 / 2 ^ (32 : Nat)

end LiveSheet.FixedPoint
