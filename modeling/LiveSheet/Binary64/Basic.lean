/-!
# The binary64 numbers as dyadic fractions

A finite `Float` is `± m · 2^e` with natural `m < 2^53`. `decode` reads sign, mantissa and exponent
off the bits, and `ofDyadic` goes back, from any mantissa and exponent, to the nearest binary64
number with ties to the even mantissa: into the subnormal numbers below, to infinity above. All
exact arithmetic of the library passes through this pair, so no rule depends on how a `Float`
prints or is rounded elsewhere.
-/

namespace LiveSheet.Binary64

-- Powers are those of the numbers themselves, also where monoids are in scope.
attribute [local instance (2000)] instPowNat

/-- What the bits of a number say. -/
inductive Decoded where
  | notANumber
  | infinite (negative : Bool)
  | finite (negative : Bool) (mantissa : Nat) (exponent : Int)
deriving Repr, DecidableEq

/-- Sign, mantissa and exponent of a number: it is `± mantissa · 2^exponent` if it is finite. -/
def decode (x : Float) : Decoded :=
  let bits := x.toBits.toNat
  let negative := 2 ^ (63 : Nat) ≤ bits
  let biased : Nat := bits / 2 ^ (52 : Nat) % 2 ^ (11 : Nat)
  let fraction : Nat := bits % 2 ^ (52 : Nat)
  if biased = 2047 then
    if fraction = 0 then .infinite negative else .notANumber
  else if biased = 0 then .finite negative fraction (-1074)
  else .finite negative (2 ^ (52 : Nat) + fraction) ((biased : Int) - 1075)

/-- The quotient rounded to the nearest natural number, a half to the even neighbour. -/
def roundDiv (n d : Nat) : Nat :=
  let q := n / d
  let r := n % d
  if 2 * r < d then q
  else if 2 * r = d then q + q % 2
  else q + 1

/-- The number of binary digits, 0 for 0. -/
def bitLength (n : Nat) : Nat :=
  if n = 0 then 0 else n.log2 + 1

/-- `m · 2^-s` rounded to the nearest natural number, a half to the even neighbour. -/
def roundShift (m s : Nat) : Nat :=
  if bitLength m < s then 0 else roundDiv m (2 ^ s)

/-- Positive or negative infinity. -/
def infinity (negative : Bool) : Float :=
  Float.ofBits (UInt64.ofNat ((if negative then 2 ^ (63 : Nat) else 0) + 2047 * 2 ^ (52 : Nat)))

/-- The value that stands for no number. -/
def nan : Float :=
  Float.ofBits (UInt64.ofNat (2047 * 2 ^ (52 : Nat) + 2 ^ (51 : Nat)))

/-- The binary64 number nearest to `± m · 2^e`, with ties to the even mantissa. -/
def ofDyadic (negative : Bool) (m : Nat) (e : Int) : Float :=
  let sign := if negative then 2 ^ (63 : Nat) else 0
  -- The exponent of the last place: 53 digits, or fewer at the bottom of the range.
  let last := max (e + bitLength m - 53) (-1074)
  if m = 0 then Float.ofBits (UInt64.ofNat sign)
  else if 971 < last then infinity negative
  else
    let mantissa :=
      if last ≤ e then m * 2 ^ (e - last).toNat else roundShift m (last - e).toNat
    -- A mantissa that rounds up to `2^53` carries into the exponent field by itself.
    let magnitude := (last + 1074).toNat * 2 ^ (52 : Nat) + mantissa
    Float.ofBits (UInt64.ofNat (sign + min magnitude (2047 * 2 ^ (52 : Nat))))

/-- The binary64 number nearest to an integer, infinite beyond the range. -/
def ofInt (n : Int) : Float :=
  ofDyadic (n < 0) n.natAbs 0

/-- Whether the number is neither infinite nor `nan`. -/
def isFinite (x : Float) : Bool :=
  match decode x with
  | .finite .. => true
  | _ => false

/-- A finite number as a multiple of the least positive one, `2^-1074`, and 0 for the others. -/
def units (x : Float) : Int :=
  match decode x with
  | .finite negative m e =>
    let n : Int := m * 2 ^ (e + 1074).toNat
    if negative then -n else n
  | _ => 0

/-- The greatest whole number that is not above `x`; infinities and `nan` as they are. -/
def floor (x : Float) : Float :=
  match decode x with
  | .finite negative m e =>
    if 0 ≤ e then x
    else
      let unit := 2 ^ (-e).toNat
      let whole := if negative then (m + unit - 1) / unit else m / unit
      ofDyadic negative whole 0
  | _ => x

/-- The remainder of the division of `x` by `y` that is truncated to a whole number: exact, with the
sign of `x`. -/
def remainder (x y : Float) : Float :=
  match decode x, decode y with
  | .finite negative m e, .finite _ n f =>
    if n = 0 then nan
    else
      let last := min e f
      ofDyadic negative (m * 2 ^ (e - last).toNat % (n * 2 ^ (f - last).toNat)) last
  | .finite .., .infinite _ => x
  | _, _ => nan

end LiveSheet.Binary64
