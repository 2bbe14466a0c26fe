import LiveSheet.Latex.Markup
import LiveSheet.Result.Rounding

/-!
# Results on display

A number is shown in plain notation while neither its whole part nor its fraction is too long, and
else as a mantissa times a power of ten. Everything else is shown as text, without the characters
that would end it.
-/

namespace LiveSheet.Latex

/-- How long a number may be before it is shown with a power of ten. -/
structure DisplayLimits where
  /-- The greatest length of the whole part. -/
  wholeDigits : Int := 6
  /-- The greatest length of the fraction. -/
  fractionDigits : Int := 3
  /-- The decimals of the mantissa. -/
  mantissaDigits : Int := 4
deriving Repr, DecidableEq

/-- Text inside a formula, without backslashes and braces. -/
def textual (s : String) : String :=
  let safe := s.toList.filter fun c => c != '\\' && c.toNat != 0x7b && c.toNat != 0x7d
  "\\text" ++ braced (String.ofList safe)

/-- The characters behind the first point of a text. -/
def fractionChars (s : List Char) : List Char :=
  (s.dropWhile (· != '.')).drop 1

/-- A number as a mantissa times a power of ten. -/
def timesPowerOfTen (places : Nat) (negative : Bool) (m : Nat) (e : Int) : String :=
  let s := Decimal.scientific places negative m e
  s.mantissa ++ " \\times 10^" ++
    braced (String.ofList (Decimal.exponentChars 1 s.exponent))

/-- The LaTeX of a number. -/
def displayNumber (limits : DisplayLimits) (x : Float) : Except NumberError String :=
  let shown := Decimal.display.format x
  match Binary64.decode x with
  | .finite negative m e =>
    let whole := (Decimal.display.format (Binary64.floor x.abs)).length
    let fraction := (fractionChars shown.toList).length
    if limits.wholeDigits < whole || limits.fractionDigits < fraction then
      if limits.mantissaDigits < 0 then .error .negativePlaces
      else .ok (timesPowerOfTen limits.mantissaDigits.toNat negative m e)
    else .ok shown
  | _ => .ok (textual shown)

/-- The LaTeX of a result: a number by its size, any other value as text. -/
def displayValue (limits : DisplayLimits) : Value → Except NumberError String
  | .int n =>
    match Value.floatOfInt n with
    | .ok x => displayNumber limits x
    | .error e => .error e
  | .float x => displayNumber limits x
  | v => .ok (textual v.asText)

end LiveSheet.Latex
