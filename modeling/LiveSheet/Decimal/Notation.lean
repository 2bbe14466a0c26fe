import LiveSheet.Decimal.Shortest

/-!
# Decimal notation of numbers

A `Style` says how the shortest digits of a number are set: from which exponents the decimal point
stands in its place and from which the number is written with a power of ten, how the power is
spelled, whether whole numbers keep a fraction, and the words for infinity and `nan`. `plain` is
the notation of messages, scopes and stored values, `display` the one of results that are shown.
-/

namespace LiveSheet.Decimal

open Binary64

/-- How a number is set from its digits. -/
structure Style where
  /-- The least exponent of ten that is written with the point in its place. -/
  lowest : Int
  /-- The least exponent above those. -/
  scientificFrom : Int
  /-- Whether a whole number ends in `.0`. -/
  keepsFraction : Bool
  /-- Whether zero shows its sign. -/
  signedZero : Bool
  /-- The least count of digits in the exponent. -/
  exponentWidth : Nat
  infinity : String
  notANumber : String
deriving Repr

/-- Numbers in text: the point stands in place for `10^-4 ≤ |x| < 10^16`, and a fraction is kept. -/
def plain : Style where
  lowest := -4
  scientificFrom := 16
  keepsFraction := true
  signedZero := true
  exponentWidth := 2
  infinity := "inf"
  notANumber := "nan"

/-- Numbers on display: the point stands in place for `10^-6 ≤ |x| < 10^21`. -/
def display : Style where
  lowest := -6
  scientificFrom := 21
  keepsFraction := false
  signedZero := false
  exponentWidth := 1
  infinity := "Infinity"
  notANumber := "NaN"

/-- An exponent with its sign and at least `width` digits. -/
def exponentChars (width : Nat) (e : Int) : List Char :=
  let ds := digitChars e.natAbs
  (if e < 0 then '-' else '+') :: List.replicate (width - ds.length) '0' ++ ds

/-- Digits with a point after the first one, if there are more. -/
def mantissaChars : List Char → List Char
  | [] => []
  | [d] => [d]
  | d :: ds => d :: '.' :: ds

/-- Digits `ds` with the point where `exponent` puts it, and `.0` after a whole number if asked. -/
def positionalChars (keepsFraction : Bool) (ds : List Char) (exponent : Int) : List Char :=
  if exponent < 0 then
    '0' :: '.' :: List.replicate (-exponent - 1).toNat '0' ++ ds
  else
    let width := exponent.toNat + 1
    let whole := ds.take width ++ List.replicate (width - ds.length) '0'
    match ds.drop width with
    | [] => if keepsFraction then whole ++ ['.', '0'] else whole
    | fraction => whole ++ '.' :: fraction

/-- The text of a positive number with the digits and exponent of `d`. -/
def Style.magnitude (style : Style) (d : Expansion) : List Char :=
  let ds := digitChars d.digits
  let exponent := d.exponent
  if style.lowest ≤ exponent ∧ exponent < style.scientificFrom then
    positionalChars style.keepsFraction ds exponent
  else
    mantissaChars ds ++ 'e' :: exponentChars style.exponentWidth exponent

/-- The text of a number: its shortest digits in the given style. -/
def Style.format (style : Style) (x : Float) : String :=
  match decode x with
  | .notANumber => style.notANumber
  | .infinite negative => if negative then "-" ++ style.infinity else style.infinity
  | .finite negative m e =>
    if m = 0 then
      let sign := if negative && style.signedZero then ['-'] else []
      String.ofList (sign ++ positionalChars style.keepsFraction ['0'] 0)
    else
      let sign := if negative then ['-'] else []
      String.ofList (sign ++ style.magnitude (shortest m e))

/-- A number as `places + 1` significant digits with a point after the first, and its exponent of
ten: exact value, ties to even. -/
structure Scientific where
  mantissa : String
  exponent : Int
deriving Repr, DecidableEq

/-- The scientific form of the finite number `± m · 2^e`. -/
def scientific (places : Nat) (negative : Bool) (m : Nat) (e : Int) : Scientific :=
  let d := significant places m e
  let ds := digitChars d.digits
  let padded := ds ++ List.replicate (places + 1 - ds.length) '0'
  ⟨String.ofList ((if negative then ['-'] else []) ++ mantissaChars padded),
    if m = 0 then 0 else d.exponent⟩

/-- A number in scientific form with the exponent after an `e`; infinities and `nan` in words. -/
def scientificText (places : Nat) (x : Float) : String :=
  match decode x with
  | .finite negative m e =>
    let s := scientific places negative m e
    s.mantissa ++ String.ofList ('e' :: exponentChars 2 s.exponent)
  | _ => plain.format x

end LiveSheet.Decimal
