import LiveSheet.Result
import LiveSheet.Value.Number

/-!
# Rounding of results

The number that a node keeps: what its expression comes to, rounded half up to the decimals that
the settings ask for. A number that is too large to be scaled is kept as it is, and everything that
is no finite number becomes the error kind `Error`.
-/

namespace LiveSheet

-- Powers are those of the numbers themselves, also where monoids are in scope.
attribute [local instance (2000)] instPowNat

/-- A setting that is a number of some kind. -/
inductive Numeric where
  | bool (b : Bool)
  | int (n : Int)
  | float (x : Float)

namespace Numeric

/-- The setting as a value. -/
def toValue : Numeric → Value
  | bool b => .bool b
  | int n => .int n
  | float x => .float x

/-- The numeric setting that a value is. -/
def ofValue? : Value → Option Numeric
  | .bool b => some (.bool b)
  | .int n => some (.int n)
  | .float x => some (.float x)
  | _ => none

/-- The number of a setting, where truth counts as 1. -/
def toFloat : Numeric → Except NumberError Float
  | bool b => .ok (if b then 1 else 0)
  | int n => Value.floatOfInt n
  | float x => .ok x

/-- Whether the setting is below 0. -/
def isNegative : Numeric → Bool
  | bool _ => false
  | int n => n < 0
  | float x => x < 0

end Numeric

/-- The power of ten of a finite exponent: exact up to `10^22`. -/
def powerOfTen (exponent : Float) : Float :=
  match Binary64.decode exponent with
  | .finite false m e =>
    if 0 ≤ e ∨ m % 2 ^ (-e).toNat ≠ 0 then Float.pow 10 exponent
    else
      let n := m / 2 ^ (-e).toNat
      if n ≤ 22 then Float.ofScientific (10 ^ n) false 0 else Float.pow 10 exponent
  | _ => Float.pow 10 exponent

/-- The factor that brings the decimals to be kept before the point. -/
def scaleFactor (precision : Numeric) : Except NumberError Float :=
  match precision.toFloat with
  | .error e => .error e
  | .ok exponent =>
    let factor := powerOfTen exponent
    if Binary64.isFinite exponent && factor.isInf then .error .precisionRange else .ok factor

/-- The number rounded half up to the decimals of `precision`, or as it is if it is too large to be
scaled. -/
def roundHalfUp (x : Float) (precision : Numeric) : Except NumberError Float :=
  match scaleFactor precision with
  | .error e => .error e
  | .ok factor =>
    let scaled := x * factor
    if Binary64.isFinite scaled then .ok (Binary64.floor (scaled + 0.5) / factor) else .ok x

/-- The binary64 number that a value is or that its text writes out. -/
def Value.toFloat : Value → Except NumberError Float
  | .null => .error (.notNumeric "NoneType")
  | .bool b => .ok (if b then 1 else 0)
  | .int n => floatOfInt n
  | .float x => .ok x
  | .text s =>
    match Decimal.readNumeral? s with
    | some x => .ok x
    | none => .error (.unreadable s)
  | v => .error (.notNumeric v.kindName)

/-- The result that a node keeps of an evaluated value. -/
def Result.finalize (precision : Numeric) : Value → Except NumberError Result
  | .null => .ok (.failed .error)
  | .text _ => .ok (.failed .error)
  | v =>
    match v.toFloat with
    | .error e => .error e
    | .ok x =>
      if Binary64.isFinite x then (roundHalfUp x precision).map Result.number
      else .ok (.failed .error)

end LiveSheet
