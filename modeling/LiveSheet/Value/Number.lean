import LiveSheet.Decimal.Numeral
import LiveSheet.Value

/-!
# Values as numbers

`Value.coerce` reads a value as the number that an expression computes with: numbers as they are,
texts and collections by the numeral that their text starts with, and 0 for everything that is no
finite number. Only a whole number beyond the binary64 range is refused.
-/

namespace LiveSheet

/-- Why a value or a setting cannot be used in a computation. -/
inductive NumberError where
  /-- A whole number that is beyond the binary64 range. -/
  | oversized
  /-- A number token whose text is no numeral. -/
  | unreadable (text : String)
  /-- A precision whose power of ten is beyond the binary64 range. -/
  | precisionRange
  /-- A negative count of digits. -/
  | negativePlaces
  /-- A value of a kind that has no number. -/
  | notNumeric (kind : String)
deriving Repr, DecidableEq

/-- The message of an error. -/
def NumberError.message : NumberError → String
  | .oversized => "int too large to convert to float"
  | .unreadable text => "could not convert string to float: " ++ Text.quoted text
  | .precisionRange => "(34, 'Numerical result out of range')"
  | .negativePlaces => "Format specifier missing precision"
  | .notNumeric kind => "float() argument must be a string or a real number, not '" ++ kind ++ "'"

namespace Value

/-- The binary64 number nearest to an integer, if it is in range. -/
def floatOfInt (n : Int) : Except NumberError Float :=
  let x := Binary64.ofInt n
  if Binary64.isFinite x then .ok x else .error .oversized

/-- The number itself if it is finite, else 0. -/
def finiteOrZero (x : Float) : Float :=
  if Binary64.isFinite x then x else 0

/-- The number that an expression computes with when it reads the value. -/
def coerce : Value → Except NumberError Float
  | null => .ok 0
  | bool _ => .ok 0
  | int n => floatOfInt n
  | float x => .ok (finiteOrZero x)
  | v =>
    match Decimal.numeralPrefix? v.asText with
    | some x => .ok (finiteOrZero x)
    | none => .ok 0

end Value

end LiveSheet
