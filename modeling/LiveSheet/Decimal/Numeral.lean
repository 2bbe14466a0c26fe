import LiveSheet.Binary64.Basic
import LiveSheet.Decimal.Unsigned
import LiveSheet.Text.Blank
import LiveSheet.Text.Digit

/-!
# Reading numerals

Two readers. `numeralPrefix?` takes a signed decimal numeral off the front of a text and ignores
what follows, as a cell with a unit or a comment behind its number is read. `readNumeral?` wants a
numeral and nothing else, but knows more of them: digits of every script, single underscores
between digits, and the words for infinity and `nan`. Both read to the nearest binary64 number,
infinite beyond the range.
-/

namespace LiveSheet.Decimal

open Text

/-- The sign at the front of a text, and the rest. -/
def takeSign : List Char → Bool × List Char
  | '-' :: cs => (true, cs)
  | '+' :: cs => (false, cs)
  | cs => (false, cs)

/-- The exponent at the front of a text, 0 if there is none with a digit, and the rest. -/
def takeExponent (cs : List Char) : Int × List Char :=
  match cs with
  | c :: rest =>
    if c == 'e' || c == 'E' then
      let (negative, rest) := takeSign rest
      let ds := rest.takeWhile isDigit
      if ds.isEmpty then (0, cs)
      else
        let n : Int := digitsValue ds
        (if negative then -n else n, rest.dropWhile isDigit)
    else (0, cs)
  | [] => (0, cs)

/-- The binary64 number nearest to `± digits · 10^scale`. -/
def nearest (negative : Bool) (digits : Nat) (scale : Int) : Float :=
  let magnitude := Float.ofScientific digits (scale < 0) scale.natAbs
  if negative then -magnitude else magnitude

/-- The value of the numeral at the front of a text, and the rest. -/
def takeNumeral? (cs : List Char) : Option (Float × List Char) := do
  let (negative, cs) := takeSign cs
  let (numeral, cs) ← takeNumber? cs
  let (exponent, cs) := takeExponent cs
  pure (nearest negative (digitsValue numeral) (exponent - places numeral), cs)

/-- The value of the signed numeral that a text starts with, after blanks. -/
def numeralPrefix? (s : String) : Option Float :=
  (takeNumeral? (s.toList.dropWhile isBlank)).map (·.1)

/-- The text without blanks at its ends. -/
def trimBlanks (cs : List Char) : List Char :=
  ((cs.dropWhile isBlank).reverse.dropWhile isBlank).reverse

/-- ASCII digits for the digits of other scripts. -/
def withAsciiDigits (cs : List Char) : List Char :=
  cs.map fun c =>
    match digitValue? c with
    | some d => Nat.digitChar d
    | none => c

/-- Takes out single underscores between digits; `none` if one stands elsewhere. -/
def dropUnderscores? : (afterDigit : Bool) → List Char → Option (List Char)
  | _, [] => some []
  | afterDigit, '_' :: cs =>
    match cs with
    | d :: _ => if afterDigit && isDigit d then dropUnderscores? false cs else none
    | [] => none
  | _, c :: cs => (dropUnderscores? (isDigit c) cs).map (c :: ·)

/-- The value of a word for infinity or `nan`. -/
def specialValue? (negative : Bool) (cs : List Char) : Option Float :=
  let word := String.ofList (cs.map Char.toLower)
  if word == "inf" || word == "infinity" then some (Binary64.infinity negative)
  else if word == "nan" then some Binary64.nan
  else none

/-- The value of a text that is a numeral from end to end, blanks around it apart. -/
def readNumeral? (s : String) : Option Float := do
  let cs ← dropUnderscores? false (withAsciiDigits (trimBlanks s.toList))
  let (negative, word) := takeSign cs
  match specialValue? negative word with
  | some x => some x
  | none =>
    match takeNumeral? cs with
    | some (x, []) => some x
    | _ => none

end LiveSheet.Decimal
