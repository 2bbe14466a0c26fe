import LiveSheet.Decimal.Numeral
import LiveSheet.Table
import LiveSheet.Value

/-!
# Reading values from JSON

`Value.ofJson?` reads a JSON text as a value. A number without point and exponent is a whole number
of any size, other numbers are read to the nearest binary64 number; the names `NaN`, `Infinity` and
`-Infinity` are taken too. Of two entries of a mapping with one key the later one counts.

Each part of the reader returns the characters that it has not read. It gets fuel for every
character of the text, and each of its steps reads at least one character or ends.
-/

namespace LiveSheet.Value

namespace JsonReader

open Decimal (isDigit digitsValue takeExponent takePoint places nearest)

/-- Skips the white space of JSON. -/
def skipBlanks (cs : List Char) : List Char :=
  cs.dropWhile fun c => c == ' ' || c == '\t' || c == '\n' || c == '\r'

/-- Takes a word off the front of a text. -/
def takeWord? : (word : List Char) → List Char → Option (List Char)
  | [], cs => some cs
  | _ :: _, [] => none
  | w :: word, c :: cs => if w == c then takeWord? word cs else none

/-- The value of a hexadecimal digit. -/
def hexDigit? (c : Char) : Option Nat :=
  if isDigit c then some (c.toNat - '0'.toNat)
  else if 'a' ≤ c && c ≤ 'f' then some (c.toNat - 'a'.toNat + 10)
  else if 'A' ≤ c && c ≤ 'F' then some (c.toNat - 'A'.toNat + 10)
  else none

/-- The sixteen-bit unit that four hexadecimal digits write, and the rest. -/
def takeUnit? : List Char → Option (Nat × List Char)
  | a :: b :: c :: d :: cs => do
    let a ← hexDigit? a
    let b ← hexDigit? b
    let c ← hexDigit? c
    let d ← hexDigit? d
    pure (((a * 16 + b) * 16 + c) * 16 + d, cs)
  | _ => none

/-- The character of an escape by code unit: two units can make up one character. -/
def takeEscapedUnit? (cs : List Char) : Option (Char × List Char) := do
  let (high, cs) ← takeUnit? cs
  let single := (Char.ofNat (if 0xd800 ≤ high ∧ high < 0xe000 then 0xfffd else high), cs)
  match cs with
  | '\\' :: 'u' :: more =>
    if 0xd800 ≤ high ∧ high < 0xdc00 then
      match takeUnit? more with
      | some (low, rest) =>
        if 0xdc00 ≤ low ∧ low < 0xe000 then
          pure (Char.ofNat (0x10000 + (high - 0xd800) * 0x400 + (low - 0xdc00)), rest)
        else pure single
      | none => pure single
    else pure single
  | _ => pure single

/-- The character that a letter behind a backslash stands for. -/
def escaped? (c : Char) : Option Char :=
  if c == '"' || c == '\\' || c == '/' then some c
  else if c == 'b' then some (Char.ofNat 0x8)
  else if c == 'f' then some (Char.ofNat 0xc)
  else if c == 'n' then some '\n'
  else if c == 'r' then some '\r'
  else if c == 't' then some '\t'
  else none

/-- The characters of a string up to its closing quote, and the rest. -/
def takeString? : (fuel : Nat) → List Char → Option (List Char × List Char)
  | 0, _ => none
  | _ + 1, [] => none
  | fuel + 1, c :: cs =>
    if c == '"' then some ([], cs)
    else if c.toNat < 0x20 then none
    else if c == '\\' then
      match cs with
      | 'u' :: cs => do
        let (c, cs) ← takeEscapedUnit? cs
        let (rest, cs) ← takeString? fuel cs
        pure (c :: rest, cs)
      | c :: cs => do
        let c ← escaped? c
        let (rest, cs) ← takeString? fuel cs
        pure (c :: rest, cs)
      | [] => none
    else do
      let (rest, cs) ← takeString? fuel cs
      pure (c :: rest, cs)

/-- The whole digits of a number: no zero leads more digits. -/
def takeWhole? (cs : List Char) : Option (List Char × List Char) :=
  match cs with
  | '0' :: cs => some (['0'], cs)
  | cs =>
    match cs.takeWhile isDigit with
    | [] => none
    | ds => some (ds, cs.dropWhile isDigit)

/-- The number at the front of a text, and the rest. -/
def takeNumber? (cs : List Char) : Option (Value × List Char) := do
  let (negative, cs) := match cs with
    | '-' :: cs => (true, cs)
    | cs => (false, cs)
  let (whole, cs) ← takeWhole? cs
  -- A point that no digit follows is not part of the number, nor is an `e` without digits.
  let (fraction, afterFraction) := match takePoint cs with
    | ('.' :: d :: ds, cs) => ('.' :: d :: ds, cs)
    | _ => ([], cs)
  let (exponent, rest) := takeExponent afterFraction
  if fraction.isEmpty ∧ rest.length = afterFraction.length then
    let n : Int := digitsValue whole
    pure (.int (if negative then -n else n), rest)
  else
    let numeral := whole ++ fraction
    pure (.float (nearest negative (digitsValue numeral) (exponent - places numeral)), rest)

/-- The words of JSON and what they stand for. -/
def words : List (String × Value) :=
  [ ("null", .null), ("true", .bool true), ("false", .bool false), ("NaN", .float Binary64.nan),
    ("Infinity", .float (Binary64.infinity false)),
    ("-Infinity", .float (Binary64.infinity true)) ]

/-- The word at the front of a text, and the rest. -/
def takeNamed? (cs : List Char) : Option (Value × List Char) :=
  words.findSome? fun (word, v) => (takeWord? word.toList cs).map (v, ·)

mutual

/-- The value at the front of a text, and the rest. -/
def takeValue? : (fuel : Nat) → List Char → Option (Value × List Char)
  | 0, _ => none
  | fuel + 1, cs =>
    match cs with
    | [] => none
    | c :: more =>
      if c == '"' then (takeString? (more.length + 1) more).map fun (s, cs) =>
        (.text (String.ofList s), cs)
      else if c == '[' then
        match skipBlanks more with
        | ']' :: cs => some (.list [], cs)
        | cs => (takeItems? fuel cs).map fun (items, cs) => (.list items, cs)
      else if c.toNat == 0x7b then
        match skipBlanks more with
        | d :: cs =>
          if d.toNat == 0x7d then some (.map [], cs)
          else (takeEntries? fuel [] (d :: cs)).map fun (entries, cs) => (.map entries, cs)
        | [] => none
      else
        match takeNamed? cs with
        | some found => some found
        | none => takeNumber? cs

/-- The items of a list up to its closing bracket, and the rest. -/
def takeItems? : (fuel : Nat) → List Char → Option (List Value × List Char)
  | 0, _ => none
  | fuel + 1, cs => do
    let (item, cs) ← takeValue? fuel cs
    match skipBlanks cs with
    | ',' :: cs =>
      let (items, cs) ← takeItems? fuel (skipBlanks cs)
      pure (item :: items, cs)
    | ']' :: cs => pure ([item], cs)
    | _ => none

/-- The entries of a mapping up to its closing brace, after those already read, and the rest. -/
def takeEntries? : (fuel : Nat) → List (String × Value) → List Char →
    Option (List (String × Value) × List Char)
  | 0, _, _ => none
  | fuel + 1, entries, cs =>
    match cs with
    | '"' :: cs => do
      let (key, cs) ← takeString? (cs.length + 1) cs
      match skipBlanks cs with
      | ':' :: cs =>
        let (v, cs) ← takeValue? fuel (skipBlanks cs)
        let entries := Table.insertEntry (String.ofList key) v entries
        match skipBlanks cs with
        | ',' :: cs => takeEntries? fuel entries (skipBlanks cs)
        | c :: cs => if c.toNat == 0x7d then pure (entries, cs) else none
        | [] => none
      | _ => none
    | _ => none

end

end JsonReader

open JsonReader in
/-- The value that a JSON text writes. -/
def ofJson? (s : String) : Option Value :=
  let cs := s.toList
  match takeValue? (cs.length + 1) (skipBlanks cs) with
  | some (v, rest) => if (skipBlanks rest).isEmpty then some v else none
  | none => none

end LiveSheet.Value
