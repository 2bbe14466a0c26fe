import LiveSheet.Value

/-!
# Values in JSON

The compact form of a value that cache keys are made of: a comma and a blank between items,
characters outside the visible ASCII ones by their sixteen-bit units, numbers in plain notation
and `NaN` and `Infinity` by name.
-/

namespace LiveSheet.Value

/-- The escape of one sixteen-bit unit. -/
def unitEscape (n : Nat) : List Char :=
  '\\' :: 'u' :: Text.hexDigits 4 n

/-- One character inside a JSON string. -/
def jsonChar (c : Char) : List Char :=
  let n := c.toNat
  if c == '"' || c == '\\' then ['\\', c]
  else if c == '\n' then ['\\', 'n']
  else if c == '\r' then ['\\', 'r']
  else if c == '\t' then ['\\', 't']
  else if n == 0x8 then ['\\', 'b']
  else if n == 0xc then ['\\', 'f']
  else if 0x20 ≤ n && n ≤ 0x7e then [c]
  else if n < 0x10000 then unitEscape n
  else unitEscape (0xd800 + (n - 0x10000) / 0x400) ++ unitEscape (0xdc00 + (n - 0x10000) % 0x400)

/-- A JSON string. -/
def jsonString (s : String) : String :=
  String.ofList ('"' :: s.toList.flatMap jsonChar ++ ['"'])

/-- Numbers in JSON: plain notation, with the special values by name. -/
def jsonNumber : Decimal.Style :=
  { Decimal.plain with infinity := "Infinity", notANumber := "NaN" }

mutual

/-- The JSON text of a value. -/
def json : Value → String
  | null => "null"
  | bool b => if b then "true" else "false"
  | int n => toString n
  | float x => jsonNumber.format x
  | text s => jsonString s
  | list items => "[" ++ ", ".intercalate (jsonItems items) ++ "]"
  | map entries => "\x7b" ++ ", ".intercalate (jsonEntries entries) ++ "\x7d"

/-- The JSON texts of the items of a list. -/
def jsonItems : List Value → List String
  | [] => []
  | v :: vs => json v :: jsonItems vs

/-- The JSON texts of the entries of a mapping. -/
def jsonEntries : List (String × Value) → List String
  | [] => []
  | (k, v) :: rest => (jsonString k ++ ": " ++ json v) :: jsonEntries rest

end

end LiveSheet.Value
