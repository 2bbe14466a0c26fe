import LiveSheet.Decimal.Notation
import LiveSheet.Text.Quoted

/-!
# Values from outside

Scopes, stored records and settings hold what their authors wrote: nothing, truth values, whole
numbers of any size, binary64 numbers, texts, lists and mappings. `Value.text` is the text of a
value where it stands alone, `Value.quoted` inside a collection, and `Value.json` the form that
other programs read.
-/

namespace LiveSheet

/-- A value from outside. -/
inductive Value where
  | null
  | bool (b : Bool)
  | int (n : Int)
  | float (x : Float)
  | text (s : String)
  | list (items : List Value)
  | map (entries : List (String × Value))
deriving Inhabited

namespace Value

/-- The word for the kind of a value in messages. -/
def kindName : Value → String
  | null => "NoneType"
  | bool _ => "bool"
  | int _ => "int"
  | float _ => "float"
  | text _ => "str"
  | list _ => "list"
  | map _ => "dict"

/-- Whether the value counts as something: neither nothing, false, zero nor empty. -/
def isTruthy : Value → Bool
  | null => false
  | bool b => b
  | int n => n ≠ 0
  | float x => !(x == 0)
  | text s => !s.isEmpty
  | list items => !items.isEmpty
  | map entries => !entries.isEmpty

mutual

/-- The text of a value inside a collection: strings stand between quotes. -/
def quoted : Value → String
  | null => "None"
  | bool b => if b then "True" else "False"
  | int n => toString n
  | float x => Decimal.plain.format x
  | text s => Text.quoted s
  | list items => "[" ++ ", ".intercalate (quotedItems items) ++ "]"
  | map entries => "\x7b" ++ ", ".intercalate (quotedEntries entries) ++ "\x7d"

/-- The texts of the items of a list. -/
def quotedItems : List Value → List String
  | [] => []
  | v :: vs => quoted v :: quotedItems vs

/-- The texts of the entries of a mapping, each with its key before a colon. -/
def quotedEntries : List (String × Value) → List String
  | [] => []
  | (k, v) :: rest => (Text.quoted k ++ ": " ++ quoted v) :: quotedEntries rest

end

/-- The text of a value where it stands alone: a string is its own text. -/
def asText : Value → String
  | text s => s
  | v => quoted v

end Value

end LiveSheet
