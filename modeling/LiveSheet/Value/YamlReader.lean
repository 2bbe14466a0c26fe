import LiveSheet.Table
import LiveSheet.Value.JsonReader

/-!
# Reading values from YAML

`Value.ofYaml?` reads the part of YAML that settings are written in: block mappings and lists by
indentation, flow collections, quoted and plain scalars, and comments. A plain scalar is read by
its form as nothing, a truth value or a number where it has such a form, else as text. There is no
answer for what is malformed, nor for anchors, tags and block scalars.

Flow collections are read by characters and blocks by lines; either reader gets fuel for everything
that it is given.
-/

namespace LiveSheet.Value

namespace YamlReader

open Decimal (isDigit digitsValue takePoint takeSign takeExponent places nearest)

/-! ### Scalars -/

/-- The value of digits in a base, between which underlines may stand. -/
def digitsIn? (base : Nat) (cs : List Char) : Option Nat :=
  let digits := cs.filter (· != '_')
  if digits.isEmpty then none
  else digits.foldl
    (fun n c => do
      let d ← JsonReader.hexDigit? c
      if d < base then pure ((← n) * base + d) else none)
    (some 0)

/-- The whole number that a scalar without its sign writes. -/
def natural? : List Char → Option Nat
  | ['0'] => some 0
  | '0' :: 'b' :: cs => digitsIn? 2 cs
  | '0' :: 'x' :: cs => digitsIn? 16 cs
  | '0' :: cs => digitsIn? 8 cs
  | c :: cs => if isDigit c then digitsIn? 10 (c :: cs) else none
  | [] => none

/-- The number with a point that a scalar without its sign writes. An exponent has a sign. -/
def pointedOf? (negative : Bool) (cs : List Char) : Option Float :=
  let digits := cs.filter (· != '_')
  let whole := digits.takeWhile isDigit
  match digits.dropWhile isDigit with
  | '.' :: rest =>
    let fraction := rest.takeWhile isDigit
    let numeral := whole ++ '.' :: fraction
    let value (e : Int) := nearest negative (digitsValue numeral) (e - places numeral)
    if whole.isEmpty ∧ fraction.isEmpty then none
    else
      match rest.dropWhile isDigit with
      | [] => some (value 0)
      | e :: sign :: more =>
        if (e == 'e' || e == 'E') && (sign == '+' || sign == '-') then
          match takeExponent (e :: sign :: more) with
          | (exponent, []) => some (value exponent)
          | _ => none
        else none
      | _ => none
  | _ => none

/-- The number with a point that a scalar writes. One that starts with its point has no sign. -/
def pointed? (cs : List Char) : Option Float :=
  let (negative, unsigned) := takeSign cs
  match unsigned with
  | '.' :: d :: _ =>
    if isDigit d && unsigned.length = cs.length then pointedOf? negative unsigned else none
  | d :: _ => if isDigit d then pointedOf? negative unsigned else none
  | [] => none

/-- The special number that a scalar names. Infinity may have a sign. -/
def named? (cs : List Char) : Option Float :=
  let (negative, unsigned) := takeSign cs
  if String.ofList unsigned ∈ [".inf", ".Inf", ".INF"] then some (Binary64.infinity negative)
  else if String.ofList cs ∈ [".nan", ".NaN", ".NAN"] then some Binary64.nan
  else none

/-- What a plain scalar stands for. -/
def scalar (cs : List Char) : Value :=
  let word := String.ofList cs
  let (negative, unsigned) := takeSign cs
  if word ∈ ["", "~", "null", "Null", "NULL"] then .null
  else if word ∈ ["yes", "Yes", "YES", "true", "True", "TRUE", "on", "On", "ON"] then .bool true
  else if word ∈ ["no", "No", "NO", "false", "False", "FALSE", "off", "Off", "OFF"] then .bool false
  else
    match natural? unsigned with
    | some n => .int (if negative then -n else n)
    | none =>
      match (pointed? cs).orElse fun _ => named? cs with
      | some x => .float x
      | none => .text word

/-- A blank inside a line. -/
def isInlineBlank (c : Char) : Bool :=
  c == ' ' || c == '\t'

/-- A text without blanks at its ends. -/
def trim (cs : List Char) : List Char :=
  ((cs.dropWhile isInlineBlank).reverse.dropWhile isInlineBlank).reverse

/-- The characters that no plain scalar starts with. -/
def isIndicator (c : Char) : Bool :=
  [',', '[', ']', '#', '&', '*', '!', '|', '>', '"', '%', '@'].contains c ||
    [0x27, 0x60, 0x7b, 0x7d].contains c.toNat

/-- Whether a colon ends a key here. -/
def endsKey : List Char → Bool
  | ':' :: [] => true
  | ':' :: c :: _ => isInlineBlank c
  | _ => false

/-- Whether a key stands inside a plain scalar, which may not be. -/
def holdsKey : List Char → Bool
  | [] => false
  | c :: cs => endsKey (c :: cs) || holdsKey cs

/-- The value of a plain scalar, unless something in it is not allowed. -/
def plain? (cs : List Char) : Option Value :=
  match cs with
  | [] => some .null
  | c :: rest =>
    let startsBlock := (c == '-' || c == '?') && (rest.head?.map isInlineBlank).getD true
    if isIndicator c || startsBlock || holdsKey cs then none else some (scalar cs)

/-- The text between single quotes up to the closing one, and the rest. A doubled quote stands for
one. -/
def takeSingle? : List Char → Option (List Char × List Char)
  | [] => none
  | c :: cs =>
    if c.toNat = 0x27 then
      match cs with
      | d :: more =>
        if d.toNat = 0x27 then (takeSingle? more).map fun (s, rest) => (c :: s, rest)
        else some ([], cs)
      | [] => some ([], [])
    else (takeSingle? cs).map fun (s, rest) => (c :: s, rest)

/-- The quoted text at the front, and the rest. -/
def takeQuoted? (cs : List Char) : Option (String × List Char) :=
  match cs with
  | c :: more =>
    if c == '"' then
      (JsonReader.takeString? (more.length + 1) more).map fun (s, rest) => (String.ofList s, rest)
    else if c.toNat = 0x27 then (takeSingle? more).map fun (s, rest) => (String.ofList s, rest)
    else none
  | [] => none

/-! ### Flow collections -/

/-- The plain text at the front of a flow collection, and the rest. -/
def takeFlowText : List Char → List Char × List Char
  | [] => ([], [])
  | c :: cs =>
    if [',', '[', ']'].contains c || [0x7b, 0x7d].contains c.toNat || endsKey (c :: cs) then
      ([], c :: cs)
    else
      let (s, rest) := takeFlowText cs
      (c :: s, rest)

/-- The scalar at the front of a flow collection, and the rest. -/
def takeFlowScalar? (cs : List Char) : Option (Value × List Char) :=
  match takeQuoted? cs with
  | some (s, rest) => some (.text s, rest)
  | none =>
    let (s, rest) := takeFlowText cs
    match trim s with
    | [] => none
    | c :: s => (plain? (c :: s)).map (·, rest)

/-- What follows a colon behind a key, unless there is no colon. -/
def afterColon? : List Char → Option (List Char)
  | ':' :: cs => some cs
  | _ => none

mutual

/-- The value at the front of a flow text, and the rest. -/
def takeFlow? : (fuel : Nat) → List Char → Option (Value × List Char)
  | 0, _ => none
  | fuel + 1, cs =>
    match cs.dropWhile isInlineBlank with
    | [] => none
    | c :: more =>
      if c == '[' then (takeFlowItems? fuel more).map fun (items, rest) => (.list items, rest)
      else if c.toNat = 0x7b then
        (takeFlowEntries? fuel [] more).map fun (entries, rest) => (.map entries, rest)
      else takeFlowScalar? (c :: more)

/-- The items of a flow list up to its closing bracket, and the rest. -/
def takeFlowItems? : (fuel : Nat) → List Char → Option (List Value × List Char)
  | 0, _ => none
  | fuel + 1, cs =>
    match cs.dropWhile isInlineBlank with
    | ']' :: rest => some ([], rest)
    | cs => do
      let (item, cs) ← takeFlow? fuel cs
      match cs.dropWhile isInlineBlank with
      | ',' :: cs =>
        let (items, cs) ← takeFlowItems? fuel cs
        pure (item :: items, cs)
      | ']' :: cs => pure ([item], cs)
      | _ => none

/-- The entries of a flow mapping up to its closing brace, after those already read, and the
rest. -/
def takeFlowEntries? : (fuel : Nat) → List (String × Value) → List Char →
    Option (List (String × Value) × List Char)
  | 0, _, _ => none
  | fuel + 1, entries, cs =>
    match cs.dropWhile isInlineBlank with
    | [] => none
    | c :: more =>
      if c.toNat = 0x7d then some (entries, more)
      else do
        let (key, cs) ← takeFlowScalar? (c :: more)
        let (v, cs) ← match afterColon? (cs.dropWhile isInlineBlank) with
          | some cs =>
            match cs.dropWhile isInlineBlank with
            | [] => none
            | d :: cs =>
              if d == ',' || d.toNat = 0x7d then some (Value.null, d :: cs)
              else takeFlow? fuel (d :: cs)
          | none => some (Value.null, cs)
        let entries := Table.insertEntry key.asText v entries
        match cs.dropWhile isInlineBlank with
        | ',' :: cs => takeFlowEntries? fuel entries cs
        | d :: cs => if d.toNat = 0x7d then pure (entries, cs) else none
        | [] => none

end

/-! ### Lines -/

/-- A line that is not blank. -/
structure Line where
  indent : Nat
  text : List Char

/-- The part of a line before its comment. A comment starts a line or follows a blank, and stands in
no quotes. -/
def withoutComment : (quote : Option Char) → (atStart : Bool) → List Char → List Char
  | _, _, [] => []
  | some q, _, c :: cs => c :: withoutComment (if c == q then none else some q) false cs
  | none, atStart, c :: cs =>
    if atStart && c == '#' then []
    else
      let opens := atStart && (c == '"' || c.toNat = 0x27)
      let starts := isInlineBlank c || [',', '[', ':'].contains c || c.toNat = 0x7b
      c :: withoutComment (if opens then some c else none) starts cs

/-- The lines of a text that are not blank, without comments. A tab cannot indent. -/
def lines? (text : List Char) : Option (List Line) :=
  let rows := (String.ofList (text.filter (· != '\r'))).splitOn "\n"
  rows.foldr
    (fun row ls => do
      let cs := withoutComment none true row.toList
      let body := trim cs
      if body.isEmpty then ls
      else
        let indent := (cs.takeWhile (· == ' ')).length
        if (cs.drop indent).head? == some '\t' then none else pure (⟨indent, body⟩ :: (← ls)))
    (some [])

/-- The plain text before the colon of a key, and what follows the colon. -/
def takePlainKey? : List Char → Option (List Char × List Char)
  | [] => none
  | c :: cs =>
    if endsKey (c :: cs) then some ([], cs)
    else (takePlainKey? cs).map fun (key, rest) => (c :: key, rest)

/-- The key of a line and what follows it, if the line has one. -/
def takeKey? (cs : List Char) : Option (String × List Char) :=
  match takeQuoted? cs with
  | some (key, rest) =>
    let rest := rest.dropWhile isInlineBlank
    if endsKey rest then some (key, trim (rest.drop 1)) else none
  | none =>
    match cs with
    | [] => none
    | c :: _ =>
      if isIndicator c then none
      else (takePlainKey? cs).map fun (key, rest) => ((scalar (trim key)).asText, trim rest)

/-- What follows the dash of a list item, with the place where it starts. -/
def takeDash? : List Char → Option (Nat × List Char)
  | '-' :: rest =>
    match rest with
    | [] => some (1, [])
    | c :: _ =>
      if isInlineBlank c then
        some (1 + (rest.takeWhile isInlineBlank).length, rest.dropWhile isInlineBlank)
      else none
  | _ => none

/-- The value of a text that nothing follows: quoted, flow or plain. -/
def whole? (cs : List Char) : Option Value :=
  match cs with
  | [] => some .null
  | c :: _ =>
    if c == '"' || c.toNat = 0x27 then
      match takeQuoted? cs with
      | some (s, []) => some (.text s)
      | _ => none
    else if c == '[' || c.toNat = 0x7b then
      match takeFlow? (cs.length + 1) cs with
      | some (v, rest) => if (trim rest).isEmpty then some v else none
      | none => none
    else plain? cs

/-- The value that starts with a text and may go on in lines that are indented further. -/
def continued? (parent : Option Nat) : (body : List Char) → List Line →
    Option (Value × List Line)
  | body, [] => (whole? body).map (·, [])
  | body, l :: ls =>
    if parent.all (· < l.indent) then continued? parent (body ++ ' ' :: l.text) ls
    else (whole? body).map (·, l :: ls)

mutual

/-- The value in the first lines, which stand further in than their parent, and the other lines. -/
def takeBlock? : (fuel : Nat) → (parent : Option Nat) → List Line → Option (Value × List Line)
  | 0, _, _ => none
  | _ + 1, _, [] => some (.null, [])
  | fuel + 1, parent, l :: ls =>
    if !parent.all (· < l.indent) then some (.null, l :: ls)
    else if (takeDash? l.text).isSome then
      (takeItems? fuel l.indent (l :: ls)).map fun (items, rest) => (.list items, rest)
    else if (takeKey? l.text).isSome then
      (takeEntries? fuel l.indent [] (l :: ls)).map fun (entries, rest) => (.map entries, rest)
    else continued? parent l.text ls

/-- The items of a list at an indentation, and the other lines. -/
def takeItems? : (fuel : Nat) → (indent : Nat) → List Line → Option (List Value × List Line)
  | 0, _, _ => none
  | _ + 1, _, [] => some ([], [])
  | fuel + 1, indent, l :: ls =>
    if l.indent ≠ indent then some ([], l :: ls)
    else
      match takeDash? l.text with
      | none => some ([], l :: ls)
      | some (width, body) => do
        let inner := if body.isEmpty then ls else ⟨indent + width, body⟩ :: ls
        let (item, ls) ← takeBlock? fuel (some indent) inner
        let (items, ls) ← takeItems? fuel indent ls
        pure (item :: items, ls)

/-- The entries of a mapping at an indentation, after those already read, and the other lines. -/
def takeEntries? : (fuel : Nat) → (indent : Nat) → List (String × Value) → List Line →
    Option (List (String × Value) × List Line)
  | 0, _, _, _ => none
  | _ + 1, _, entries, [] => some (entries, [])
  | fuel + 1, indent, entries, l :: ls =>
    if l.indent ≠ indent then some (entries, l :: ls)
    else do
      let (key, body) ← takeKey? l.text
      let (v, ls) ←
        if !body.isEmpty then continued? (some indent) body ls
        else
          match ls with
          | next :: _ =>
            -- The items of a list may stand as far out as the key that it belongs to.
            if next.indent = indent ∧ (takeDash? next.text).isSome then
              (takeItems? fuel indent ls).map fun (items, rest) => (Value.list items, rest)
            else takeBlock? fuel (some indent) ls
          | [] => some (.null, [])
      takeEntries? fuel indent (Table.insertEntry key v entries) ls

end

end YamlReader

open YamlReader in
/-- The value that a YAML text writes. -/
def ofYaml? (s : String) : Option Value := do
  let ls ← lines? s.toList
  let ls := match ls with
    | ⟨0, ['-', '-', '-']⟩ :: rest => rest
    | ls => ls
  let (v, rest) ← takeBlock? (2 * s.length + 2) none ls
  if rest.isEmpty then pure v else none

end LiveSheet.Value
