import LiveSheet.Value

/-!
# Stored nodes

A sheet is stored as a list of records, each with the header and the expression of a node. What
else a record holds is ignored, and what is no text is read as its text. A record without header
leaves it to the sheet to make one.
-/

namespace LiveSheet

/-- A stored node. -/
structure Record where
  header : Option String := none
  expression : String := ""
deriving Repr, DecidableEq

/-- Why stored nodes cannot be read. -/
inductive RecordsError where
  /-- There is no list. -/
  | notAList (v : Value)
  /-- An item of the list is no record. -/
  | notARecord (index : Nat) (v : Value)

/-- The message of an error. -/
def RecordsError.message : RecordsError → String
  | notAList v => "Expected a list of records, got " ++ v.kindName
  | notARecord index v => "Record " ++ toString index ++ " is not a mapping: " ++ v.quoted

namespace Record

/-- The text of an entry that is there and not null. -/
def textOf? (entries : List (String × Value)) (key : String) : Option String :=
  match entries.lookup key with
  | none => none
  | some .null => none
  | some v => some v.asText

/-- The record with the given entries. -/
def ofEntries (entries : List (String × Value)) : Record :=
  ⟨textOf? entries "header", (textOf? entries "expression").getD ""⟩

/-- The stored form of a record. -/
def toValue (r : Record) : Value :=
  .map [ ("header", (r.header.map Value.text).getD .null), ("expression", .text r.expression) ]

/-- The records of list items, the first of which has the given index. -/
def ofItems : (index : Nat) → List Value → Except RecordsError (List Record)
  | _, [] => .ok []
  | index, .map entries :: rest => (ofItems (index + 1) rest).map (ofEntries entries :: ·)
  | index, v :: _ => .error (.notARecord index v)

/-- The records that a value stores. -/
def ofStored : Value → Except RecordsError (List Record)
  | .list items => ofItems 0 items
  | v => .error (.notAList v)

end Record

end LiveSheet
