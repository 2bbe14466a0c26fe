import LiveSheet.Value

/-!
# Results of nodes

A node holds a number or one of three error kinds, which pass on to the nodes that read it. An
error kind is stored as its text, so a text that spells one stands for it.
-/

namespace LiveSheet

/-- The results that are not numbers. -/
inductive ErrorKind where
  | error
  | selfReference
  | circularDependency
deriving Repr, DecidableEq

namespace ErrorKind

/-- The text that is stored and shown for an error kind. -/
def text : ErrorKind → String
  | error => "Error"
  | selfReference => "Self Reference"
  | circularDependency => "Circular Dependency"

/-- The error kind that a text spells. -/
def ofText? (s : String) : Option ErrorKind :=
  [error, selfReference, circularDependency].find? fun kind => kind.text == s

/-- The error kind that a value stands for. -/
def ofValue? : Value → Option ErrorKind
  | .text s => ofText? s
  | _ => none

/-- An error kind is told from its text. -/
theorem ofText?_text (kind : ErrorKind) : ofText? kind.text = some kind := by
  cases kind <;> rfl

end ErrorKind

/-- What a node comes to. -/
inductive Result where
  | number (x : Float)
  | failed (kind : ErrorKind)

namespace Result

/-- A node counts as 0 before it is computed. -/
instance : Inhabited Result :=
  ⟨.number 0⟩

/-- The value that the other nodes see. -/
def toValue : Result → Value
  | number x => .float x
  | failed kind => .text kind.text

end Result

end LiveSheet
