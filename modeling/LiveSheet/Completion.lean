import LiveSheet.Position
import LiveSheet.Registry
import LiveSheet.Text.Blank
import LiveSheet.Value

/-!
# Completion at the cursor

While an expression is typed, the name before the cursor is looked up among functions, constants
and nodes, and a suggestion that is taken stands in its place. A function comes with a placeholder
for its arguments, `( )` or `( , )`, and `nextSlot?` says where the cursor goes from there.
-/

namespace LiveSheet

/-- What a suggested name is the name of. -/
inductive Suggestion.Kind where
  | function
  | constant
  | node
deriving Repr, DecidableEq

/-- A name that is offered for completion. -/
structure Suggestion where
  label : String
  kind : Suggestion.Kind
deriving Repr, DecidableEq

namespace Completion

open Position (before after)

/-- The name at the end of a text, which one line break may follow. -/
def nameAtEnd (s : List Char) : List Char :=
  let reversed := match s.reverse with
    | '\n' :: rest => rest
    | rest => rest
  (reversed.takeWhile Lexer.isNameChar).reverse.dropWhile Decimal.isDigit

/-- The name that is being typed before the cursor, which is at the end if it is not given. -/
def nameBefore (text : String) (cursor : Option Int) : String :=
  let s := text.toList
  String.ofList (nameAtEnd (before s (cursor.getD s.length)))

/-- The place for the arguments of a function of which the registry may know the arity. -/
def placeholder (r : Registry) (name : String) : List Char :=
  match r.function? name with
  | some rule => if 1 < rule.arity.least then ['(', ' ', ',', ' ', ')'] else ['(', ' ', ')']
  | none => ['(', ' ', ')']

/-- What follows a call without arguments at the front of a text. -/
def afterEmptyCall? : List Char → Option (List Char)
  | '(' :: rest =>
    match rest.dropWhile Text.isBlank with
    | ')' :: rest => some rest
    | _ => none
  | _ => none

/-- The text and the caret after a suggestion is taken at the cursor. It replaces the name before
the cursor. A function gets a placeholder, with the caret inside, instead of a call without
arguments or where no call follows. -/
def complete (r : Registry) (text : String) (cursor : Option Int) (s : Suggestion) :
    String × Int :=
  let cs := text.toList
  let place : Int := cursor.getD cs.length
  let start := place - (nameAtEnd (before cs place)).length
  let inserted := before cs start ++ s.label.toList ++ after cs place
  let caret := start + s.label.length
  let head := before inserted caret
  let tail := after inserted caret
  let withPlaceholder (rest : List Char) : String × Int :=
    (String.ofList (head ++ placeholder r s.label ++ rest), caret + 1)
  let asItIs : String × Int := (String.ofList inserted, caret)
  match s.kind with
  | .function =>
    match tail with
    | '(' :: _ =>
      match afterEmptyCall? tail with
      | some rest => withPlaceholder rest
      | none => asItIs
    | _ => withPlaceholder tail
  | _ => asItIs

/-- Where the caret goes inside the call around the cursor: behind the comma after the nearest
opening parenthesis and the blank that follows it, or else behind the closing parenthesis. -/
def nextSlot? (text : String) (cursor : Int) : Option Int := do
  let s := text.toList
  let opening ← Position.last? '(' (before s (cursor + 1))
  let closing ← Position.first? ')' opening s
  match Position.first? ',' opening s with
  | some comma =>
    if cursor ≤ comma then some (comma + 2)
    else if cursor ≤ closing then some (closing + 1)
    else none
  | none => if cursor ≤ closing then some (closing + 1) else none

/-- Whether a name starts as it was typed, in letters of any case. -/
def isStart (typed name : String) : Bool :=
  (Text.lowercase typed).toList.isPrefixOf (Text.lowercase name).toList

/-- The functions, the constants and the nodes whose names start as it was typed. -/
def candidates (r : Registry) (headers : List (Option String)) (typed : String) :
    List Suggestion :=
  let named (kind : Suggestion.Kind) (names : List String) : List Suggestion :=
    (names.filter (isStart typed)).map fun name => ⟨name, kind⟩
  let headers := headers.filterMap fun header => header.filter (!·.isEmpty)
  named .function r.functions.keys ++ named .constant r.constants.keys ++
    named .node headers.eraseDups

/-- So many items as a limit allows; a negative limit counts the items that are left out. -/
def shorten? {α : Type} (limit : Value) (xs : List α) : Option (List α) :=
  match limit with
  | .null => some xs
  | .int n => some (before xs n)
  | .bool b => some (before xs (if b then 1 else 0))
  | _ => none

/-- The suggestions for what was typed, up to a limit; none are made for nothing. If the limit is
no whole number, there is no answer. -/
def suggestions? (r : Registry) (headers : List (Option String)) (limit : Value)
    (typed : String) : Option (List Suggestion) :=
  if (Text.lowercase typed).isEmpty then some []
  else shorten? limit (candidates r headers typed)

end Completion

end LiveSheet
