import LiveSheet.Decimal.Unsigned
import LiveSheet.Text.Blank
import LiveSheet.Text.LetterCase
import LiveSheet.Token

/-!
# Cutting a text into tokens

`pieces` cuts a text from left to right into tokens, gaps and unread characters. A number or a name
takes the longest run of characters that it can; spaces, tabs and line ends are gaps; a character
at which no token starts is left unread. The pieces written one after the other are the text.

A name with an opening parenthesis behind it, after white space of any kind, calls a function; any
other name that is known as a constant is one, and the rest refer to nodes. The names of functions
and constants are taken in small letters, those of nodes as they are.
-/

namespace LiveSheet

namespace Lexer

open Decimal

/-- A character that a name can start with. -/
def isNameStart (c : Char) : Bool :=
  ('a' ≤ c && c ≤ 'z') || ('A' ≤ c && c ≤ 'Z') || c == '_'

/-- A character that a name can go on with. -/
def isNameChar (c : Char) : Bool :=
  isNameStart c || isDigit c

/-- A character that separates tokens and is no part of one. -/
def isGap (c : Char) : Bool :=
  c == ' ' || c == '\t' || c == '\n'

/-- A character that is an operator. -/
def isOperatorChar (c : Char) : Bool :=
  c == '+' || c == '-' || c == '*' || c == '/' || c == '^' || c == '%'

/-- A part of a text: a token with its spelling, a gap, or a character that no token starts with. -/
inductive Piece where
  | token (t : Token) (spelling : List Char)
  | gap (c : Char)
  | unread (c : Char)
deriving Repr, DecidableEq

/-- The characters of a piece. -/
def Piece.chars : Piece → List Char
  | token _ spelling => spelling
  | gap c => [c]
  | unread c => [c]

/-- The longest name at the front of a text, and the rest. -/
def takeName? : List Char → Option (List Char × List Char)
  | [] => none
  | c :: cs =>
    if isNameStart c then some (c :: cs.takeWhile isNameChar, cs.dropWhile isNameChar) else none

/-- Whether an opening parenthesis comes next, after white space. -/
def parenFollows (cs : List Char) : Bool :=
  match cs.dropWhile Text.isBlank with
  | c :: _ => c == '('
  | [] => false

/-- The token that a name is, by what comes behind it and by the names of the constants. -/
def nameToken (isConstant : String → Bool) (name rest : List Char) : Token :=
  let spelling := String.ofList name
  if parenFollows rest then ⟨.function, Text.lowercase spelling⟩
  else if isConstant (Text.lowercase spelling) then ⟨.constant, Text.lowercase spelling⟩
  else ⟨.reference, spelling⟩

/-- The token of a single character. -/
def symbolToken? (c : Char) : Option Token :=
  if isOperatorChar c then some ⟨.operator, String.singleton c⟩
  else if c == '(' || c == ')' then some ⟨.parenthesis, String.singleton c⟩
  else if c == ',' then some ⟨.comma, String.singleton c⟩
  else none

/-- The first piece of a text that starts with `c`, and the rest. -/
def nextPiece (isConstant : String → Bool) (c : Char) (cs : List Char) : Piece × List Char :=
  if isGap c then (.gap c, cs)
  else
    match takeNumber? (c :: cs) with
    | some (digits, rest) => (.token ⟨.number, String.ofList digits⟩ digits, rest)
    | none =>
      match takeName? (c :: cs) with
      | some (name, rest) => (.token (nameToken isConstant name rest) name, rest)
      | none =>
        match symbolToken? c with
        | some t => (.token t [c], cs)
        | none => (.unread c, cs)

/-- Name and rest make up the text. -/
theorem takeName?_append {cs name rest : List Char}
    (h : takeName? cs = some (name, rest)) : name ++ rest = cs := by
  cases cs with
  | nil => simp [takeName?] at h
  | cons c cs =>
    rw [takeName?] at h
    split at h
    · obtain ⟨rfl, rfl⟩ := by simpa using h
      rw [List.cons_append, List.takeWhile_append_dropWhile]
    · simp at h

/-- A name holds at least one character. -/
theorem takeName?_ne_nil {cs name rest : List Char}
    (h : takeName? cs = some (name, rest)) : name ≠ [] := by
  cases cs with
  | nil => simp [takeName?] at h
  | cons c cs =>
    rw [takeName?] at h
    split at h
    · obtain ⟨rfl, -⟩ := by simpa using h
      simp
    · simp at h

/-- The first piece and the rest make up the text. -/
theorem chars_nextPiece (isConstant : String → Bool) (c : Char) (cs : List Char) :
    (nextPiece isConstant c cs).1.chars ++ (nextPiece isConstant c cs).2 = c :: cs := by
  unfold nextPiece
  split
  · rfl
  · split
    · next h => exact takeNumber?_append h
    · split
      · next h => exact takeName?_append h
      · split <;> rfl

/-- A piece holds at least one character. -/
theorem chars_nextPiece_ne_nil (isConstant : String → Bool) (c : Char) (cs : List Char) :
    (nextPiece isConstant c cs).1.chars ≠ [] := by
  unfold nextPiece
  split
  · simp [Piece.chars]
  · split
    · next h => exact takeNumber?_ne_nil h
    · split
      · next h => exact takeName?_ne_nil h
      · split <;> simp [Piece.chars]

/-- What comes after the first piece is shorter than the text. -/
theorem length_nextPiece_lt (isConstant : String → Bool) (c : Char) (cs : List Char) :
    (nextPiece isConstant c cs).2.length < (c :: cs).length := by
  have h := congrArg List.length (chars_nextPiece isConstant c cs)
  have hpos := List.length_pos_iff.2 (chars_nextPiece_ne_nil isConstant c cs)
  rw [List.length_append] at h
  omega

/-- The pieces of a text from left to right. -/
def pieces (isConstant : String → Bool) : List Char → List Piece
  | [] => []
  | c :: cs =>
    (nextPiece isConstant c cs).1 :: pieces isConstant (nextPiece isConstant c cs).2
termination_by cs => cs.length
decreasing_by exact length_nextPiece_lt isConstant c cs

end Lexer

/-- A token with the place that it has in a text, counted in characters. -/
structure Lexeme where
  token : Token
  start : Nat
  spelling : List Char
deriving Repr, DecidableEq

/-- The number of characters of a token in the text. -/
def Lexeme.length (l : Lexeme) : Nat :=
  l.spelling.length

namespace Lexer

/-- The tokens among pieces, the first of which starts at `start`. -/
def lexemesFrom : (start : Nat) → List Piece → List Lexeme
  | _, [] => []
  | start, .token t spelling :: ps =>
    ⟨t, start, spelling⟩ :: lexemesFrom (start + spelling.length) ps
  | start, p :: ps => lexemesFrom (start + p.chars.length) ps

/-- The characters that are left unread among pieces. -/
def unreadAmong (ps : List Piece) : List Char :=
  ps.filterMap fun
    | .unread c => some c
    | _ => none

/-- The tokens of a text with their places. -/
def lexemes (isConstant : String → Bool) (s : String) : List Lexeme :=
  lexemesFrom 0 (pieces isConstant s.toList)

/-- The tokens of a text. -/
def tokens (isConstant : String → Bool) (s : String) : List Token :=
  (lexemes isConstant s).map (·.token)

/-- The characters of a text, gaps apart, that belong to no token. -/
def unreadChars (isConstant : String → Bool) (s : String) : List Char :=
  unreadAmong (pieces isConstant s.toList)

end Lexer

/-- The names of the nodes that tokens refer to, each once, in order of first mention. -/
def referencesOf (ts : List Token) : List String :=
  ((ts.filter (·.kind == .reference)).map (·.text)).eraseDups

end LiveSheet
