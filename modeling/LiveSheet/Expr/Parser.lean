import LiveSheet.Expr
import LiveSheet.Text.Quoted
import LiveSheet.Token

/-!
# From tokens to an expression

The grammar of expressions:

    sum     := product (('+' | '-') product)*
    product := power (('*' | '/' | '%') power)*
    power   := factor ('^' power)?
    factor  := '-' factor | number | reference | constant
             | function '(' (sum (',' sum)*)? ')' | '(' sum ')'

Strict reading accepts this grammar and says what is wrong with anything else. Lenient reading makes
an expression of every list of tokens: it puts 0 for a missing operand, does without a missing
closing parenthesis, takes a stray token for a reference of that name, and leaves tokens behind the
expression unread. The two are one parser that differs only in `Reading.repair`, the place where
strict reading stops.

Every part of the parser returns the tokens it has not read with a proof that there are no more of
them than before; so the parser ends, by the number of tokens and then the level of the grammar.
-/

namespace LiveSheet

/-- What strict reading finds wrong with a list of tokens. -/
inductive ParseError where
  /-- The tokens end where an operand has to come. -/
  | missingOperand
  /-- A group that is not closed. -/
  | unclosedGroup
  /-- A call that is not closed. -/
  | unclosedCall (name : String)
  /-- A token where an operand has to come. -/
  | strayToken (text : String)
  /-- A token behind the end of the expression. -/
  | leftoverToken (text : String)
deriving Repr, DecidableEq

namespace ParseError

/-- The message of an error. -/
def message : ParseError → String
  | missingOperand => "Expression ends where an operand is expected"
  | unclosedGroup => "Unmatched '('"
  | unclosedCall name => "Unclosed call to " ++ name
  | strayToken text => "Unexpected " ++ Text.quoted text
  | leftoverToken text => "Unexpected " ++ Text.quoted text ++ " after the expression"

/-- The token that the error is about. -/
def token? : ParseError → Option String
  | missingOperand => none
  | unclosedGroup => some "("
  | unclosedCall _ => some "("
  | strayToken text => some text
  | leftoverToken text => some text

end ParseError

/-- Whether what is wrong is an error or is repaired. -/
inductive Reading where
  | strict
  | lenient
deriving Repr, DecidableEq

/-- Goes on with a repaired value, unless the reading is strict. -/
def Reading.repair {α : Type} : Reading → ParseError → α → Except ParseError α
  | strict, e, _ => .error e
  | lenient, _, repaired => .ok repaired

namespace Expr

/-- A part of an expression that has been read off `ts`, and the tokens that come after it. -/
structure Parsed (α : Type) (ts : List Token) where
  value : α
  rest : List Token
  length_rest_le : rest.length ≤ ts.length

namespace Parsed

variable {α β : Type} {ts us : List Token}

/-- Reads nothing. -/
def unread (value : α) (ts : List Token) : Parsed α ts :=
  ⟨value, ts, Nat.le_refl _⟩

/-- The same part, as one of a longer list of tokens. -/
def widen (p : Parsed α us) (h : us.length ≤ ts.length) : Parsed α ts :=
  ⟨p.value, p.rest, Nat.le_trans p.length_rest_le h⟩

/-- The same part with another value. -/
def map (f : α → β) (p : Parsed α ts) : Parsed β ts :=
  ⟨f p.value, p.rest, p.length_rest_le⟩

end Parsed

/-- Reads a closing parenthesis, the lack of which is the error `e`. -/
def closing (reading : Reading) (e : ParseError) (ts : List Token) :
    Except ParseError (Parsed Unit ts) :=
  match ts with
  | t :: us =>
    if t.isCloseParen then .ok ⟨(), us, Nat.le_succ _⟩
    else reading.repair e (.unread () (t :: us))
  | [] => reading.repair e (.unread () [])

mutual

/-- Reads a sum. -/
def parseSum (reading : Reading) (ts : List Token) : Except ParseError (Parsed Expr ts) :=
  match parseProduct reading ts with
  | .error e => .error e
  | .ok first =>
    have := first.length_rest_le
    match parseSumTail reading first.value first.rest with
    | .error e => .error e
    | .ok all => .ok (all.widen first.length_rest_le)
termination_by 8 * ts.length + 5

/-- Reads the terms that follow `left` in a sum. -/
def parseSumTail (reading : Reading) (left : Expr) (ts : List Token) :
    Except ParseError (Parsed Expr ts) :=
  match ts with
  | t :: us =>
    if t.isOperatorAmong ["+", "-"] then
      match parseProduct reading us with
      | .error e => .error e
      | .ok right =>
        have := right.length_rest_le
        match parseSumTail reading (.binary t.text left right.value) right.rest with
        | .error e => .error e
        | .ok all => .ok (all.widen (Nat.le_succ_of_le right.length_rest_le))
    else .ok (.unread left (t :: us))
  | [] => .ok (.unread left [])
termination_by 8 * ts.length + 4

/-- Reads a product. -/
def parseProduct (reading : Reading) (ts : List Token) : Except ParseError (Parsed Expr ts) :=
  match parsePower reading ts with
  | .error e => .error e
  | .ok first =>
    have := first.length_rest_le
    match parseProductTail reading first.value first.rest with
    | .error e => .error e
    | .ok all => .ok (all.widen first.length_rest_le)
termination_by 8 * ts.length + 3

/-- Reads the factors that follow `left` in a product. -/
def parseProductTail (reading : Reading) (left : Expr) (ts : List Token) :
    Except ParseError (Parsed Expr ts) :=
  match ts with
  | t :: us =>
    if t.isOperatorAmong ["*", "/", "%"] then
      match parsePower reading us with
      | .error e => .error e
      | .ok right =>
        have := right.length_rest_le
        match parseProductTail reading (.binary t.text left right.value) right.rest with
        | .error e => .error e
        | .ok all => .ok (all.widen (Nat.le_succ_of_le right.length_rest_le))
    else .ok (.unread left (t :: us))
  | [] => .ok (.unread left [])
termination_by 8 * ts.length + 2

/-- Reads a power; the exponent is a power again. -/
def parsePower (reading : Reading) (ts : List Token) : Except ParseError (Parsed Expr ts) :=
  match parseFactor reading ts with
  | .error e => .error e
  | .ok base =>
    match h : base.rest with
    | t :: us =>
      have hle : us.length + 1 ≤ ts.length := by
        simpa [h] using base.length_rest_le
      if t.isOperatorAmong ["^"] then
        match parsePower reading us with
        | .error e => .error e
        | .ok exponent =>
          .ok ((exponent.widen (Nat.le_of_succ_le hle)).map (.binary "^" base.value))
      else .ok base
    | [] => .ok base
termination_by 8 * ts.length + 1

/-- Reads an operand with the prefix operators before it. -/
def parseFactor (reading : Reading) (ts : List Token) : Except ParseError (Parsed Expr ts) :=
  match ts with
  | [] => reading.repair .missingOperand (.unread (.number "0") [])
  | t :: us =>
    match t.kind with
    | .number => .ok ⟨.number t.text, us, Nat.le_succ _⟩
    | .reference => .ok ⟨.reference t.text, us, Nat.le_succ _⟩
    | .constant => .ok ⟨.constant t.text, us, Nat.le_succ _⟩
    | .function =>
      match us with
      | [] => .ok ⟨.reference t.text, [], Nat.le_succ _⟩
      | p :: vs =>
        if p.isOpenParen then
          match parseArguments reading vs with
          | .error e => .error e
          | .ok args =>
            match closing reading (.unclosedCall t.text) args.rest with
            | .error e => .error e
            | .ok close =>
              .ok ⟨.call t.text args.value, close.rest, Nat.le_trans close.length_rest_le
                (Nat.le_trans args.length_rest_le (by simp; omega))⟩
        else .ok ⟨.reference t.text, p :: vs, Nat.le_succ _⟩
    | _ =>
      if t.isOperatorAmong ["-"] then
        match parseFactor reading us with
        | .error e => .error e
        | .ok operand => .ok ((operand.widen (Nat.le_succ _)).map (.prefixed "-"))
      else if t.isOpenParen then
        match parseSum reading us with
        | .error e => .error e
        | .ok inner =>
          match closing reading .unclosedGroup inner.rest with
          | .error e => .error e
          | .ok close =>
            .ok ⟨.group inner.value, close.rest, Nat.le_trans close.length_rest_le
              (Nat.le_succ_of_le inner.length_rest_le)⟩
      else reading.repair (.strayToken t.text) ⟨.reference t.text, us, Nat.le_succ _⟩
termination_by 8 * ts.length

/-- Reads the arguments of a call, perhaps none. -/
def parseArguments (reading : Reading) (ts : List Token) :
    Except ParseError (Parsed (List Expr) ts) :=
  match ts with
  | [] => .ok (.unread [] [])
  | t :: us =>
    if t.isCloseParen then .ok (.unread [] (t :: us))
    else
      match parseSum reading (t :: us) with
      | .error e => .error e
      | .ok first =>
        have : first.rest.length ≤ us.length + 1 := first.length_rest_le
        match parseArgumentsTail reading first.rest with
        | .error e => .error e
        | .ok more => .ok ((more.widen first.length_rest_le).map (first.value :: ·))
termination_by 8 * ts.length + 7

/-- Reads the arguments that follow the first one, each behind a comma. -/
def parseArgumentsTail (reading : Reading) (ts : List Token) :
    Except ParseError (Parsed (List Expr) ts) :=
  match ts with
  | [] => .ok (.unread [] [])
  | t :: us =>
    if t.kind = .comma then
      match parseSum reading us with
      | .error e => .error e
      | .ok next =>
        have := next.length_rest_le
        match parseArgumentsTail reading next.rest with
        | .error e => .error e
        | .ok more =>
          let widened : Parsed (List Expr) (t :: us) :=
            more.widen (Nat.le_succ_of_le next.length_rest_le)
          .ok (widened.map (next.value :: ·))
    else .ok (.unread [] (t :: us))
termination_by 8 * ts.length + 6

end

/-- Reads a list of tokens as one expression; no tokens at all are the number 0. -/
def parse (reading : Reading) (ts : List Token) : Except ParseError Expr :=
  if ts.isEmpty then .ok (.number "0")
  else
    match parseSum reading ts with
    | .error e => .error e
    | .ok p =>
      match p.rest with
      | [] => .ok p.value
      | t :: _ => reading.repair (.leftoverToken t.text) p.value

end Expr

end LiveSheet
