import LiveSheet.Latex.Markup
import LiveSheet.Proofs.Respelling

/-!
# Reading formulas

`Latex.read` reads a formula by the usual rule, which knows nothing of how formulas are set:

    sum      := product (('+' | '-') product)*
    product  := signed (('\cdot' | '\bmod') signed)*
    signed   := '-' signed | power
    power    := atom ('^' '{' sum '}')?
    atom     := number | name | name '\left(' (sum (',\,' sum)*)? '\right)' | '\pi'
              | '\left(' sum '\right)' | '\frac' '{' sum '}' '{' sum '}' | '\sqrt' '{' sum '}'
              | '\log_' '{' sum '}' '\left(' sum '\right)' | '\sin' '\left(' sum '\right)' | ...

A superscript binds tighter than a minus sign in front, and a second superscript behind the first
one is no formula. Each rule is a reader made of the one for what is between brackets, and `readSum`
puts itself there. What it reads next is shorter each time, or is not read.

A piece of a formula is read as a tree if it is whatever comes behind, as far as that does not go on
with the piece (`ReadsAtom`, `ReadsSigned`, `ReadsOperand`). In a chain of operators, which groups
to the left, it is the loop behind the piece that goes on (`ReadsChain`). From pieces that are read
as trees, formulas are put together that are read as the trees of these trees.
-/

namespace LiveSheet.Latex

open Decimal (takeNumber? EndsNumber)
open Lexer (takeName? takeName?_shape isNameStart isNameChar)

/-! ### Signs and control words -/

/-- What comes behind blanks. -/
def skip (cs : List Char) : List Char :=
  cs.dropWhile (· == ' ')

/-- The rest behind a sign, if that comes next. -/
def sign? (sign : Char) (cs : List Char) : Option (List Char) :=
  match skip cs with
  | c :: rest => if c = sign then some rest else none
  | [] => none

/-- What a control word says. -/
inductive Command where
  | opening
  | closing
  | fraction
  | root
  | logarithm
  | constant (name : String)
  | function (name : String)
  | operator (symbol : String)
deriving Repr, DecidableEq

/-- The control words. -/
def commands : List (String × Command) :=
  [ ("\\left", .opening), ("\\right", .closing), ("\\frac", .fraction), ("\\sqrt", .root),
    ("\\log", .logarithm), ("\\pi", .constant "pi"), ("\\cdot", .operator "*"),
    ("\\bmod", .operator "%"), ("\\sin", .function "sin"), ("\\cos", .function "cos"),
    ("\\tan", .function "tan"), ("\\ln", .function "ln"), ("\\arcsin", .function "asin"),
    ("\\arccos", .function "acos"), ("\\arctan", .function "atan") ]

/-- A letter of a control word. -/
def isLetter (c : Char) : Bool :=
  ('a' ≤ c && c ≤ 'z') || ('A' ≤ c && c ≤ 'Z')

/-- What the control word says that comes next, and the rest. -/
def command? (cs : List Char) : Option (Command × List Char) :=
  match skip cs with
  | '\\' :: rest =>
    (commands.find? fun entry => entry.1.toList = '\\' :: rest.takeWhile isLetter).map fun entry =>
      (entry.2, rest.dropWhile isLetter)
  | _ => none

/-- The rest behind an opening parenthesis. -/
def opening? (cs : List Char) : Option (List Char) :=
  match command? cs with
  | some (.opening, rest) => sign? '(' rest
  | _ => none

/-- The rest behind a closing parenthesis. -/
def closing? (cs : List Char) : Option (List Char) :=
  match command? cs with
  | some (.closing, rest) => sign? ')' rest
  | _ => none

/-- The rest behind a comma and the space that follows it. -/
def separator? (cs : List Char) : Option (List Char) :=
  match sign? ',' cs with
  | some ('\\' :: ',' :: rest) => some rest
  | _ => none

/-- The chains of operators that group to the left. -/
inductive Chain where
  | sum
  | product
deriving Repr, DecidableEq

/-- The operator of a chain that comes next, and the rest. -/
def Chain.operator? : Chain → List Char → Option (String × List Char)
  | .sum, cs =>
    match skip cs with
    | '+' :: rest => some ("+", rest)
    | '-' :: rest => some ("-", rest)
    | _ => none
  | .product, cs =>
    match command? cs with
    | some (.operator symbol, rest) => some (symbol, rest)
    | _ => none

/-! ### Formulas -/

/-- Reads something off the front of a text, and leaves the rest. -/
abbrev Reader (α : Type) :=
  List Char → Option (α × List Char)

section

variable (inner : Reader Expr)

/-- Reads a formula between braces. -/
def readBraced : Reader Expr := fun cs => do
  let rest ← sign? '\x7b' cs
  let (e, rest) ← inner rest
  let rest ← sign? '\x7d' rest
  some (e, rest)

/-- Reads a formula between parentheses. -/
def readFenced : Reader Expr := fun cs => do
  let rest ← opening? cs
  let (e, rest) ← inner rest
  let rest ← closing? rest
  some (e, rest)

/-- Reads the arguments that follow the first one, and the closing parenthesis. -/
def readArgumentsTail (cs : List Char) : Option (List Expr × List Char) :=
  match separator? cs with
  | some rest => do
    let (next, rest) ← inner rest
    if rest.length < cs.length then
      let (more, rest) ← readArgumentsTail rest
      some (next :: more, rest)
    else none
  | none => do
    let rest ← closing? cs
    some ([], rest)
termination_by cs.length

/-- Reads the arguments of a call up to the closing parenthesis, perhaps none. -/
def readArguments : Reader (List Expr) := fun cs =>
  match closing? cs with
  | some rest => some ([], rest)
  | none => do
    let (first, rest) ← inner cs
    let (more, rest) ← readArgumentsTail inner rest
    some (first :: more, rest)

/-- Reads an atom. -/
def readAtom : Reader Expr := fun cs =>
  match command? cs with
  | some (.opening, _) => do
    let (e, rest) ← readFenced inner cs
    some (.group e, rest)
  | some (.fraction, rest) => do
    let (left, rest) ← readBraced inner rest
    let (right, rest) ← readBraced inner rest
    some (.binary "/" left right, rest)
  | some (.root, rest) => do
    let (operand, rest) ← readBraced inner rest
    some (.call "sqrt" [operand], rest)
  | some (.logarithm, rest) => do
    let rest ← sign? '_' rest
    let (base, rest) ← readBraced inner rest
    let (operand, rest) ← readFenced inner rest
    some (.call "log" [operand, base], rest)
  | some (.constant name, rest) => some (.constant name, rest)
  | some (.function name, rest) => do
    let (operand, rest) ← readFenced inner rest
    some (.call name [operand], rest)
  | some (.closing, _) => none
  | some (.operator _, _) => none
  | none =>
    match takeNumber? (skip cs) with
    | some (digits, rest) => some (.number (String.ofList digits), rest)
    | none => do
      let (name, rest) ← takeName? (skip cs)
      match opening? rest with
      | some rest => do
        let (args, rest) ← readArguments inner rest
        some (.call (String.ofList name) args, rest)
      | none => some (.reference (String.ofList name), rest)

/-- Reads an atom with perhaps one superscript behind it. -/
def readPower : Reader Expr := fun cs => do
  let (base, rest) ← readAtom inner cs
  match sign? '^' rest with
  | some rest => do
    let (exponent, rest) ← readBraced inner rest
    -- A second superscript is an error.
    if (sign? '^' rest).isSome then none else some (.binary "^" base exponent, rest)
  | none => some (base, rest)

/-- Reads a power with the minus signs before it. -/
def readSigned : Reader Expr
  | ' ' :: cs => readSigned cs
  | '-' :: cs => do
    let (operand, rest) ← readSigned cs
    some (.prefixed "-" operand, rest)
  | cs => readPower inner cs

end

/-- Reads the operands that follow `left` in a chain. -/
def readChainTail (chain : Chain) (operand : Reader Expr) (left : Expr) (cs : List Char) :
    Option (Expr × List Char) :=
  match chain.operator? cs with
  | some (symbol, rest) => do
    let (right, rest) ← operand rest
    if rest.length < cs.length then
      readChainTail chain operand (.binary symbol left right) rest
    else none
  | none => some (left, cs)
termination_by cs.length

/-- Reads a chain of operators. -/
def readChain (chain : Chain) (operand : Reader Expr) : Reader Expr := fun cs => do
  let (first, rest) ← operand cs
  readChainTail chain operand first rest

/-- Reads an operand of a chain. -/
def readOperand (inner : Reader Expr) : Chain → Reader Expr
  | .product => readSigned inner
  | .sum => readChain .product (readSigned inner)

/-- Reads a sum. -/
def readSum (cs : List Char) : Option (Expr × List Char) :=
  let inner := fun rest => if rest.length < cs.length then readSum rest else none
  readChain .sum (readOperand inner .sum) cs
termination_by cs.length

/-- The expression that a formula is read as from end to end. -/
def read (latex : String) : Option Expr := do
  let (e, rest) ← readSum latex.toList
  if (skip rest).isEmpty then some e else none

/-- Reads a sum that is shorter than a text. -/
def readWithin (n : Nat) : Reader Expr := fun cs =>
  if cs.length < n then readSum cs else none

/-- A sum is read with everything shorter inside. -/
theorem readSum_eq (cs : List Char) :
    readSum cs = readChain .sum (readOperand (readWithin cs.length) .sum) cs := by
  rw [readSum]
  rfl

/-- What is shorter is read as a sum. -/
theorem readWithin_of_lt {n : Nat} {cs : List Char} (h : cs.length < n) :
    readWithin n cs = readSum cs :=
  if_pos h

/-! ### What comes behind a piece -/

/-- Whether an atom can end before a text. -/
structure EndsAtom (rest : List Char) : Prop where
  word : ∀ c ∈ rest.head?, isNameChar c = false ∧ c ≠ '.'
  call : opening? rest = none

/-- Whether a signed operand can. -/
structure EndsSigned (rest : List Char) : Prop extends EndsAtom rest where
  superscript : sign? '^' rest = none

/-- Whether an operand of a chain can. -/
def Chain.EndsOperand : Chain → List Char → Prop
  | .sum, rest => EndsSigned rest ∧ Chain.product.operator? rest = none
  | .product, rest => EndsSigned rest

/-- Whether a whole sum can. -/
def EndsSum (rest : List Char) : Prop :=
  Chain.sum.EndsOperand rest ∧ Chain.sum.operator? rest = none

/-- Where an atom ends a number ends. -/
theorem EndsAtom.endsNumber {rest : List Char} (h : EndsAtom rest) : EndsNumber rest := by
  intro c hc
  obtain ⟨hname, hpoint⟩ := h.word c hc
  rw [isNameChar, Bool.or_eq_false_iff] at hname
  exact ⟨hname.2, hpoint⟩

/-- A letter is a character of a name. -/
theorem EndsAtom.not_isLetter {rest : List Char} (h : EndsAtom rest) :
    ∀ c ∈ rest.head?, isLetter c = false := by
  intro c hc
  obtain ⟨hname, -⟩ := h.word c hc
  rw [isNameChar, isNameStart, Bool.or_eq_false_iff, Bool.or_eq_false_iff] at hname
  exact hname.1.1

/-- An atom ends before a character that continues no word and starts no call. -/
theorem EndsAtom.cons {c : Char} {rest : List Char} (hword : isNameChar c = false ∧ c ≠ '.')
    (hcall : opening? (c :: rest) = none) : EndsAtom (c :: rest) where
  word := fun d hd => by
    obtain rfl := Option.some.inj hd
    exact hword
  call := hcall

/-- It ends before a superscript. -/
theorem endsAtom_superscript (rest : List Char) : EndsAtom ('^' :: rest) :=
  .cons (by decide) rfl

/-- A sum ends with the text. -/
theorem endsSum_nil : EndsSum [] :=
  ⟨⟨⟨⟨by simp, rfl⟩, rfl⟩, rfl⟩, rfl⟩

/-- It ends before a closing brace. -/
theorem endsSum_brace (rest : List Char) : EndsSum ('\x7d' :: rest) :=
  ⟨⟨⟨.cons (by decide) rfl, rfl⟩, rfl⟩, rfl⟩

/-- It ends before a closing parenthesis. -/
theorem endsSum_closing (rest : List Char) : EndsSum ("\\right)".toList ++ rest) :=
  ⟨⟨⟨.cons (by decide) rfl, rfl⟩, rfl⟩, rfl⟩

/-- And it ends before a separator. -/
theorem endsSum_separator (rest : List Char) : EndsSum (",\\,".toList ++ rest) :=
  ⟨⟨⟨.cons (by decide) rfl, rfl⟩, rfl⟩, rfl⟩

/-- The operators of a chain, each with its sign. -/
def Chain.signs : Chain → List (String × String)
  | .sum => [("+", "+"), ("-", "-")]
  | .product => [("*", "\\cdot"), ("%", "\\bmod")]

/-- The sign of an operator with a blank on either side. -/
def spaced (sign : String) : String :=
  " " ++ sign ++ " "

/-- A sign of the chain is read between its spaces. -/
theorem Chain.operator?_spaced {chain : Chain} {symbol sign : String}
    (h : (symbol, sign) ∈ chain.signs) (rest : List Char) :
    chain.operator? ((spaced sign).toList ++ rest) = some (symbol, ' ' :: rest) := by
  cases chain with
  | sum | product =>
    simp only [signs, List.mem_cons, Prod.mk.injEq, List.not_mem_nil, or_false] at h
    rcases h with ⟨rfl, rfl⟩ | ⟨rfl, rfl⟩
    all_goals rfl

/-- And an operand ends before it. -/
theorem Chain.endsOperand_spaced {chain : Chain} {symbol sign : String}
    (h : (symbol, sign) ∈ chain.signs) (rest : List Char) :
    chain.EndsOperand ((spaced sign).toList ++ rest) := by
  cases chain with
  | sum =>
    simp only [signs, List.mem_cons, Prod.mk.injEq, List.not_mem_nil, or_false] at h
    rcases h with ⟨rfl, rfl⟩ | ⟨rfl, rfl⟩
    all_goals exact ⟨⟨.cons (by decide) rfl, rfl⟩, rfl⟩
  | product =>
    simp only [signs, List.mem_cons, Prod.mk.injEq, List.not_mem_nil, or_false] at h
    rcases h with ⟨rfl, rfl⟩ | ⟨rfl, rfl⟩
    all_goals exact ⟨.cons (by decide) rfl, rfl⟩

/-! ### Pieces -/

/-- A blank in front of an operand is skipped. -/
theorem readOperand_blank (inner : Reader Expr) (chain : Chain) (cs : List Char) :
    readOperand inner chain (' ' :: cs) = readOperand inner chain cs := by
  cases chain with
  | sum | product => rfl

/-- Whether a piece is read as a tree where an atom is wanted. -/
def ReadsAtom (s : String) (e : Expr) : Prop :=
  ∀ n rest, (s.toList ++ rest).length ≤ n → EndsAtom rest →
    readAtom (readWithin n) (s.toList ++ rest) = some (e, rest)

/-- Whether it is where a signed operand is. -/
def ReadsSigned (s : String) (e : Expr) : Prop :=
  ∀ n rest, (s.toList ++ rest).length ≤ n → EndsSigned rest →
    readSigned (readWithin n) (s.toList ++ rest) = some (e, rest)

/-- Whether it is where an operand of a chain is. -/
def ReadsOperand (chain : Chain) (s : String) (e : Expr) : Prop :=
  ∀ n rest, (s.toList ++ rest).length ≤ n → chain.EndsOperand rest →
    readOperand (readWithin n) chain (s.toList ++ rest) = some (e, rest)

/-- Whether a piece is read as a tree to which the operands behind it are added. -/
def ReadsChain (chain : Chain) (s : String) (e : Expr) : Prop :=
  ∀ n rest, (s.toList ++ rest).length ≤ n → chain.EndsOperand rest →
    readChain chain (readOperand (readWithin n) chain) (s.toList ++ rest) =
      readChainTail chain (readOperand (readWithin n) chain) e rest

/-- Where an atom is read, no minus sign comes next. -/
theorem readAtom_minus (inner : Reader Expr) (cs : List Char) :
    readAtom inner ('-' :: cs) = none := by
  have hskip : skip ('-' :: cs) = '-' :: cs := rfl
  have hcommand : command? ('-' :: cs) = none := rfl
  unfold readAtom
  rw [hcommand]
  simp only [hskip]
  rw [Lexer.takeNumber?_eq_none (by decide) (by decide)]
  rfl

/-- What is read as a power is read as a signed operand. -/
theorem readSigned_of_readPower {inner : Reader Expr} {cs : List Char} {result : Expr × List Char}
    (h : readPower inner cs = some result) : readSigned inner cs = some result := by
  fun_induction readSigned inner cs with
  | case1 cs ih => exact ih h
  | case2 cs ih =>
    rw [readPower, readAtom_minus] at h
    cases h
  | case3 cs _ _ => exact h

/-- An atom is read where a sign may stand. -/
theorem ReadsAtom.signed {s : String} {e : Expr} (h : ReadsAtom s e) : ReadsSigned s e := by
  intro n rest hn hrest
  refine readSigned_of_readPower ?_
  unfold readPower
  rw [h n rest hn hrest.toEndsAtom]
  show (match sign? '^' rest with
    | some rest => _
    | none => some (e, rest)) = some (e, rest)
  rw [hrest.superscript]

/-- What may have a sign is an operand of a product. -/
theorem ReadsSigned.operand {s : String} {e : Expr} (h : ReadsSigned s e) :
    ReadsOperand .product s e :=
  h

/-- A sign may be put in front of it. -/
theorem ReadsSigned.negated {s : String} {e : Expr} (h : ReadsSigned s e) :
    ReadsSigned ("-" ++ s) (.prefixed "-" e) := by
  intro n rest hn hrest
  have htext : ("-" ++ s).toList ++ rest = '-' :: (s.toList ++ rest) := by
    rw [String.toList_append]
    rfl
  rw [htext] at hn ⊢
  rw [readSigned, h n rest (Nat.le_of_succ_le hn) hrest]
  rfl

/-- An operand by itself is a chain. -/
theorem ReadsOperand.chain {chain : Chain} {s : String} {e : Expr} (h : ReadsOperand chain s e) :
    ReadsChain chain s e := by
  intro n rest hn hrest
  unfold readChain
  rw [h n rest hn hrest]
  rfl

/-- An operand of a sum ends where no operator of a product follows. -/
theorem ReadsChain.operand {s : String} {e : Expr} (h : ReadsChain .product s e) :
    ReadsOperand .sum s e := by
  rintro n rest hn ⟨hrest, hoperator⟩
  have hchain := h n rest hn hrest
  rw [readChainTail, hoperator] at hchain
  exact hchain

/-- A chain goes on with a sign and an operand. -/
theorem ReadsChain.operation {chain : Chain} {s s' symbol sign : String} {e e' : Expr}
    (hsign : (symbol, sign) ∈ chain.signs) (h : ReadsChain chain s e)
    (h' : ReadsOperand chain s' e') :
    ReadsChain chain (s ++ spaced sign ++ s') (.binary symbol e e') := by
  intro n rest hn hrest
  have htext : (s ++ spaced sign ++ s').toList ++ rest =
      s.toList ++ ((spaced sign).toList ++ (s'.toList ++ rest)) := by
    rw [String.toList_append, String.toList_append, List.append_assoc, List.append_assoc]
  rw [htext] at hn ⊢
  -- The loop behind the left piece takes the operator and the right one, and goes on behind that.
  rw [h n _ hn (Chain.endsOperand_spaced hsign _), readChainTail, Chain.operator?_spaced hsign]
  rw [List.length_append, List.length_append] at hn
  have hright := h' n rest (by omega) hrest
  have hshorter : rest.length < ((spaced sign).toList ++ (s'.toList ++ rest)).length := by
    simp [spaced]
    omega
  simp only [readOperand_blank, hright, Option.bind_eq_bind, Option.bind_some, if_pos hshorter]

/-- A signed operand is a sum of its own. -/
theorem ReadsSigned.sum {s : String} {e : Expr} (h : ReadsSigned s e) : ReadsChain .sum s e :=
  h.operand.chain.operand.chain

/-- A sum is read up to where it ends. -/
theorem ReadsChain.closed {s : String} {e : Expr} (h : ReadsChain .sum s e) {rest : List Char}
    (hrest : EndsSum rest) : readSum (s.toList ++ rest) = some (e, rest) := by
  rw [readSum_eq, h _ rest le_rfl hrest.1, readChainTail, hrest.2]

/-- And it is read as a whole text. -/
theorem ReadsChain.whole {s : String} {e : Expr} (h : ReadsChain .sum s e) :
    read s = some e := by
  have hsum := h.closed endsSum_nil
  rw [List.append_nil] at hsum
  rw [read, hsum]
  rfl

/-! ### Brackets -/

/-- What comes behind a piece of a text is no longer than the text. -/
theorem length_behind_le {word rest : List Char} {n : Nat} (h : (word ++ rest).length ≤ n) :
    rest.length ≤ n :=
  (List.suffix_append word rest).length_le.trans h

/-- The characters of a text in braces. -/
theorem toList_braced (s : String) (rest : List Char) :
    (braced s).toList ++ rest = '\x7b' :: (s.toList ++ '\x7d' :: rest) := by
  simp [braced]

/-- The characters of a text in parentheses. -/
theorem toList_fenced (s : String) (rest : List Char) :
    (fenced s).toList ++ rest =
      "\\left".toList ++ '(' :: (s.toList ++ ("\\right)".toList ++ rest)) := by
  simp [fenced]

/-- No letter comes next where a bracket is opened. -/
theorem not_isLetter_braced (s : String) (rest : List Char) :
    ∀ c ∈ ((braced s).toList ++ rest).head?, isLetter c = false := by
  rw [toList_braced]
  exact fun c hc => Option.some.inj hc ▸ rfl

/-- No letter comes first in them. -/
theorem not_isLetter_fenced (s : String) (rest : List Char) :
    ∀ c ∈ ((fenced s).toList ++ rest).head?, isLetter c = false := by
  rw [toList_fenced]
  exact fun c hc => Option.some.inj hc ▸ rfl

/-- A sum is read between braces. -/
theorem ReadsChain.inBraces {s : String} {e : Expr} (h : ReadsChain .sum s e) {n : Nat}
    {rest : List Char} (hn : ((braced s).toList ++ rest).length ≤ n) :
    readBraced (readWithin n) ((braced s).toList ++ rest) = some (e, rest) := by
  rw [toList_braced] at hn ⊢
  unfold readBraced
  show (readWithin n (s.toList ++ '\x7d' :: rest)).bind _ = _
  rw [readWithin_of_lt hn, h.closed (endsSum_brace rest)]
  rfl

/-- And it is read between parentheses. -/
theorem ReadsChain.inFences {s : String} {e : Expr} (h : ReadsChain .sum s e) {n : Nat}
    {rest : List Char} (hn : ((fenced s).toList ++ rest).length ≤ n) :
    readFenced (readWithin n) ((fenced s).toList ++ rest) = some (e, rest) := by
  rw [toList_fenced] at hn ⊢
  rw [List.length_append, List.length_cons] at hn
  unfold readFenced
  show (readWithin n (s.toList ++ ("\\right)".toList ++ rest))).bind _ = _
  rw [readWithin_of_lt (by omega), h.closed (endsSum_closing rest)]
  rfl

/-! ### Atoms -/

/-- A power is an atom with a superscript behind it. -/
theorem ReadsAtom.power {s s' : String} {e e' : Expr} (h : ReadsAtom s e)
    (h' : ReadsChain .sum s' e') : ReadsSigned (s ++ "^" ++ braced s') (.binary "^" e e') := by
  intro n rest hn hrest
  have htext : (s ++ "^" ++ braced s').toList ++ rest =
      s.toList ++ '^' :: ((braced s').toList ++ rest) := by
    simp
  have hsign : sign? '^' ('^' :: ((braced s').toList ++ rest)) =
    some ((braced s').toList ++ rest) := rfl
  rw [htext] at hn ⊢
  refine readSigned_of_readPower ?_
  unfold readPower
  rw [h n _ hn (endsAtom_superscript _)]
  rw [List.length_append, List.length_cons] at hn
  have hexponent : readBraced (readWithin n) ((braced s').toList ++ rest) = some (e', rest) :=
    h'.inBraces (by omega)
  simp only [Option.bind_eq_bind, Option.bind_some, hsign, hexponent, hrest.superscript]
  rfl

/-- The command of a control word that ends before a text. -/
theorem command?_word {word : String} {command : Command} (h : (word, command) ∈ commands)
    {rest : List Char} (hrest : ∀ c ∈ rest.head?, isLetter c = false) :
    command? (word.toList ++ rest) = some (command, rest) := by
  have hwords : ∀ entry ∈ commands, entry.1.toList = '\\' :: entry.1.toList.tail ∧
      entry.1.toList.tail.all isLetter = true := Decimal.forall_mem_of_all (by decide)
  have hfind : ∀ entry ∈ commands,
      commands.find? (fun other => other.1.toList = entry.1.toList) = some entry :=
    Decimal.forall_mem_of_all (by decide)
  obtain ⟨hword, hletters⟩ := hwords _ h
  obtain ⟨htake, hdrop⟩ :=
    Postfix.takeWhile_append_of_all isLetter word.toList.tail rest (List.all_eq_true.1 hletters)
      hrest
  have hcommand : command? ('\\' :: (word.toList.tail ++ rest)) =
      (commands.find? fun other => other.1.toList = word.toList).map fun entry =>
        (entry.2, rest) := by
    unfold command?
    show (commands.find? _).map _ = _
    rw [htake, hdrop, ← hword]
  rw [hword, List.cons_append, hcommand, hfind _ h]
  rfl

/-- What is neither a blank nor a backslash stands for itself. -/
theorem command?_cons {c : Char} (hblank : c ≠ ' ') (hword : c ≠ '\\') (cs : List Char) :
    skip (c :: cs) = c :: cs ∧ command? (c :: cs) = none := by
  have hskip : skip (c :: cs) = c :: cs := List.dropWhile_cons_of_neg (by simp [hblank])
  refine ⟨hskip, ?_⟩
  unfold command?
  rw [hskip]
  split
  · next heq => exact absurd (List.cons.inj heq).1 hword
  · rfl

/-- A numeral is read as a number. -/
theorem readsAtom_number {text : String}
    (h : takeNumber? text.toList = some (text.toList, [])) : ReadsAtom text (.number text) := by
  intro n rest _ hrest
  obtain ⟨hchars, hnumber⟩ := Decimal.takeNumber?_shape h
  obtain ⟨c, cs, htext⟩ := List.exists_cons_of_ne_nil (Decimal.takeNumber?_ne_nil h)
  have hc := hchars c (htext ▸ List.mem_cons_self)
  obtain ⟨hskip, hcommand⟩ : skip (text.toList ++ rest) = text.toList ++ rest ∧
      command? (text.toList ++ rest) = none := by
    rw [htext]
    -- Digits and points are neither blanks nor backslashes.
    refine command?_cons ?_ ?_ (cs ++ rest)
    all_goals
      rintro rfl
      exact absurd hc (by decide)
  unfold readAtom
  rw [hcommand]
  simp only [hskip, hnumber rest hrest.endsNumber, String.ofList_toList]

/-- The front of a text that starts with a name, as far as an atom is wanted. -/
theorem readAtom_name (inner : Reader Expr) {name : String}
    (h : takeName? name.toList = some (name.toList, [])) {rest : List Char}
    (hrest : ∀ c ∈ rest.head?, isNameChar c = false) :
    readAtom inner (name.toList ++ rest) =
      match opening? rest with
      | some rest =>
        (readArguments inner rest).bind fun (args, rest) => some (.call name args, rest)
      | none => some (.reference name, rest) := by
  obtain ⟨c, cs, htext⟩ := List.exists_cons_of_ne_nil (Lexer.takeName?_ne_nil h)
  have hstart := (Lexer.takeName?_self_iff.1 (htext ▸ h)).1
  obtain ⟨-, hdigit, hpoint⟩ := Lexer.isNameStart_spec hstart
  have hnumber : takeNumber? (name.toList ++ rest) = none := by
    rw [htext]
    exact Lexer.takeNumber?_eq_none hdigit hpoint (cs ++ rest)
  obtain ⟨hskip, hcommand⟩ : skip (name.toList ++ rest) = name.toList ++ rest ∧
      command? (name.toList ++ rest) = none := by
    rw [htext]
    -- No name starts with a blank or a backslash.
    refine command?_cons ?_ ?_ (cs ++ rest)
    all_goals
      rintro rfl
      exact absurd hstart (by decide)
  unfold readAtom
  rw [hcommand]
  simp only [hskip, hnumber, takeName?_shape h rest hrest, String.ofList_toList,
    Option.bind_eq_bind, Option.bind_some]

/-- A name is read as a reference. -/
theorem readsAtom_reference {name : String}
    (h : takeName? name.toList = some (name.toList, [])) : ReadsAtom name (.reference name) := by
  intro n rest _ hrest
  rw [readAtom_name _ h fun c hc => (hrest.word c hc).1, hrest.call]

/-- The sign of the constant is read as the constant. -/
theorem readsAtom_pi : ReadsAtom "\\pi" (.constant "pi") := by
  intro n rest _ hrest
  have hcommand : command? ("\\pi".toList ++ rest) = some (.constant "pi", rest) :=
    command?_word (by decide) hrest.not_isLetter
  unfold readAtom
  rw [hcommand]

/-- A sum in parentheses is read as a group. -/
theorem ReadsChain.group {s : String} {e : Expr} (h : ReadsChain .sum s e) :
    ReadsAtom (fenced s) (.group e) := by
  intro n rest hn _
  have hcommand : command? ((fenced s).toList ++ rest) =
      some (.opening, '(' :: (s.toList ++ ("\\right)".toList ++ rest))) := by
    rw [toList_fenced]
    exact command?_word (by decide) (by simp; decide)
  unfold readAtom
  rw [hcommand]
  simp only [h.inFences hn]
  rfl

/-- A fraction is read as a quotient. -/
theorem ReadsChain.fraction {s s' : String} {e e' : Expr} (h : ReadsChain .sum s e)
    (h' : ReadsChain .sum s' e') :
    ReadsAtom ("\\frac" ++ braced s ++ braced s') (.binary "/" e e') := by
  intro n rest hn _
  have hcommand : command? ("\\frac".toList ++
        ((braced s).toList ++ ((braced s').toList ++ rest))) =
      some (.fraction, (braced s).toList ++ ((braced s').toList ++ rest)) :=
    command?_word (by decide) (not_isLetter_braced s _)
  rw [String.toList_append, String.toList_append, List.append_assoc, List.append_assoc] at hn ⊢
  have hbehind := length_behind_le hn
  unfold readAtom
  rw [hcommand]
  simp only [h.inBraces hbehind, h'.inBraces (length_behind_le hbehind), Option.bind_eq_bind,
    Option.bind_some]

/-- A root is read as a call. -/
theorem ReadsChain.root {s : String} {e : Expr} (h : ReadsChain .sum s e) :
    ReadsAtom ("\\sqrt" ++ braced s) (.call "sqrt" [e]) := by
  intro n rest hn _
  have hcommand : command? ("\\sqrt".toList ++ ((braced s).toList ++ rest)) =
      some (.root, (braced s).toList ++ rest) :=
    command?_word (by decide) (not_isLetter_braced s rest)
  rw [String.toList_append, List.append_assoc] at hn ⊢
  unfold readAtom
  rw [hcommand]
  simp only [h.inBraces (length_behind_le hn), Option.bind_eq_bind, Option.bind_some]

/-- A logarithm with its base below is read as a call. -/
theorem ReadsChain.logarithm {s s' : String} {e e' : Expr} (h : ReadsChain .sum s e)
    (h' : ReadsChain .sum s' e') :
    ReadsAtom ("\\log_" ++ braced s ++ fenced s') (.call "log" [e', e]) := by
  intro n rest hn _
  have htext : ("\\log_" ++ braced s ++ fenced s').toList ++ rest =
      "\\log".toList ++ '_' :: ((braced s).toList ++ ((fenced s').toList ++ rest)) := by
    simp
  have hcommand : command? ("\\log".toList ++
        '_' :: ((braced s).toList ++ ((fenced s').toList ++ rest))) =
      some (.logarithm, '_' :: ((braced s).toList ++ ((fenced s').toList ++ rest))) :=
    command?_word (by decide) fun c hc => Option.some.inj hc ▸ rfl
  have hsign : sign? '_' ('_' :: ((braced s).toList ++ ((fenced s').toList ++ rest))) =
    some ((braced s).toList ++ ((fenced s').toList ++ rest)) := rfl
  rw [htext] at hn ⊢
  have hbehind := Nat.le_of_succ_le (length_behind_le hn)
  unfold readAtom
  rw [hcommand]
  simp only [hsign, h.inBraces hbehind, h'.inFences (length_behind_le hbehind),
    Option.bind_eq_bind, Option.bind_some]

/-- And so is the word of a function with its argument. -/
theorem ReadsChain.named {word name s : String} {e : Expr}
    (hword : (word, Command.function name) ∈ commands) (h : ReadsChain .sum s e) :
    ReadsAtom (word ++ fenced s) (.call name [e]) := by
  intro n rest hn _
  have hcommand : command? (word.toList ++ ((fenced s).toList ++ rest)) =
      some (.function name, (fenced s).toList ++ rest) :=
    command?_word hword (not_isLetter_fenced s rest)
  rw [String.toList_append, List.append_assoc] at hn ⊢
  unfold readAtom
  rw [hcommand]
  simp only [h.inFences (length_behind_le hn), Option.bind_eq_bind, Option.bind_some]

/-! ### Calls -/

/-- A closing parenthesis is no operand. -/
theorem readSigned_of_closing {inner : Reader Expr} {cs rest : List Char}
    (h : command? cs = some (.closing, rest)) : readSigned inner cs = none := by
  fun_induction readSigned inner cs with
  | case1 cs ih => exact ih h
  | case2 cs => cases h
  | case3 cs =>
    unfold readPower readAtom
    rw [h]
    rfl

/-- No sum starts with a closing parenthesis. -/
theorem closing?_of_readSum {cs : List Char} {result : Expr × List Char}
    (h : readSum cs = some result) : closing? cs = none := by
  -- A sum starts with a product, and that with a signed operand.
  rw [readSum_eq] at h
  obtain ⟨first, hfirst, -⟩ := Option.bind_eq_some_iff.1 h
  obtain ⟨first, hfirst, -⟩ := Option.bind_eq_some_iff.1 hfirst
  unfold closing?
  split
  · next hcommand =>
    rw [readSigned_of_closing hcommand] at hfirst
    cases hfirst
  · rfl

/-- Arguments with commas between them, up to the closing parenthesis. -/
theorem readArgumentsTail_intercalate {s : String} {e : Expr} {ss : List String} {es : List Expr}
    (h : ReadsChain .sum s e) (hmore : List.Forall₂ (ReadsChain .sum) ss es) {n : Nat}
    {rest text : List Char}
    (htext : (",\\,".intercalate (s :: ss)).toList ++ ("\\right)".toList ++ rest) = text)
    (hn : text.length < n) :
    ∃ back, readWithin n text = some (e, back) ∧ back.length ≤ text.length ∧
      readArgumentsTail (readWithin n) back = some (es, rest) := by
  -- Behind each argument comes a comma with the next one, or the closing parenthesis.
  induction hmore generalizing s e text with
  | nil =>
    rw [String.intercalate_singleton] at htext
    subst htext
    refine ⟨"\\right)".toList ++ rest, ?_, length_behind_le le_rfl, ?_⟩
    · rw [readWithin_of_lt hn, h.closed (endsSum_closing rest)]
    · rw [readArgumentsTail]
      rfl
  | @cons s' e' ss es h' _ ih =>
    have hseparator : ∀ cs, separator? (",\\,".toList ++ cs) = some cs := fun _ => rfl
    rw [String.intercalate_cons_cons, String.toList_append, String.toList_append,
      List.append_assoc, List.append_assoc] at htext
    generalize hmore : (",\\,".intercalate (s' :: ss)).toList ++ ("\\right)".toList ++ rest) = more
      at htext
    subst htext
    have hbehind : more.length < n := by
      rw [List.length_append, List.length_append] at hn
      omega
    obtain ⟨back, hnext, hback, htail⟩ := ih h' hmore hbehind
    have hshorter : back.length < (",\\,".toList ++ more).length :=
      Nat.lt_of_le_of_lt hback (by simp; omega)
    refine ⟨",\\,".toList ++ more, ?_, length_behind_le le_rfl, ?_⟩
    · rw [readWithin_of_lt hn, h.closed (endsSum_separator more)]
    · rw [readArgumentsTail, hseparator]
      simp only [hnext, htail, Option.bind_eq_bind, Option.bind_some, if_pos hshorter]

/-- A call of a function that has no other form. -/
theorem readsAtom_call {name : String} (h : takeName? name.toList = some (name.toList, []))
    {ss : List String} {es : List Expr} (hargs : List.Forall₂ (ReadsChain .sum) ss es) :
    ReadsAtom (name ++ fenced (",\\,".intercalate ss)) (.call name es) := by
  intro n rest hn _
  rw [String.toList_append, List.append_assoc, toList_fenced] at hn ⊢
  have hbehind := length_behind_le (length_behind_le hn)
  have hargs : readArguments (readWithin n)
      ((",\\,".intercalate ss).toList ++ ("\\right)".toList ++ rest)) = some (es, rest) := by
    unfold readArguments
    cases hargs with
    | nil => rfl
    | cons hfirst hmore =>
      obtain ⟨back, hread, -, htail⟩ := readArgumentsTail_intercalate hfirst hmore rfl hbehind
      rw [readWithin_of_lt hbehind] at hread
      rw [closing?_of_readSum hread]
      simp only [readWithin_of_lt hbehind, hread, htail, Option.bind_eq_bind, Option.bind_some]
  have hopening : ∀ cs, opening? ("\\left".toList ++ '(' :: cs) = some cs := fun _ => rfl
  rw [readAtom_name _ h, hopening]
  · simp only [hargs, Option.bind_some]
  · exact fun c hc => Option.some.inj hc ▸ rfl

end LiveSheet.Latex
