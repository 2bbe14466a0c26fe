import LiveSheet.Proofs.Parses
import LiveSheet.Proofs.Repairs

/-!
# Reading along a list of tokens

The parser can also go along a list of tokens that stays as it is, and keep the place that it has
come to. Then nothing in its form says that it ends. Here it is written that way: each level of the
grammar is a procedure, the repetitions are loops, and how deep the calls may go is a number that
each call lowers. A procedure that takes a token where none is left, or that runs out of calls,
comes to nothing (`Halt`).

Neither happens to the levels. From any place on, 8 calls for each token that is left and 8 more are
enough, and a procedure comes to what the part of `Expr.parse` for the same level comes to
(`Descent.Procedure.run_eq_answer`). The measure is that of the parser, the tokens that are left and
then the level, because a procedure can call the next level before it takes a token. A part that
begins with an operand takes a token whenever there is one (`Parses.length_lt`), so every procedure
goes forward, and stays only where nothing is left.
-/

namespace LiveSheet.Expr

/-- Why a procedure comes to nothing. -/
inductive Halt where
  /-- Strict reading finds something wrong. -/
  | wrong (e : ParseError)
  /-- A token is taken where none is left. -/
  | overrun
  /-- A call goes deeper than is allowed. -/
  | exhausted
deriving Repr, DecidableEq

namespace Descent

variable (reading : Reading) (ts : List Token)

/-! ### The procedures -/

/-- Takes the token at a place. -/
def take (place : Nat) : Except Halt (Token × Nat) :=
  match ts[place]? with
  | some t => .ok (t, place + 1)
  | none => .error .overrun

/-- Whether a token of some kind is next. -/
def nextIs (kind : Token → Bool) (place : Nat) : Bool :=
  ts[place]?.any kind

/-- Stops for what is wrong, unless it is repaired. -/
def reject (e : ParseError) : Except Halt Unit :=
  match reading with
  | .strict => .error (.wrong e)
  | .lenient => .ok ()

/-- Passes a closing parenthesis, the lack of which is the error `e`. -/
def close (e : ParseError) (place : Nat) : Except Halt Nat :=
  if nextIs ts (·.isCloseParen) place then do
    let (_, place) ← take ts place
    return place
  else do
    reject reading e
    return place

/-- One turn of a loop over operators that are read from left to right: an operator with its right
operand, and the turns that come after it. -/
def turn (symbols : List String) (operand : Nat → Except Halt (Expr × Nat))
    (again : Expr → Nat → Except Halt (Expr × Nat)) (left : Expr) (place : Nat) :
    Except Halt (Expr × Nat) :=
  if nextIs ts (·.isOperatorAmong symbols) place then do
    let (t, place) ← take ts place
    let (right, place) ← operand place
    again (.binary t.text left right) place
  else .ok (left, place)

mutual

/-- Reads a sum: a product, and more of them in a loop. -/
def sum : (calls : Nat) → (place : Nat) → Except Halt (Expr × Nat)
  | 0, _ => .error .exhausted
  | calls + 1, place => do
    let (first, place) ← product calls place
    sumLoop calls first place

/-- The turns of a sum, after a first operand. -/
def sumLoop : (calls : Nat) → (left : Expr) → (place : Nat) → Except Halt (Expr × Nat)
  | 0, _, _ => .error .exhausted
  | calls + 1, left, place => turn ts ["+", "-"] (product calls) (sumLoop calls) left place

/-- Reads a product: a power, and more of them in a loop. -/
def product : (calls : Nat) → (place : Nat) → Except Halt (Expr × Nat)
  | 0, _ => .error .exhausted
  | calls + 1, place => do
    let (first, place) ← power calls place
    productLoop calls first place

/-- The turns of a product, after a first operand. -/
def productLoop : (calls : Nat) → (left : Expr) → (place : Nat) → Except Halt (Expr × Nat)
  | 0, _, _ => .error .exhausted
  | calls + 1, left, place =>
    turn ts ["*", "/", "%"] (power calls) (productLoop calls) left place

/-- Reads a power. -/
def power : (calls : Nat) → (place : Nat) → Except Halt (Expr × Nat)
  | 0, _ => .error .exhausted
  | calls + 1, place => do
    let (base, place) ← factor calls place
    if nextIs ts (·.isOperatorAmong ["^"]) place then
      let (_, place) ← take ts place
      let (exponent, place) ← power calls place
      return (.binary "^" base exponent, place)
    else return (base, place)

/-- Reads an operand. -/
def factor : (calls : Nat) → (place : Nat) → Except Halt (Expr × Nat)
  | 0, _ => .error .exhausted
  | calls + 1, place =>
    match ts[place]? with
    | none => do
      reject reading .missingOperand
      return (.number "0", place)
    | some t =>
      if t.isOperatorAmong ["-"] then do
        let (_, place) ← take ts place
        let (operand, place) ← factor calls place
        return (.prefixed "-" operand, place)
      else
        -- A number, a reference and a constant are operands by themselves.
        match t.kind with
        | .number => do
          let (t, place) ← take ts place
          return (.number t.text, place)
        | .reference => do
          let (t, place) ← take ts place
          return (.reference t.text, place)
        | .constant => do
          let (t, place) ← take ts place
          return (.constant t.text, place)
        | .function => call calls place
        | _ =>
          if t.isOpenParen then do
            let (_, place) ← take ts place
            let (inner, place) ← sum calls place
            let place ← close reading ts .unclosedGroup place
            return (.group inner, place)
          else do
            reject reading (.strayToken t.text)
            -- Even a token that begins no operand is taken, or the loops around would not end.
            let (t, place) ← take ts place
            return (.reference t.text, place)

/-- Reads a call from the name of its function on. -/
def call : (calls : Nat) → (place : Nat) → Except Halt (Expr × Nat)
  | 0, _ => .error .exhausted
  | calls + 1, place => do
    let (name, place) ← take ts place
    if nextIs ts (·.isOpenParen) place then
      let (_, place) ← take ts place
      let (args, place) ← arguments calls place
      let place ← close reading ts (.unclosedCall name.text) place
      return (.call name.text args, place)
    else return (.reference name.text, place)

/-- Reads the arguments of a call, perhaps none. -/
def arguments : (calls : Nat) → (place : Nat) → Except Halt (List Expr × Nat)
  | 0, _ => .error .exhausted
  | calls + 1, place =>
    if nextIs ts (!·.isCloseParen) place then do
      let (first, place) ← sum calls place
      argumentsLoop calls [first] place
    else .ok ([], place)

/-- The turns of an argument list, after some arguments. -/
def argumentsLoop :
    (calls : Nat) → (args : List Expr) → (place : Nat) → Except Halt (List Expr × Nat)
  | 0, _, _ => .error .exhausted
  | calls + 1, args, place =>
    if nextIs ts (·.kind = .comma) place then do
      let (_, place) ← take ts place
      let (next, place) ← sum calls place
      argumentsLoop calls (args ++ [next]) place
    else .ok (args, place)

end

/-! ### Places -/

variable {ts} {us : List Token} {t : Token} {α : Type}

/-- The place in front of tokens that are left. -/
def placeOf (ts us : List Token) : Nat :=
  ts.length - us.length

/-- The place of what is left from a place on is that place. -/
theorem placeOf_drop {place : Nat} (h : place ≤ ts.length) :
    placeOf ts (ts.drop place) = place := by
  rw [placeOf, List.length_drop]
  omega

/-- The token at the place of a suffix is its first one. -/
theorem getElem?_placeOf (hus : us <:+ ts) : ts[placeOf ts us]? = us.head? := by
  obtain ⟨front, rfl⟩ := hus
  have hplace : placeOf (front ++ us) us = front.length := by simp [placeOf]
  rw [hplace, List.getElem?_append_right le_rfl, Nat.sub_self, List.head?_eq_getElem?]

/-- At the end there is no next token. -/
theorem nextIs_nil (ts : List Token) (kind : Token → Bool) :
    nextIs ts kind (placeOf ts []) = false := by
  rw [nextIs, getElem?_placeOf List.nil_suffix]
  rfl

/-- The next token at the place of a suffix is its first one. -/
theorem nextIs_cons (hus : t :: us <:+ ts) (kind : Token → Bool) :
    nextIs ts kind (placeOf ts (t :: us)) = kind t := by
  rw [nextIs, getElem?_placeOf hus]
  rfl

/-- What is left behind a token is a suffix too. -/
theorem suffix_of_cons (hus : t :: us <:+ ts) : us <:+ ts :=
  (List.suffix_cons t us).trans hus

/-- Taking a token goes on with it at the next place. -/
theorem take_bind {β : Type} (hus : t :: us <:+ ts) (next : Token × Nat → Except Halt β) :
    (take ts (placeOf ts (t :: us)) >>= next) = next (t, placeOf ts us) := by
  have hlength : us.length + 1 ≤ ts.length := hus.length_le
  have hplace : placeOf ts (t :: us) + 1 = placeOf ts us := by
    unfold placeOf
    rw [List.length_cons]
    omega
  rw [take, getElem?_placeOf hus, ← hplace]
  rfl

/-- What the parser comes to, with the place that it has come to. -/
def placed (ts : List Token) (result : Except ParseError (Parsed α us)) :
    Except Halt (α × Nat) :=
  match result with
  | .error e => .error (.wrong e)
  | .ok p => .ok (p.value, placeOf ts p.rest)

/-- What has been read goes on at the place of the rest. -/
theorem placed_ok_bind {β : Type} (p : Parsed α us) (next : α × Nat → Except Halt β) :
    (placed ts (.ok p) >>= next) = next (p.value, placeOf ts p.rest) :=
  rfl

/-- Passing a closing parenthesis comes to what the parser comes to. -/
theorem close_eq (hus : us <:+ ts) (e : ParseError) :
    close reading ts e (placeOf ts us) = (placed ts (closing reading e us)).map (·.2) := by
  unfold close
  cases us with
  | nil =>
    rw [nextIs_nil]
    cases reading <;> rfl
  | cons t us =>
    have hnext := nextIs_cons hus (·.isCloseParen)
    by_cases hclose : t.isCloseParen = true
    · rw [if_pos (hnext.trans hclose), take_bind hus]
      simp only [closing, if_pos hclose]
      rfl
    · rw [if_neg (hnext ▸ hclose)]
      simp only [closing, if_neg hclose]
      cases reading <;> rfl

section

variable {symbols : List String} {operand : Nat → Except Halt (Expr × Nat)}
  {again : Expr → Nat → Except Halt (Expr × Nat)} {left : Expr}

/-- A turn at the end reads nothing. -/
theorem turn_nil : turn ts symbols operand again left (placeOf ts []) = .ok (left, ts.length) := by
  rw [turn, if_neg (by simp [nextIs_nil])]
  rfl

/-- A turn comes to what the parser comes to if the operand and the turns after it do. -/
theorem turn_cons {parseOperand : (us : List Token) → Except ParseError (Parsed Expr us)}
    {parseTail : Expr → (us : List Token) → Except ParseError (Parsed Expr us)}
    (hus : t :: us <:+ ts) (hoperand : operand (placeOf ts us) = placed ts (parseOperand us))
    (hagain : ∀ right, parseOperand us = .ok right →
      again (.binary t.text left right.value) (placeOf ts right.rest) =
        placed ts (parseTail (.binary t.text left right.value) right.rest)) :
    turn ts symbols operand again left (placeOf ts (t :: us)) =
      placed ts (if t.isOperatorAmong symbols then
        match parseOperand us with
        | .error e => .error e
        | .ok right =>
          match parseTail (.binary t.text left right.value) right.rest with
          | .error e => .error e
          | .ok all => .ok (all.widen (Nat.le_succ_of_le right.length_rest_le))
      else .ok (.unread left (t :: us)) : Except ParseError (Parsed Expr (t :: us))) := by
  have hnext := nextIs_cons hus (·.isOperatorAmong symbols)
  rw [turn]
  -- A turn is taken if an operator of the level is next; else the loop ends with what it has.
  by_cases ht : t.isOperatorAmong symbols = true
  · rw [if_pos (hnext.trans ht), if_pos ht, take_bind hus]
    dsimp only
    rw [hoperand]
    cases hright : parseOperand us with
    | error e => rfl
    | ok right =>
      rw [placed_ok_bind]
      dsimp only
      rw [hagain right hright]
      cases parseTail (.binary t.text left right.value) right.rest <;> rfl
  · rw [if_neg (hnext ▸ ht), if_neg ht]
    rfl

end

end Descent

namespace Descent

variable {reading : Reading} {ts : List Token}

/-! ### The procedures come to what the parser comes to -/

-- Each call leaves one call less, so these need what the measure of the parser says: the number of
-- tokens, and then the level of the grammar.
mutual

/-- Reading a sum comes to what the parser comes to, with enough calls. -/
theorem sum_eq {us : List Token} {calls : Nat} (hus : us <:+ ts)
    (hcalls : 8 * us.length + 6 ≤ calls) :
    sum reading ts calls (placeOf ts us) = placed ts (parseSum reading us) := by
  obtain ⟨calls, rfl⟩ := Nat.exists_eq_add_of_le' (show 1 ≤ calls by omega)
  rw [sum, product_eq hus (by omega), parseSum]
  cases hfirst : parseProduct reading us with
  | error e => rfl
  | ok first =>
    rw [placed_ok_bind]
    have hrest := (parses_product hfirst).suffix
    have hle := hrest.length_le
    dsimp only
    rw [sumLoop_eq (hrest.trans hus) (by omega)]
    cases parseSumTail reading first.value first.rest <;> rfl
termination_by 8 * us.length + 6

/-- So do the turns of a sum. -/
theorem sumLoop_eq {calls : Nat} {left : Expr} : {us : List Token} → (hus : us <:+ ts) →
    (hcalls : 8 * us.length + 5 ≤ calls) →
    sumLoop reading ts calls left (placeOf ts us) = placed ts (parseSumTail reading left us)
  | [], _, hcalls => by
    obtain ⟨calls, rfl⟩ := Nat.exists_eq_add_of_le' (show 1 ≤ calls by omega)
    rw [sumLoop, parseSumTail, turn_nil]
    rfl
  | t :: us, hus, hcalls => by
    obtain ⟨calls, rfl⟩ := Nat.exists_eq_add_of_le' (show 1 ≤ calls by omega)
    rw [List.length_cons] at hcalls
    have hrest := suffix_of_cons hus
    rw [sumLoop, parseSumTail]
    refine turn_cons hus (product_eq hrest (by omega)) fun right hright => ?_
    have hsuffix := (parses_product hright).suffix
    have hle := hsuffix.length_le
    exact sumLoop_eq (hsuffix.trans hrest) (by omega)
termination_by us => 8 * us.length + 5

/-- The same for a product. -/
theorem product_eq {us : List Token} {calls : Nat} (hus : us <:+ ts)
    (hcalls : 8 * us.length + 4 ≤ calls) :
    product reading ts calls (placeOf ts us) = placed ts (parseProduct reading us) := by
  obtain ⟨calls, rfl⟩ := Nat.exists_eq_add_of_le' (show 1 ≤ calls by omega)
  rw [product, power_eq hus (by omega), parseProduct]
  cases hfirst : parsePower reading us with
  | error e => rfl
  | ok first =>
    rw [placed_ok_bind]
    have hrest := (parses_power hfirst).suffix
    have hle := hrest.length_le
    dsimp only
    rw [productLoop_eq (hrest.trans hus) (by omega)]
    cases parseProductTail reading first.value first.rest <;> rfl
termination_by 8 * us.length + 4

/-- The same for the turns of a product. -/
theorem productLoop_eq {calls : Nat} {left : Expr} : {us : List Token} → (hus : us <:+ ts) →
    (hcalls : 8 * us.length + 3 ≤ calls) →
    productLoop reading ts calls left (placeOf ts us) =
      placed ts (parseProductTail reading left us)
  | [], _, hcalls => by
    obtain ⟨calls, rfl⟩ := Nat.exists_eq_add_of_le' (show 1 ≤ calls by omega)
    rw [productLoop, parseProductTail, turn_nil]
    rfl
  | t :: us, hus, hcalls => by
    obtain ⟨calls, rfl⟩ := Nat.exists_eq_add_of_le' (show 1 ≤ calls by omega)
    rw [List.length_cons] at hcalls
    have hrest := suffix_of_cons hus
    rw [productLoop, parseProductTail]
    refine turn_cons hus (power_eq hrest (by omega)) fun right hright => ?_
    have hsuffix := (parses_power hright).suffix
    have hle := hsuffix.length_le
    exact productLoop_eq (hsuffix.trans hrest) (by omega)
termination_by us => 8 * us.length + 3

/-- The same for a power. -/
theorem power_eq {us : List Token} {calls : Nat} (hus : us <:+ ts)
    (hcalls : 8 * us.length + 2 ≤ calls) :
    power reading ts calls (placeOf ts us) = placed ts (parsePower reading us) := by
  obtain ⟨calls, rfl⟩ := Nat.exists_eq_add_of_le' (show 1 ≤ calls by omega)
  rw [power, factor_eq hus (by omega), parsePower]
  cases hbase : parseFactor reading us with
  | error e => rfl
  | ok base =>
    rw [placed_ok_bind]
    obtain ⟨base, rest, hle⟩ := base
    have hrest := (parses_factor hbase).suffix.trans hus
    dsimp only at hrest ⊢
    -- Behind the base the parser looks at the next token, and so does the procedure.
    cases rest with
    | nil =>
      dsimp only
      rw [if_neg (by simp [nextIs_nil])]
      rfl
    | cons t vs =>
      have hlt : vs.length < us.length := hle
      dsimp only
      have hnext := nextIs_cons hrest (·.isOperatorAmong ["^"])
      by_cases ht : t.isOperatorAmong ["^"] = true
      · rw [if_pos (hnext.trans ht), if_pos ht, take_bind hrest]
        dsimp only
        rw [power_eq (suffix_of_cons hrest) (by omega)]
        cases parsePower reading vs <;> rfl
      · rw [if_neg (hnext ▸ ht), if_neg ht]
        rfl
termination_by 8 * us.length + 2

/-- The same for an operand. -/
theorem factor_eq {calls : Nat} : {us : List Token} → (hus : us <:+ ts) →
    (hcalls : 8 * us.length + 1 ≤ calls) →
    factor reading ts calls (placeOf ts us) = placed ts (parseFactor reading us)
  | [], hus, hcalls => by
    obtain ⟨calls, rfl⟩ := Nat.exists_eq_add_of_le' (show 1 ≤ calls by omega)
    rw [factor, getElem?_placeOf hus, parseFactor.eq_def]
    cases reading <;> rfl
  | ⟨kind, text⟩ :: us, hus, hcalls => by
    obtain ⟨calls, rfl⟩ := Nat.exists_eq_add_of_le' (show 1 ≤ calls by omega)
    rw [List.length_cons] at hcalls
    have hrest := suffix_of_cons hus
    rw [factor, getElem?_placeOf hus, parseFactor.eq_def]
    simp only [List.head?_cons]
    cases kind with
    | number | reference | constant =>
      rw [if_neg (by simp [Token.isOperatorAmong])]
      exact take_bind hus _
    -- A name with a parenthesis behind it is read by a procedure of its own.
    | function =>
      rw [if_neg (by simp [Token.isOperatorAmong])]
      dsimp only
      rw [call_eq hus (by omega), parseFactor.eq_def]
    | operator | parenthesis | comma =>
      dsimp only
      split
      · rw [take_bind hus]
        dsimp only
        rw [factor_eq hrest (by omega)]
        cases parseFactor reading us <;> rfl
      · split
        · rw [take_bind hus]
          dsimp only
          rw [sum_eq hrest (by omega)]
          cases hinner : parseSum reading us with
          | error e => rfl
          | ok inner =>
            rw [placed_ok_bind]
            have hsuffix := (parses_sum hinner).suffix
            dsimp only
            rw [close_eq reading (hsuffix.trans hrest)]
            cases closing reading .unclosedGroup inner.rest <;> rfl
        · cases reading with
          | strict => rfl
          | lenient => exact take_bind hus _
termination_by us => 8 * us.length + 1

/-- A call is read from the name on, whatever kind of token the name is. -/
theorem call_eq {t : Token} {calls : Nat} : {us : List Token} → (hus : t :: us <:+ ts) →
    (hcalls : 8 * us.length + 8 ≤ calls) →
    call reading ts calls (placeOf ts (t :: us)) =
      placed ts (parseFactor reading (⟨.function, t.text⟩ :: us))
  | [], hus, hcalls => by
    obtain ⟨calls, rfl⟩ := Nat.exists_eq_add_of_le' (show 1 ≤ calls by omega)
    rw [call, take_bind hus, parseFactor.eq_def]
    dsimp only
    rw [if_neg (by simp [nextIs_nil])]
    rfl
  | p :: vs, hus, hcalls => by
    obtain ⟨calls, rfl⟩ := Nat.exists_eq_add_of_le' (show 1 ≤ calls by omega)
    rw [List.length_cons] at hcalls
    have hafter := suffix_of_cons hus
    have hnext := nextIs_cons hafter (·.isOpenParen)
    rw [call, take_bind hus, parseFactor.eq_def]
    dsimp only
    -- Without a parenthesis the name is left as a reference.
    by_cases hp : p.isOpenParen = true
    · rw [if_pos (hnext.trans hp), if_pos hp, take_bind hafter]
      dsimp only
      rw [arguments_eq (suffix_of_cons hafter) (by omega)]
      cases hargs : parseArguments reading vs with
      | error e => rfl
      | ok args =>
        rw [placed_ok_bind]
        have hsuffix := (parses_arguments hargs).suffix
        dsimp only
        rw [close_eq reading (hsuffix.trans (suffix_of_cons hafter))]
        cases closing reading (.unclosedCall t.text) args.rest <;> rfl
    · rw [if_neg (hnext ▸ hp), if_neg hp]
      rfl
termination_by us => 8 * us.length + 8

/-- The same for the arguments of a call. -/
theorem arguments_eq {calls : Nat} : {us : List Token} → (hus : us <:+ ts) →
    (hcalls : 8 * us.length + 8 ≤ calls) →
    arguments reading ts calls (placeOf ts us) = placed ts (parseArguments reading us)
  | [], hus, hcalls => by
    obtain ⟨calls, rfl⟩ := Nat.exists_eq_add_of_le' (show 1 ≤ calls by omega)
    rw [arguments, parseArguments, if_neg (by simp [nextIs_nil])]
    rfl
  | t :: us, hus, hcalls => by
    obtain ⟨calls, rfl⟩ := Nat.exists_eq_add_of_le' (show 1 ≤ calls by omega)
    rw [List.length_cons] at hcalls
    have hnext := nextIs_cons hus (!·.isCloseParen)
    rw [arguments, parseArguments]
    -- A call without arguments closes at once; else the loop goes on behind the first argument.
    by_cases ht : t.isCloseParen = true
    · rw [if_neg (by simp [hnext, ht]), if_pos ht]
      rfl
    · rw [if_pos (by simp [hnext, ht]), if_neg ht, sum_eq hus (by rw [List.length_cons]; omega)]
      cases hfirst : parseSum reading (t :: us) with
      | error e => rfl
      | ok first =>
        rw [placed_ok_bind]
        have hsuffix := (parses_sum hfirst).suffix
        have hle : first.rest.length ≤ us.length + 1 := hsuffix.length_le
        dsimp only
        rw [argumentsLoop_eq (hsuffix.trans hus) (by omega)]
        cases parseArgumentsTail reading first.rest <;> rfl
termination_by us => 8 * us.length + 8

/-- The loop goes on behind the arguments that it has. -/
theorem argumentsLoop_eq {calls : Nat} {args : List Expr} : {us : List Token} →
    (hus : us <:+ ts) → (hcalls : 8 * us.length + 7 ≤ calls) →
    argumentsLoop reading ts calls args (placeOf ts us) =
      placed ts ((parseArgumentsTail reading us).map (·.map (args ++ ·)))
  | [], _, hcalls => by
    obtain ⟨calls, rfl⟩ := Nat.exists_eq_add_of_le' (show 1 ≤ calls by omega)
    rw [argumentsLoop, parseArgumentsTail, if_neg (by simp [nextIs_nil])]
    simp [placed, Except.map, Parsed.map, Parsed.unread]
  | t :: us, hus, hcalls => by
    obtain ⟨calls, rfl⟩ := Nat.exists_eq_add_of_le' (show 1 ≤ calls by omega)
    rw [List.length_cons] at hcalls
    have hnext := nextIs_cons hus (·.kind = .comma)
    have hrest := suffix_of_cons hus
    rw [argumentsLoop, parseArgumentsTail]
    -- Each turn takes a comma and an argument; the loop ends where there is no comma.
    by_cases ht : t.kind = .comma
    · rw [if_pos (by simp [hnext, ht]), if_pos ht, take_bind hus]
      dsimp only
      rw [sum_eq hrest (by omega)]
      cases hnextArgument : parseSum reading us with
      | error e => rfl
      | ok next =>
        rw [placed_ok_bind]
        have hsuffix := (parses_sum hnextArgument).suffix
        have hle := hsuffix.length_le
        dsimp only
        rw [argumentsLoop_eq (hsuffix.trans hrest) (by omega)]
        cases parseArgumentsTail reading next.rest with
        | error e => rfl
        | ok more => simp [placed, Except.map, Parsed.map, Parsed.widen]
    · rw [if_neg (by simp [hnext, ht]), if_neg ht]
      simp [placed, Except.map, Parsed.map, Parsed.unread]
termination_by us => 8 * us.length + 7

end

/-! ### The procedures go forward -/

/-- The procedures, each for a level of the grammar, and the one for a call. -/
inductive Procedure where
  | sum
  | product
  | power
  | factor
  | call
deriving Repr, DecidableEq

namespace Procedure

/-- Runs a procedure from a place on. -/
def run (reading : Reading) (ts : List Token) (calls place : Nat) :
    Procedure → Except Halt (Expr × Nat)
  | sum => Descent.sum reading ts calls place
  | product => Descent.product reading ts calls place
  | power => Descent.power reading ts calls place
  | factor => Descent.factor reading ts calls place
  | call => Descent.call reading ts calls place

/-- What the parser comes to on the tokens that are left; a call needs one for its name. -/
def answer (reading : Reading) (ts us : List Token) : Procedure → Except Halt (Expr × Nat)
  | sum => placed ts (parseSum reading us)
  | product => placed ts (parseProduct reading us)
  | power => placed ts (parsePower reading us)
  | factor => placed ts (parseFactor reading us)
  | call =>
    match us with
    | [] => .error .overrun
    | name :: us => placed ts (parseFactor reading (⟨.function, name.text⟩ :: us))

/-- What a procedure that begins at a place may come to. -/
inductive MayAnswer (reading : Reading) (ts : List Token) (place : Nat) :
    Procedure → Except Halt (Expr × Nat) → Prop
  /-- It has taken a token or more of those that were left. -/
  | forward {procedure : Procedure} {e : Expr} {place' : Nat} (hlt : place < place')
      (hle : place' ≤ ts.length) : MayAnswer reading ts place procedure (.ok (e, place'))
  /-- Nothing was left, and nothing has been taken. -/
  | atEnd {procedure : Procedure} {e : Expr} (h : place = ts.length) :
      MayAnswer reading ts place procedure (.ok (e, place))
  | wrong {procedure : Procedure} {e : ParseError} (h : reading = .strict) :
      MayAnswer reading ts place procedure (.error (.wrong e))
  /-- The only procedure that asks for a token unseen is the one for a call. -/
  | noName (h : place = ts.length) : MayAnswer reading ts place .call (.error .overrun)

variable {us : List Token} {place calls : Nat}

/-- Every procedure comes to what the parser comes to on the suffix at its place. -/
theorem run_eq_answer (procedure : Procedure) (reading : Reading) (hus : us <:+ ts)
    (hcalls : 8 * us.length + 8 ≤ calls) :
    procedure.run reading ts calls (placeOf ts us) = procedure.answer reading ts us := by
  cases procedure with
  | sum => exact sum_eq hus (by omega)
  | product => exact product_eq hus (by omega)
  | power => exact power_eq hus (by omega)
  | factor => exact factor_eq hus (by omega)
  | call =>
    cases us with
    | nil =>
      obtain ⟨calls, rfl⟩ := Nat.exists_eq_add_of_le' (show 1 ≤ calls by omega)
      rw [run, Descent.call, take, getElem?_placeOf hus]
      rfl
    | cons name us => exact call_eq hus (by rw [List.length_cons] at hcalls; omega)

/-- A part that begins with an operand goes forward, and nothing is wrong with what is repaired. -/
theorem mayAnswer_placed {vs : List Token} {result : Except ParseError (Parsed Expr vs)}
    {kind : Expr → Prop} (procedure : Procedure) (hus : us <:+ ts)
    (hlength : vs.length = us.length)
    (hparses : ∀ p, result = .ok p →
      ∃ part : Part, part.BeginsWithOperand ∧ Parses reading part vs p.rest)
    (hmakes : reading = .lenient → Makes kind result) :
    MayAnswer reading ts (placeOf ts us) procedure (placed ts result) := by
  have hle := hus.length_le
  cases hresult : result with
  | error e =>
    refine .wrong ?_
    cases reading with
    | strict => rfl
    -- With repairs every part comes to something.
    | lenient =>
      obtain ⟨value, rest, ⟨hrest, hyields⟩, -⟩ := hmakes rfl
      rw [hresult] at hyields
      cases hyields
  | ok p =>
    obtain ⟨part, hpart, hparses⟩ := hparses p hresult
    cases us with
    | nil =>
      have hrest : p.rest = [] := by simpa [hlength] using hparses.suffix.length_le
      rw [placed, hrest]
      exact .atEnd (Nat.sub_zero _)
    | cons t us =>
      have hvs : vs ≠ [] := List.ne_nil_of_length_eq_add_one hlength
      have hlt := hparses.length_lt hpart hvs
      exact .forward (by unfold placeOf; omega) (Nat.sub_le _ _)

/-- What the parser comes to is an answer that the procedure may give. -/
theorem mayAnswer_answer (procedure : Procedure) (reading : Reading) (hus : us <:+ ts) :
    MayAnswer reading ts (placeOf ts us) procedure (procedure.answer reading ts us) := by
  -- Any tree of the grammar will do, so all tokens are good.
  have hgood (vs : List Token) : ∀ t ∈ vs, True := fun _ _ => trivial
  cases procedure with
  | sum =>
    exact mayAnswer_placed .sum hus rfl
      (fun p hp => ⟨.sum p.value, trivial, parses_sum hp⟩)
      fun h => h ▸ closed_derives.makes_sum us (hgood us)
  | product =>
    exact mayAnswer_placed .product hus rfl
      (fun p hp => ⟨.product p.value, trivial, parses_product hp⟩)
      fun h => h ▸ closed_derives.makes_product us (hgood us)
  | power =>
    exact mayAnswer_placed .power hus rfl
      (fun p hp => ⟨.power p.value, trivial, parses_power hp⟩)
      fun h => h ▸ closed_derives.makes_power us (hgood us)
  | factor =>
    exact mayAnswer_placed .factor hus rfl
      (fun p hp => ⟨.factor p.value, trivial, parses_factor hp⟩)
      fun h => h ▸ closed_derives.makes_factor us (hgood us)
  | call =>
    cases us with
    | nil => exact .noName (Nat.sub_zero _)
    | cons name us =>
      exact mayAnswer_placed .call hus rfl
        (fun p hp => ⟨.factor p.value, trivial, parses_factor hp⟩)
        fun h => h ▸ closed_derives.makes_factor _ (hgood _)

end Procedure

/-! ### The whole parse -/

/-- Reads a list of tokens as one expression; no tokens at all are the number 0. -/
def parse (reading : Reading) (ts : List Token) (calls : Nat) : Except Halt Expr :=
  if ts.isEmpty then .ok (.number "0")
  else do
    let (e, place) ← sum reading ts calls 0
    match ts[place]? with
    | none => return e
    | some t => do
      reject reading (.leftoverToken t.text)
      return e

/-- Reading a whole text comes to what the parser comes to. -/
theorem parse_eq {calls : Nat} (hcalls : 8 * ts.length + 8 ≤ calls) :
    parse reading ts calls = (Expr.parse reading ts).mapError .wrong := by
  unfold parse Expr.parse
  split
  · rfl
  · have hstart : placeOf ts ts = 0 := Nat.sub_self _
    have hsum : sum reading ts calls 0 = placed ts (parseSum reading ts) := by
      rw [← hstart]
      exact sum_eq (List.suffix_refl ts) (by omega)
    rw [hsum]
    cases hp : parseSum reading ts with
    | error e => rfl
    | ok p =>
      rw [placed_ok_bind]
      dsimp only
      rw [getElem?_placeOf (parses_sum hp).suffix]
      cases p.rest with
      | nil => rfl
      | cons t us => cases reading <;> rfl

/-- Whatever the tokens are, every procedure ends with an answer from every place on. It goes
forward and not beyond the end, and stays only at the end, unless strict reading finds something
wrong; its answer is what the parser comes to on the tokens that are left. So the whole parse
ends. -/
theorem makes_progress (reading : Reading) (ts : List Token) :
    (∀ (procedure : Procedure) (place : Nat), place ≤ ts.length →
      procedure.MayAnswer reading ts place (procedure.answer reading ts (ts.drop place)) ∧
      ∀ calls ≥ 8 * (ts.length - place) + 8,
        procedure.run reading ts calls place = procedure.answer reading ts (ts.drop place)) ∧
    ∀ calls ≥ 8 * ts.length + 8,
      parse reading ts calls = (Expr.parse reading ts).mapError .wrong := by
  refine ⟨fun procedure place hplace => ?_, fun calls hcalls => parse_eq hcalls⟩
  have hleft : ts.drop place <:+ ts := List.drop_suffix place ts
  have hat : placeOf ts (ts.drop place) = place := placeOf_drop hplace
  constructor
  · have hmay := procedure.mayAnswer_answer reading hleft
    rwa [hat] at hmay
  · intro calls hcalls
    rw [← List.length_drop] at hcalls
    have hrun := procedure.run_eq_answer reading hleft hcalls
    rwa [hat] at hrun

/-- The tokens of `- sin(,(^`. -/
def danglingTokens : List Token :=
  [⟨.operator, "-"⟩, ⟨.function, "sin"⟩, .openParen, ⟨.comma, ","⟩, .openParen, ⟨.operator, "^"⟩]

/-- The comma becomes an operand, and what comes behind it stays unread: the call ends in front of
the parenthesis. -/
def danglingTree : Expr :=
  .prefixed "-" (.call "sin" [.reference ","])

/-- The call goes forward to the second parenthesis, which is not the end, and the parse ends there
too. -/
theorem makes_progress_danglingTokens :
    1 ≤ danglingTokens.length ∧
      Procedure.MayAnswer .lenient danglingTokens 1 .call
        (.ok (.call "sin" [.reference ","], 4)) ∧
        Expr.parse .lenient danglingTokens = .ok danglingTree := by
  have hcall : Procedure.call.run .lenient danglingTokens 56 1 =
      .ok (.call "sin" [.reference ","], 4) := by cbv
  have hparse : parse .lenient danglingTokens 56 = .ok danglingTree := by cbv
  have hplace : 1 ≤ danglingTokens.length := by decide
  obtain ⟨hprocedures, hwhole⟩ := makes_progress .lenient danglingTokens
  obtain ⟨hmay, hrun⟩ := hprocedures .call 1 hplace
  rw [← hrun 56 (by decide), hcall] at hmay
  refine ⟨hplace, hmay, ?_⟩
  have hsame := (hwhole 56 (by decide)).symm.trans hparse
  cases hresult : Expr.parse .lenient danglingTokens with
  | error e =>
    rw [hresult] at hsame
    cases hsame
  | ok e =>
    rw [hresult] at hsame
    cases hsame
    rfl

end Descent

end LiveSheet.Expr
