import LiveSheet.Expr.Parser

/-!
# The parser as rules

`Expr.Parses` says by rules what each part of the parser can do with the tokens before it: what it
reads, what it comes to and what it leaves, strictly or with repairs. Whatever the parser reads, it
reads by these rules (`Expr.parses_sum` and the same for the other parts, `Expr.exists_parses`). So
a property of all that can be read is one induction over the rules, and the parser itself is taken
apart only here.
-/

namespace LiveSheet.Expr

/-! ### The rules -/

/-- An operator that is one of some symbols. -/
theorem isOperatorAmong_iff {t : Token} {symbols : List String} :
    t.isOperatorAmong symbols = true ↔ t.kind = .operator ∧ t.text ∈ symbols := by
  simp [Token.isOperatorAmong]

/-- An operator with one of the symbols is spelled with it. -/
theorem exists_of_isOperatorAmong {t : Token} {symbols : List String}
    (h : t.isOperatorAmong symbols = true) : ∃ symbol ∈ symbols, t = ⟨.operator, symbol⟩ := by
  obtain ⟨hkind, hmem⟩ := isOperatorAmong_iff.1 h
  obtain ⟨kind, text⟩ := t
  obtain rfl : kind = .operator := hkind
  exact ⟨text, hmem, rfl⟩

/-- Whether none of some operators comes next. -/
def NotNext (symbols : List String) (ts : List Token) : Prop :=
  ∀ t ∈ ts.head?, t.isOperatorAmong symbols = false

/-- No operator follows at the end. -/
theorem notNext_nil (symbols : List String) : NotNext symbols [] := by
  simp [NotNext]

/-- An operator that is none of the symbols. -/
theorem notNext_operator {symbol : String} {symbols : List String} {ts : List Token}
    (h : symbol ∉ symbols) : NotNext symbols (⟨.operator, symbol⟩ :: ts) := by
  simpa [NotNext, Token.isOperatorAmong] using h

/-- A token that is no operator. -/
theorem NotNext.of_kind {symbols : List String} {ts : List Token}
    (h : ∀ t ∈ ts.head?, t.kind ≠ .operator) : NotNext symbols ts := by
  intro t ht
  simp [Token.isOperatorAmong, h t ht]

/-- A part of the parser with what it comes to; a tail also with what it goes on from. -/
inductive Part where
  | sum (e : Expr)
  | sumTail (left e : Expr)
  | product (e : Expr)
  | productTail (left e : Expr)
  | power (e : Expr)
  | factor (e : Expr)
  | arguments (es : List Expr)
  | argumentsTail (es : List Expr)

/-- A closing parenthesis is read, or nothing if it may be missing. -/
inductive Closes : Reading → List Token → List Token → Prop
  | closed (reading : Reading) (rest : List Token) : Closes reading (.closeParen :: rest) rest
  | missing {ts : List Token} (h : ∀ t ∈ ts.head?, t ≠ .closeParen) : Closes .lenient ts ts

/-- What the parts of the parser read off the front of a list of tokens, and what they leave. -/
inductive Parses : Reading → Part → List Token → List Token → Prop
  | sum {reading : Reading} {first e : Expr} {ts us rest : List Token}
      (hfirst : Parses reading (.product first) ts us)
      (htail : Parses reading (.sumTail first e) us rest) : Parses reading (.sum e) ts rest
  | sumEnd {reading : Reading} {e : Expr} {ts : List Token} (h : NotNext ["+", "-"] ts) :
      Parses reading (.sumTail e e) ts ts
  | addition {reading : Reading} {left right e : Expr} {t : Token} {us vs rest : List Token}
      (ht : t.isOperatorAmong ["+", "-"] = true) (hright : Parses reading (.product right) us vs)
      (htail : Parses reading (.sumTail (.binary t.text left right) e) vs rest) :
      Parses reading (.sumTail left e) (t :: us) rest
  | product {reading : Reading} {first e : Expr} {ts us rest : List Token}
      (hfirst : Parses reading (.power first) ts us)
      (htail : Parses reading (.productTail first e) us rest) : Parses reading (.product e) ts rest
  | productEnd {reading : Reading} {e : Expr} {ts : List Token}
      (h : NotNext ["*", "/", "%"] ts) : Parses reading (.productTail e e) ts ts
  | multiplication {reading : Reading} {left right e : Expr} {t : Token} {us vs rest : List Token}
      (ht : t.isOperatorAmong ["*", "/", "%"] = true)
      (hright : Parses reading (.power right) us vs)
      (htail : Parses reading (.productTail (.binary t.text left right) e) vs rest) :
      Parses reading (.productTail left e) (t :: us) rest
  | base {reading : Reading} {e : Expr} {ts rest : List Token}
      (hbase : Parses reading (.factor e) ts rest) (h : NotNext ["^"] rest) :
      Parses reading (.power e) ts rest
  | exponentiation {reading : Reading} {base exponent : Expr} {t : Token}
      {ts us rest : List Token} (hbase : Parses reading (.factor base) ts (t :: us))
      (ht : t.isOperatorAmong ["^"] = true) (hexponent : Parses reading (.power exponent) us rest) :
      Parses reading (.power (.binary "^" base exponent)) ts rest
  | number {reading : Reading} (text : String) (us : List Token) :
      Parses reading (.factor (.number text)) (⟨.number, text⟩ :: us) us
  | reference {reading : Reading} (name : String) (us : List Token) :
      Parses reading (.factor (.reference name)) (⟨.reference, name⟩ :: us) us
  | constant {reading : Reading} (name : String) (us : List Token) :
      Parses reading (.factor (.constant name)) (⟨.constant, name⟩ :: us) us
  | negation {reading : Reading} {operand : Expr} {t : Token} {us rest : List Token}
      (ht : t.isOperatorAmong ["-"] = true) (h : Parses reading (.factor operand) us rest) :
      Parses reading (.factor (.prefixed "-" operand)) (t :: us) rest
  | group {reading : Reading} {inner : Expr} {us vs rest : List Token}
      (hinner : Parses reading (.sum inner) us vs) (hclose : Closes reading vs rest) :
      Parses reading (.factor (.group inner)) (.openParen :: us) rest
  | call {reading : Reading} {name : String} {args : List Expr} {us vs rest : List Token}
      (hargs : Parses reading (.arguments args) us vs) (hclose : Closes reading vs rest) :
      Parses reading (.factor (.call name args)) (⟨.function, name⟩ :: .openParen :: us) rest
  /-- A function without a parenthesis is taken for a reference. -/
  | name {reading : Reading} {name : String} {us : List Token}
      (h : ∀ p ∈ us.head?, p ≠ .openParen) :
      Parses reading (.factor (.reference name)) (⟨.function, name⟩ :: us) us
  /-- A missing operand is taken to be 0. -/
  | missing : Parses .lenient (.factor (.number "0")) [] []
  /-- A token that begins no operand is taken for a reference. -/
  | stray {kind : TokenKind} {text : String} {us : List Token}
      (hkind : kind ∉ [.number, .reference, .constant, .function])
      (hminus : (⟨kind, text⟩ : Token).isOperatorAmong ["-"] = false)
      (hopen : ⟨kind, text⟩ ≠ Token.openParen) :
      Parses .lenient (.factor (.reference text)) (⟨kind, text⟩ :: us) us
  | noArguments {reading : Reading} {ts : List Token} (h : ∀ t ∈ ts.head?, t = .closeParen) :
      Parses reading (.arguments []) ts ts
  | arguments {reading : Reading} {first : Expr} {more : List Expr} {t : Token}
      {us vs rest : List Token} (ht : t ≠ .closeParen)
      (hfirst : Parses reading (.sum first) (t :: us) vs)
      (hmore : Parses reading (.argumentsTail more) vs rest) :
      Parses reading (.arguments (first :: more)) (t :: us) rest
  | argumentsEnd {reading : Reading} {ts : List Token} (h : ∀ t ∈ ts.head?, t.kind ≠ .comma) :
      Parses reading (.argumentsTail []) ts ts
  | nextArgument {reading : Reading} {next : Expr} {more : List Expr} {t : Token}
      {us vs rest : List Token} (ht : t.kind = .comma) (hnext : Parses reading (.sum next) us vs)
      (hmore : Parses reading (.argumentsTail more) vs rest) :
      Parses reading (.argumentsTail (next :: more)) (t :: us) rest

/-! ### The parser reads by the rules -/

variable {reading : Reading} {ts : List Token}

/-- What the parser does about a closing parenthesis is what the grammar says. -/
theorem closes_of_closing {error : ParseError} {p : Parsed Unit ts}
    (h : closing reading error ts = .ok p) : Closes reading ts p.rest := by
  cases ts with
  | nil =>
    cases reading with
    | strict => cases h
    | lenient =>
      obtain rfl := Except.ok.inj h
      exact .missing nofun
  | cons t us =>
    have hcons : closing reading error (t :: us) =
        if t.isCloseParen = true then .ok ⟨(), us, Nat.le_succ _⟩
        else reading.repair error (.unread () (t :: us)) := rfl
    rw [hcons] at h
    split at h
    · next hclose =>
      obtain rfl : t = .closeParen := by simpa [Token.isCloseParen] using hclose
      obtain rfl := Except.ok.inj h
      exact .closed reading us
    · next hopen =>
      cases reading with
      | strict => cases h
      | lenient =>
        obtain rfl := Except.ok.inj h
        refine .missing fun t' ht' => ?_
        obtain rfl : t = t' := by simpa using ht'
        simpa [Token.isCloseParen] using hopen

-- These end as the parser does: by the number of tokens, and then by the level of the grammar.
mutual

/-- The parser of sums keeps to the grammar. -/
theorem parses_sum {ts : List Token} {p : Parsed Expr ts} (h : parseSum reading ts = .ok p) :
    Parses reading (.sum p.value) ts p.rest := by
  rw [parseSum] at h
  split at h
  · cases h
  · next first hfirst =>
    have := first.length_rest_le
    dsimp only at h
    split at h
    · cases h
    · next all hall =>
      obtain rfl := Except.ok.inj h
      exact .sum (parses_product hfirst) (parses_sumTail hall)
termination_by 8 * ts.length + 5

/-- The parser of further summands keeps to the grammar. -/
theorem parses_sumTail {left : Expr} : {ts : List Token} → {p : Parsed Expr ts} →
    parseSumTail reading left ts = .ok p → Parses reading (.sumTail left p.value) ts p.rest
  | [], p, h => by
    rw [parseSumTail] at h
    obtain rfl := Except.ok.inj h
    exact .sumEnd (notNext_nil _)
  | t :: us, p, h => by
    rw [parseSumTail] at h
    split at h
    · next ht =>
      split at h
      · cases h
      · next right hright =>
        have := right.length_rest_le
        dsimp only at h
        split at h
        · cases h
        · next all hall =>
          obtain rfl := Except.ok.inj h
          exact .addition ht (parses_product hright) (parses_sumTail hall)
    · next ht =>
      obtain rfl := Except.ok.inj h
      exact .sumEnd (by simpa [NotNext] using ht)
termination_by ts => 8 * ts.length + 4

/-- The parser of products keeps to the grammar. -/
theorem parses_product {ts : List Token} {p : Parsed Expr ts}
    (h : parseProduct reading ts = .ok p) : Parses reading (.product p.value) ts p.rest := by
  rw [parseProduct] at h
  split at h
  · cases h
  · next first hfirst =>
    have := first.length_rest_le
    dsimp only at h
    split at h
    · cases h
    · next all hall =>
      obtain rfl := Except.ok.inj h
      exact .product (parses_power hfirst) (parses_productTail hall)
termination_by 8 * ts.length + 3

/-- The parser of further factors keeps to the grammar. -/
theorem parses_productTail {left : Expr} : {ts : List Token} → {p : Parsed Expr ts} →
    parseProductTail reading left ts = .ok p → Parses reading (.productTail left p.value) ts p.rest
  | [], p, h => by
    rw [parseProductTail] at h
    obtain rfl := Except.ok.inj h
    exact .productEnd (notNext_nil _)
  | t :: us, p, h => by
    rw [parseProductTail] at h
    split at h
    · next ht =>
      split at h
      · cases h
      · next right hright =>
        have := right.length_rest_le
        dsimp only at h
        split at h
        · cases h
        · next all hall =>
          obtain rfl := Except.ok.inj h
          exact .multiplication ht (parses_power hright) (parses_productTail hall)
    · next ht =>
      obtain rfl := Except.ok.inj h
      exact .productEnd (by simpa [NotNext] using ht)
termination_by ts => 8 * ts.length + 2

/-- The parser of powers keeps to the grammar. -/
theorem parses_power {ts : List Token} {p : Parsed Expr ts} (h : parsePower reading ts = .ok p) :
    Parses reading (.power p.value) ts p.rest := by
  rw [parsePower] at h
  split at h
  · cases h
  · next base hbase =>
    have hfactor := parses_factor hbase
    have hle := base.length_rest_le
    -- Behind the base the next token decides, if there is one.
    split at h
    · next t us hrest =>
      rw [hrest] at hfactor hle
      dsimp only at h
      split at h
      · next ht =>
        split at h
        · cases h
        · next exponent hexponent =>
          have hlt : us.length < ts.length := hle
          obtain rfl := Except.ok.inj h
          exact .exponentiation hfactor ht (parses_power hexponent)
      · next ht =>
        obtain rfl := Except.ok.inj h
        rw [hrest]
        exact .base hfactor (by simpa [NotNext] using ht)
    · next hrest =>
      obtain rfl := Except.ok.inj h
      exact .base hfactor (hrest ▸ notNext_nil _)
termination_by 8 * ts.length + 1

/-- The parser of factors keeps to the grammar. -/
theorem parses_factor : {ts : List Token} → {p : Parsed Expr ts} →
    parseFactor reading ts = .ok p → Parses reading (.factor p.value) ts p.rest
  | [], p, h => by
    rw [parseFactor.eq_def] at h
    cases reading with
    | strict => cases h
    | lenient =>
      obtain rfl := Except.ok.inj h
      exact .missing
  | ⟨kind, text⟩ :: us, p, h => by
    rw [parseFactor.eq_def] at h
    cases kind with
    | number =>
      obtain rfl := Except.ok.inj h
      exact .number text us
    | reference =>
      obtain rfl := Except.ok.inj h
      exact .reference text us
    | constant =>
      obtain rfl := Except.ok.inj h
      exact .constant text us
    | function =>
      cases us with
      | nil =>
        obtain rfl := Except.ok.inj h
        exact .name nofun
      | cons q vs =>
        dsimp only at h
        split at h
        · next hopen =>
          obtain rfl : q = .openParen := by simpa [Token.isOpenParen] using hopen
          split at h
          · cases h
          · next args hargs =>
            split at h
            · cases h
            · next close hclose =>
              obtain rfl := Except.ok.inj h
              exact .call (parses_arguments hargs) (closes_of_closing hclose)
        · next hopen =>
          obtain rfl := Except.ok.inj h
          exact .name (by simpa [Token.isOpenParen] using hopen)
    | operator | parenthesis | comma =>
      dsimp only at h
      split at h
      · next hminus =>
        split at h
        · cases h
        · next operand hoperand =>
          obtain rfl := Except.ok.inj h
          exact .negation hminus (parses_factor hoperand)
      · next hminus =>
        split at h
        · next hopen =>
          rw [Token.isOpenParen, beq_iff_eq] at hopen
          split at h
          · cases h
          · next inner hinner =>
            split at h
            · cases h
            · next close hclose =>
              obtain rfl := Except.ok.inj h
              rw [hopen]
              exact .group (parses_sum hinner) (closes_of_closing hclose)
        · next hopen =>
          -- What begins no operand is refused, or taken for a reference.
          cases reading with
          | strict => cases h
          | lenient =>
            obtain rfl := Except.ok.inj h
            exact .stray (by simp) (by simpa using hminus)
              (by simpa [Token.isOpenParen] using hopen)
termination_by ts => 8 * ts.length

/-- The parser of arguments keeps to the grammar. -/
theorem parses_arguments : {ts : List Token} → {p : Parsed (List Expr) ts} →
    parseArguments reading ts = .ok p → Parses reading (.arguments p.value) ts p.rest
  | [], p, h => by
    rw [parseArguments] at h
    obtain rfl := Except.ok.inj h
    exact .noArguments nofun
  | t :: us, p, h => by
    rw [parseArguments] at h
    split at h
    · next hclose =>
      obtain rfl := Except.ok.inj h
      refine .noArguments fun t' ht' => ?_
      obtain rfl : t = t' := by simpa using ht'
      simpa [Token.isCloseParen] using hclose
    · next hopen =>
      split at h
      · cases h
      · next first hfirst =>
        -- The measure of the parser needs to know that the first argument leaves no more tokens.
        have : first.rest.length ≤ us.length + 1 := first.length_rest_le
        dsimp only at h
        split at h
        · cases h
        · next more hmore =>
          obtain rfl := Except.ok.inj h
          exact .arguments (by simpa [Token.isCloseParen] using hopen) (parses_sum hfirst)
            (parses_argumentsTail hmore)
termination_by ts => 8 * ts.length + 7

/-- The parser of further arguments keeps to the grammar. -/
theorem parses_argumentsTail : {ts : List Token} → {p : Parsed (List Expr) ts} →
    parseArgumentsTail reading ts = .ok p → Parses reading (.argumentsTail p.value) ts p.rest
  | [], p, h => by
    rw [parseArgumentsTail] at h
    obtain rfl := Except.ok.inj h
    exact .argumentsEnd nofun
  | t :: us, p, h => by
    rw [parseArgumentsTail] at h
    split at h
    · next ht =>
      split at h
      · cases h
      · next next hnext =>
        have := next.length_rest_le
        dsimp only at h
        split at h
        · cases h
        · next more hmore =>
          obtain rfl := Except.ok.inj h
          exact .nextArgument ht (parses_sum hnext) (parses_argumentsTail hmore)
    · next ht =>
      obtain rfl := Except.ok.inj h
      refine .argumentsEnd fun t' ht' => ?_
      obtain rfl : t = t' := by simpa using ht'
      exact ht
termination_by ts => 8 * ts.length + 6

end

/-- Tokens that are read as a tree are read by the rules, and strictly up to the end; no tokens at
all are read as 0. -/
theorem exists_parses {e : Expr} (h : parse reading ts = .ok e) :
    (ts = [] ∧ e = .number "0") ∨
      ∃ rest, Parses reading (.sum e) ts rest ∧ (reading = .strict → rest = []) := by
  unfold parse at h
  split at h
  · next hempty =>
    obtain rfl := Except.ok.inj h
    exact .inl ⟨List.isEmpty_iff.1 hempty, rfl⟩
  · split at h
    · cases h
    · next p hp =>
      have hparses := parses_sum hp
      split at h
      · next hrest =>
        obtain rfl := Except.ok.inj h
        exact .inr ⟨_, hparses, fun _ => hrest⟩
      · -- Tokens behind the sum are refused, or left unread.
        cases reading with
        | strict => cases h
        | lenient =>
          obtain rfl := Except.ok.inj h
          exact .inr ⟨_, hparses, nofun⟩

/-- A text that is read strictly is one sum of the grammar with nothing behind it. -/
theorem parses_of_parse_strict {e : Expr} (hne : ts ≠ []) (h : parse .strict ts = .ok e) :
    Parses .strict (.sum e) ts [] := by
  rcases exists_parses h with ⟨hempty, -⟩ | ⟨rest, hparses, hrest⟩
  · exact absurd hempty hne
  · exact hrest rfl ▸ hparses

/-! ### What is left -/

variable {part : Part} {rest : List Token}

/-- Without repairs a closing parenthesis is there. -/
theorem Closes.eq_of_strict (h : Closes .strict ts rest) : ts = .closeParen :: rest := by
  cases h
  rfl

/-- What is left behind a closing parenthesis is the end of the tokens. -/
theorem Closes.suffix (h : Closes reading ts rest) : rest <:+ ts := by
  cases h with
  | closed => exact List.suffix_cons _ _
  | missing => exact List.suffix_rfl

/-- What is left behind a part of the grammar is the end of the tokens. -/
theorem Parses.suffix (h : Parses reading part ts rest) : rest <:+ ts := by
  induction h with
  | sumEnd | productEnd | missing | noArguments | argumentsEnd => exact List.suffix_rfl
  | number | reference | constant | name | stray => exact List.suffix_cons _ _
  | base _ _ ih => exact ih
  | sum _ _ ihfirst ihrest | product _ _ ihfirst ihrest | arguments _ _ _ ihfirst ihrest =>
    exact ihrest.trans ihfirst
  | negation _ _ ih => exact ih.trans (List.suffix_cons _ _)
  | addition _ _ _ ihnext ihrest | multiplication _ _ _ ihnext ihrest
  | nextArgument _ _ _ ihnext ihrest =>
    exact (ihrest.trans ihnext).trans (List.suffix_cons _ _)
  | exponentiation _ _ _ ihbase ihexponent =>
    exact (ihexponent.trans (List.suffix_cons _ _)).trans ihbase
  | group _ hclose ih => exact (hclose.suffix.trans ih).trans (List.suffix_cons _ _)
  | call _ hclose ih =>
    have hargs := hclose.suffix.trans ih
    exact hargs.trans ((List.suffix_cons _ _).trans (List.suffix_cons _ _))

/-- Whether a part of the parser begins with an operand. -/
def Part.BeginsWithOperand : Part → Prop
  | .sum _ | .product _ | .power _ | .factor _ => True
  | _ => False

/-- A part that begins with an operand reads a token, if one is left. -/
theorem Parses.length_lt (h : Parses reading part ts rest) (hpart : part.BeginsWithOperand)
    (hts : ts ≠ []) : rest.length < ts.length := by
  induction h with
  | sum _ htail ihfirst _ | product _ htail ihfirst _ =>
    exact Nat.lt_of_le_of_lt htail.suffix.length_le (ihfirst trivial hts)
  | base _ _ ih => exact ih trivial hts
  | exponentiation _ _ hexponent ihbase _ =>
    exact Nat.lt_trans (Nat.lt_succ_of_le hexponent.suffix.length_le) (ihbase trivial hts)
  | number | reference | constant | name | stray => exact Nat.lt_succ_self _
  | negation _ h _ => exact Nat.lt_succ_of_le h.suffix.length_le
  | group hinner hclose _ =>
    exact Nat.lt_succ_of_le (hclose.suffix.trans hinner.suffix).length_le
  | call hargs hclose _ =>
    have hle := (hclose.suffix.trans hargs.suffix).length_le
    exact Nat.lt_succ_of_le (Nat.le_succ_of_le hle)
  | missing => exact absurd rfl hts
  | _ => exact hpart.elim

end LiveSheet.Expr
