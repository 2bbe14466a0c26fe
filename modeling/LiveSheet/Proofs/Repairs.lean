import LiveSheet.Proofs.Grammar

/-!
# What lenient reading repairs

Lenient reading makes a tree of the grammar of every list of tokens (`Expr.exists_parse_lenient`):
what it puts for a missing operand and for a stray token is a factor, and a group or a call that it
closes itself is one too. What the grammar makes of good tokens may be any kind of trees
(`Expr.Closed`), so that more can be said of the trees that come of a text.

Both readings accept every tree of the grammar where its tokens stand
(`Expr.Derives.parse_of_tokens`). So a repaired tree is not written as the tokens that it was read
off, or strict reading would have accepted them, and no repairs make up for each other
(`Expr.parse_lenient_iff_repaired`).
-/

namespace LiveSheet.Expr

section

variable {α : Type} {ts us : List Token} {t : Token}

/-- Whether a part of the parser comes to a value of some kind, and leaves the last tokens
unread. -/
def Makes (kind : α → Prop) (result : Except ParseError (Parsed α ts)) : Prop :=
  ∃ value rest, Yields result value rest ∧ kind value ∧ rest <:+ ts

/-! The rules of the repairs. -/

/-- The lenient parser puts a 0 for a missing operand. -/
theorem yields_missingOperand : Yields (parseFactor .lenient []) (.number "0") [] :=
  ⟨Nat.le_refl _, by rw [parseFactor.eq_def]; rfl⟩

/-- The lenient parser does without a closing parenthesis. -/
theorem exists_yields_closing (error : ParseError) (ts : List Token) :
    ∃ rest, Yields (closing .lenient error ts) () rest ∧ rest <:+ ts := by
  unfold closing
  cases ts with
  | nil => exact ⟨[], ⟨Nat.le_refl _, rfl⟩, List.suffix_rfl⟩
  | cons t us =>
    dsimp only
    split
    · exact ⟨us, ⟨Nat.le_succ _, rfl⟩, List.suffix_cons t us⟩
    · exact ⟨t :: us, ⟨Nat.le_refl _, rfl⟩, List.suffix_rfl⟩

/-- A token that is no operand and begins none. -/
theorem yields_stray (hkind : t.kind ∉ [.number, .reference, .constant, .function])
    (hminus : t.isOperatorAmong ["-"] = false) (hopen : t ≠ .openParen) :
    Yields (parseFactor .lenient (t :: us)) (.reference t.text) us := by
  refine ⟨Nat.le_succ _, ?_⟩
  have hparen : t.isOpenParen = false := by simpa [Token.isOpenParen] using hopen
  rw [parseFactor.eq_def]
  dsimp only
  split
  all_goals simp_all [Reading.repair]

/-- The name of a function without a parenthesis behind it. -/
theorem yields_name (reading : Reading) (ht : t.kind = .function)
    (h : ∀ p ∈ us.head?, p ≠ .openParen) :
    Yields (parseFactor reading (t :: us)) (.reference t.text) us := by
  refine ⟨Nat.le_succ _, ?_⟩
  rw [parseFactor.eq_def]
  simp only [ht]
  cases us with
  | nil => rfl
  | cons p vs =>
    have hp : p.isOpenParen = false := by simpa [Token.isOpenParen] using h p (by simp)
    simp [hp]

end

/-! ### Every list of tokens is read -/

/-- Whether what the rules of the grammar make of trees of a kind, one for each level, is of that
kind again, if the tokens that become part of it are good. -/
structure Closed (good : Token → Prop) (kind : Level → Expr → Prop) : Prop where
  term {e : Expr} : kind .product e → kind .sum e
  addition {symbol : String} {left right : Expr} : symbol ∈ ["+", "-"] → kind .sum left →
    kind .product right → kind .sum (.binary symbol left right)
  power {e : Expr} : kind .power e → kind .product e
  multiplication {symbol : String} {left right : Expr} : symbol ∈ ["*", "/", "%"] →
    kind .product left → kind .power right → kind .product (.binary symbol left right)
  factor {e : Expr} : kind .factor e → kind .power e
  exponentiation {base exponent : Expr} : kind .factor base → kind .power exponent →
    kind .power (.binary "^" base exponent)
  negation {operand : Expr} : kind .factor operand → kind .factor (.prefixed "-" operand)
  zero : kind .factor (.number "0")
  number {text : String} : good ⟨.number, text⟩ → kind .factor (.number text)
  reference {t : Token} : good t → kind .factor (.reference t.text)
  constant {name : String} : good ⟨.constant, name⟩ → kind .factor (.constant name)
  group {inner : Expr} : kind .sum inner → kind .factor (.group inner)
  call {name : String} {args : List Expr} : good ⟨.function, name⟩ →
    (∀ arg ∈ args, kind .sum arg) → kind .factor (.call name args)

/-- The trees of the grammar are such a kind, whatever the tokens are. -/
theorem closed_derives : Closed (fun _ => True) Derives where
  term := .term
  addition := .addition
  power := .power
  multiplication := .multiplication
  factor := .factor
  exponentiation := .exponentiation
  negation := .negation
  zero := .number "0"
  number _ := .number _
  reference _ := .reference _
  constant _ := .constant _
  group := .group
  call _ := .call _

section

variable {good : Token → Prop} {kind : Level → Expr → Prop}

-- These end as the parser does: by the number of tokens, and then by the level of the grammar.
mutual

/-- Sums come out of the kind. -/
theorem Closed.makes_sum (h : Closed good kind) (ts : List Token) (hts : ∀ t ∈ ts, good t) :
    Makes (kind .sum) (parseSum .lenient ts) := by
  obtain ⟨first, us, hfirst, hproduct, hus⟩ := h.makes_product ts hts
  have : us.length ≤ ts.length := hus.length_le
  obtain ⟨e, rest, htail, hsum, hrest⟩ :=
    h.makes_sumTail us (fun t ht => hts t (hus.subset ht)) (h.term hproduct)
  exact ⟨e, rest, yields_sum hfirst htail, hsum, hrest.trans hus⟩
termination_by 8 * ts.length + 5

/-- Further summands keep the kind. -/
theorem Closed.makes_sumTail (h : Closed good kind) {left : Expr} : (ts : List Token) →
    (∀ t ∈ ts, good t) → kind .sum left → Makes (kind .sum) (parseSumTail .lenient left ts)
  | [], _, hleft => ⟨left, [], yields_sumTail_stop (notNext_nil _), hleft, List.suffix_rfl⟩
  | t :: us, hts, hleft => by
    by_cases ht : t.isOperatorAmong ["+", "-"] = true
    · obtain ⟨right, vs, hright, hproduct, hvs⟩ :=
        h.makes_product us fun t ht => hts t (List.mem_cons_of_mem _ ht)
      have : vs.length ≤ us.length := hvs.length_le
      have hvs' : vs <:+ t :: us := hvs.trans (List.suffix_cons t us)
      obtain ⟨e, rest, htail, hsum, hrest⟩ :=
        h.makes_sumTail vs (fun t ht => hts t (hvs'.subset ht))
          (h.addition (isOperatorAmong_iff.1 ht).2 hleft hproduct)
      exact ⟨e, rest, yields_sumTail ht hright htail, hsum, hrest.trans hvs'⟩
    · exact ⟨left, t :: us, yields_sumTail_stop (by simpa [NotNext] using ht), hleft,
        List.suffix_rfl⟩
termination_by ts => 8 * ts.length + 4

/-- Products come out of the kind. -/
theorem Closed.makes_product (h : Closed good kind) (ts : List Token) (hts : ∀ t ∈ ts, good t) :
    Makes (kind .product) (parseProduct .lenient ts) := by
  obtain ⟨first, us, hfirst, hpower, hus⟩ := h.makes_power ts hts
  have : us.length ≤ ts.length := hus.length_le
  obtain ⟨e, rest, htail, hproduct, hrest⟩ :=
    h.makes_productTail us (fun t ht => hts t (hus.subset ht)) (h.power hpower)
  exact ⟨e, rest, yields_product hfirst htail, hproduct, hrest.trans hus⟩
termination_by 8 * ts.length + 3

/-- Further factors keep the kind. -/
theorem Closed.makes_productTail (h : Closed good kind) {left : Expr} : (ts : List Token) →
    (∀ t ∈ ts, good t) → kind .product left →
      Makes (kind .product) (parseProductTail .lenient left ts)
  | [], _, hleft => ⟨left, [], yields_productTail_stop (notNext_nil _), hleft, List.suffix_rfl⟩
  | t :: us, hts, hleft => by
    by_cases ht : t.isOperatorAmong ["*", "/", "%"] = true
    · obtain ⟨right, vs, hright, hpower, hvs⟩ :=
        h.makes_power us fun t ht => hts t (List.mem_cons_of_mem _ ht)
      have : vs.length ≤ us.length := hvs.length_le
      have hvs' : vs <:+ t :: us := hvs.trans (List.suffix_cons t us)
      obtain ⟨e, rest, htail, hproduct, hrest⟩ :=
        h.makes_productTail vs (fun t ht => hts t (hvs'.subset ht))
          (h.multiplication (isOperatorAmong_iff.1 ht).2 hleft hpower)
      exact ⟨e, rest, yields_productTail ht hright htail, hproduct, hrest.trans hvs'⟩
    · exact ⟨left, t :: us, yields_productTail_stop (by simpa [NotNext] using ht), hleft,
        List.suffix_rfl⟩
termination_by ts => 8 * ts.length + 2

/-- Powers come out of the kind. -/
theorem Closed.makes_power (h : Closed good kind) (ts : List Token) (hts : ∀ t ∈ ts, good t) :
    Makes (kind .power) (parsePower .lenient ts) := by
  obtain ⟨base, us, hbase, hfactor, hus⟩ := h.makes_factor ts hts
  cases us with
  | nil => exact ⟨base, [], yields_power_alone hbase (notNext_nil _), h.factor hfactor, hus⟩
  | cons t us =>
    have : us.length < ts.length := hus.length_le
    by_cases ht : t.isOperatorAmong ["^"] = true
    · have hus' : us <:+ ts := (List.suffix_cons t us).trans hus
      obtain ⟨exponent, rest, hexponent, hpower, hrest⟩ :=
        h.makes_power us fun t ht => hts t (hus'.subset ht)
      exact ⟨_, rest, yields_power hbase ht hexponent, h.exponentiation hfactor hpower,
        hrest.trans hus'⟩
    · exact ⟨base, t :: us, yields_power_alone hbase (by simpa [NotNext] using ht),
        h.factor hfactor, hus⟩
termination_by 8 * ts.length + 1

/-- Factors come out of the kind. -/
theorem Closed.makes_factor (h : Closed good kind) : (ts : List Token) → (∀ t ∈ ts, good t) →
    Makes (kind .factor) (parseFactor .lenient ts)
  | [], _ => ⟨_, [], yields_missingOperand, h.zero, List.suffix_rfl⟩
  | ⟨tokenKind, text⟩ :: us, hts => by
    obtain ⟨ht, hus⟩ := List.forall_mem_cons.1 hts
    have hbehind : us <:+ ⟨tokenKind, text⟩ :: us := List.suffix_cons _ us
    -- Operators, parentheses and commas are taken for references, unless they begin an operand.
    have hstray (hvalue : tokenKind ∉ [.number, .reference, .constant, .function])
        (hminus : (⟨tokenKind, text⟩ : Token).isOperatorAmong ["-"] = false)
        (hopen : (⟨tokenKind, text⟩ : Token) ≠ .openParen) :
        Makes (kind .factor) (parseFactor .lenient (⟨tokenKind, text⟩ :: us)) :=
      ⟨_, us, yields_stray hvalue hminus hopen, h.reference ht, hbehind⟩
    cases tokenKind with
    | number => exact ⟨_, us, yields_number text us, h.number ht, hbehind⟩
    | reference => exact ⟨_, us, yields_reference text us, h.reference ht, hbehind⟩
    | constant => exact ⟨_, us, yields_constant text us, h.constant ht, hbehind⟩
    | function =>
      by_cases hopen : us.head? = some .openParen
      · obtain ⟨vs, rfl⟩ := List.head?_eq_some_iff.1 hopen
        obtain ⟨args, vs', hargs, hsums, hvs'⟩ :=
          h.makes_arguments vs fun t ht => hus t (List.mem_cons_of_mem _ ht)
        obtain ⟨rest, hclose, hrest⟩ := exists_yields_closing (.unclosedCall text) vs'
        exact ⟨_, rest, yields_call rfl hargs hclose, h.call ht hsums,
          ((hrest.trans hvs').trans (List.suffix_cons _ vs)).trans hbehind⟩
      · have hname : ∀ p ∈ us.head?, p ≠ .openParen := by
          rintro p hp rfl
          exact hopen hp
        exact ⟨_, us, yields_name .lenient rfl hname, h.reference ht, hbehind⟩
    | operator =>
      by_cases hminus : (⟨.operator, text⟩ : Token).isOperatorAmong ["-"] = true
      · obtain ⟨operand, rest, hoperand, hfactor, hrest⟩ := h.makes_factor us hus
        exact ⟨_, rest, yields_negation hminus hoperand, h.negation hfactor,
          hrest.trans hbehind⟩
      · exact hstray (by simp) (by simpa using hminus) (by simp [Token.openParen])
    | parenthesis =>
      by_cases hopen : (⟨.parenthesis, text⟩ : Token) = .openParen
      · obtain ⟨inner, vs, hinner, hsum, hvs⟩ := h.makes_sum us hus
        obtain ⟨rest, hclose, hrest⟩ := exists_yields_closing .unclosedGroup vs
        rw [hopen]
        exact ⟨_, rest, yields_group hinner hclose, h.group hsum,
          (hrest.trans hvs).trans (List.suffix_cons _ us)⟩
      · exact hstray (by simp) rfl hopen
    | comma => exact hstray (by simp) rfl (by simp [Token.openParen])
termination_by ts => 8 * ts.length

/-- Arguments come out of the kind. -/
theorem Closed.makes_arguments (h : Closed good kind) : (ts : List Token) → (∀ t ∈ ts, good t) →
    Makes (∀ arg ∈ ·, kind .sum arg) (parseArguments .lenient ts)
  | [], _ => ⟨[], [], yields_arguments_none (by simp), by simp, List.suffix_rfl⟩
  | t :: us, hts => by
    by_cases ht : t = .closeParen
    · exact ⟨[], t :: us, yields_arguments_none (by simpa using ht), by simp, List.suffix_rfl⟩
    · obtain ⟨first, vs, hfirst, hsum, hvs⟩ := h.makes_sum (t :: us) hts
      have : vs.length ≤ us.length + 1 := hvs.length_le
      obtain ⟨more, rest, hmore, hsums, hrest⟩ :=
        h.makes_argumentsTail vs fun t ht => hts t (hvs.subset ht)
      exact ⟨first :: more, rest, yields_arguments ht hfirst hmore,
        List.forall_mem_cons.2 ⟨hsum, hsums⟩, hrest.trans hvs⟩
termination_by ts => 8 * ts.length + 7

/-- Further arguments come out of the kind. -/
theorem Closed.makes_argumentsTail (h : Closed good kind) : (ts : List Token) →
    (∀ t ∈ ts, good t) → Makes (∀ arg ∈ ·, kind .sum arg) (parseArgumentsTail .lenient ts)
  | [], _ => ⟨[], [], yields_argumentsTail_stop (by simp), by simp, List.suffix_rfl⟩
  | t :: us, hts => by
    by_cases ht : t.kind = .comma
    · obtain ⟨next, vs, hnext, hsum, hvs⟩ :=
        h.makes_sum us fun t ht => hts t (List.mem_cons_of_mem _ ht)
      have : vs.length ≤ us.length := hvs.length_le
      have hvs' : vs <:+ t :: us := hvs.trans (List.suffix_cons t us)
      obtain ⟨more, rest, hmore, hsums, hrest⟩ :=
        h.makes_argumentsTail vs fun t ht => hts t (hvs'.subset ht)
      exact ⟨next :: more, rest, yields_argumentsTail ht hnext hmore,
        List.forall_mem_cons.2 ⟨hsum, hsums⟩, hrest.trans hvs'⟩
    · exact ⟨[], t :: us, yields_argumentsTail_stop (by simpa using ht), by simp,
        List.suffix_rfl⟩
termination_by ts => 8 * ts.length + 6

end

/-- Lenient reading comes to a tree of each such kind, if all tokens are good. -/
theorem Closed.parse_lenient (h : Closed good kind) {ts : List Token} (hts : ∀ t ∈ ts, good t) :
    ∃ e, parse .lenient ts = .ok e ∧ kind .sum e := by
  unfold parse
  cases ts with
  | nil => exact ⟨_, rfl, h.term (h.power (h.factor h.zero))⟩
  | cons t us =>
    obtain ⟨e, rest, ⟨hle, hsum⟩, hkind, -⟩ := h.makes_sum (t :: us) hts
    refine ⟨e, ?_, hkind⟩
    rw [if_neg (by simp), hsum]
    cases rest <;> rfl

end

/-! ### The two readings of the same tokens -/

variable {ts : List Token} {e : Expr}

/-- Lenient reading comes to a tree of the grammar, whatever the tokens are. -/
theorem exists_parse_lenient (ts : List Token) : ∃ e, parse .lenient ts = .ok e ∧ e.Derives .sum :=
  closed_derives.parse_lenient fun _ _ => trivial

/-- What strict reading accepts, lenient reading reads as the same tree. -/
theorem parse_lenient_of_strict (hne : ts ≠ []) (hcalls : Token.callsOpen ts = true)
    (h : parse .strict ts = .ok e) : parse .lenient ts = .ok e := by
  obtain ⟨hderives, htokens⟩ := derives_of_parse_strict hne hcalls h
  exact hderives.parse_of_tokens .lenient htokens

/-- Lenient reading always comes to a tree, and strict reading to the same one or to an error. It is
an error if and only if the tree is not written as the tokens that it was read off, however their
commas are spelled: something was put into it for a missing operand or a missing parenthesis, or a
stray token was taken for a reference, or tokens were left unread. -/
theorem parse_lenient_iff_repaired (ts : List Token) (hne : ts ≠ [])
    (hcalls : Token.callsOpen ts = true) :
    ∃ e, parse .lenient ts = .ok e ∧ (∀ e', parse .strict ts = .ok e' → e' = e) ∧
      ((∃ error, parse .strict ts = .error error) ↔ e.tokens ≠ ts.map Token.plain) := by
  obtain ⟨e, hlenient, hderives⟩ := exists_parse_lenient ts
  have hsame (e' : Expr) (h : parse .strict ts = .ok e') : e' = e := by
    simpa [hlenient, eq_comm] using parse_lenient_of_strict hne hcalls h
  refine ⟨e, hlenient, hsame, ?_, fun hrepaired => ?_⟩
  · rintro ⟨error, herror⟩ htokens
    -- a tree of the grammar that is written as these tokens would have been accepted
    rw [hderives.parse_strict htokens] at herror
    cases herror
  · cases hstrict : parse .strict ts with
    | error error => exact ⟨error, rfl⟩
    | ok e' =>
      obtain rfl := hsame e' hstrict
      exact absurd (derives_of_parse_strict hne hcalls hstrict).2 hrepaired

/-- The tokens of `-(2 *) + pow(a, 3`. -/
def unclosedTokens : List Token :=
  [⟨.operator, "-"⟩, .openParen, ⟨.number, "2"⟩, ⟨.operator, "*"⟩, .closeParen, ⟨.operator, "+"⟩,
    ⟨.function, "pow"⟩, .openParen, ⟨.reference, "a"⟩, ⟨.comma, ","⟩, ⟨.number, "3"⟩]

/-- What lenient reading makes of them: the parenthesis that closes the group is taken for an
operand, so the group goes on to the end and is closed there, and so is the call. -/
def repairedTree : Expr :=
  .prefixed "-" (.group (.binary "+" (.binary "*" (.number "2") (.reference ")"))
    (.call "pow" [.reference "a", .number "3"])))

/-- The tree has a stray token and two parentheses that were put in, so strict reading refuses. -/
theorem parse_unclosedTokens :
    unclosedTokens ≠ [] ∧ Token.callsOpen unclosedTokens = true ∧
      parse .lenient unclosedTokens = .ok repairedTree ∧
        repairedTree.tokens ≠ unclosedTokens.map Token.plain ∧
          ∃ error, parse .strict unclosedTokens = .error error := by
  have hne : unclosedTokens ≠ [] := by decide
  have hcalls : Token.callsOpen unclosedTokens = true := by decide
  have hlenient : parse .lenient unclosedTokens = .ok repairedTree := by cbv
  have hrepaired : repairedTree.tokens ≠ unclosedTokens.map Token.plain := by decide
  obtain ⟨e, he, -, hiff⟩ := parse_lenient_iff_repaired unclosedTokens hne hcalls
  obtain rfl : repairedTree = e := by simpa [hlenient] using he
  exact ⟨hne, hcalls, hlenient, hrepaired, hiff.2 hrepaired⟩

end LiveSheet.Expr
