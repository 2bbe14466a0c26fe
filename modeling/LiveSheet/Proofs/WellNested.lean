import LiveSheet.Latex.Equation
import LiveSheet.Proofs.LongestMatch
import LiveSheet.Proofs.Repairs
import LiveSheet.Registry.Standard

/-!
# Brackets of displayed equations

The brackets of a formula are its braces and the pairs of growing parentheses. They are well nested
(`WellNested`) if every one that is opened is closed again, by one of its kind, after all that were
opened behind it.

A piece of a formula keeps its brackets to itself (`Latex.Nests`) if they are well nested and what
is written behind it makes no other brackets of its end. Rules that put such pieces together make
such pieces, so a whole tree is one whatever has been repaired in it (`Latex.nests_ofExpr`), and an
equation is one too (`Latex.wellNested_equation`).
-/

namespace LiveSheet.Latex

/-! ### Brackets -/

/-- The kinds of brackets. -/
inductive Bracket where
  | brace
  | fence
deriving Repr, DecidableEq

/-- A bracket that is opened or closed. -/
inductive Mark where
  | opening (kind : Bracket)
  | closing (kind : Bracket)
deriving Repr, DecidableEq

/-- The brackets of a formula. -/
def marks : List Char → List Mark
  | [] => []
  | '\x7b' :: cs => .opening .brace :: marks cs
  | '\x7d' :: cs => .closing .brace :: marks cs
  | '\\' :: 'l' :: 'e' :: 'f' :: 't' :: '(' :: cs => .opening .fence :: marks cs
  | '\\' :: 'r' :: 'i' :: 'g' :: 'h' :: 't' :: ')' :: cs => .closing .fence :: marks cs
  | _ :: cs => marks cs

/-- Brackets each of which is closed by one of its kind, and those between them as well. -/
inductive WellNested : List Mark → Prop
  | nil : WellNested []
  | pair (kind : Bracket) {inner rest : List Mark} (hinner : WellNested inner)
      (hrest : WellNested rest) :
      WellNested (.opening kind :: (inner ++ .closing kind :: rest))

/-- Well nested marks behind well nested ones. -/
theorem WellNested.append {front back : List Mark} (hfront : WellNested front)
    (hback : WellNested back) : WellNested (front ++ back) := by
  induction hfront with
  | nil => exact hback
  | pair kind hinner _ _ ih =>
    rw [List.cons_append, List.append_assoc, List.cons_append]
    exact .pair kind hinner ih

/-- Brackets around well nested ones. -/
theorem WellNested.around (kind : Bracket) {inner : List Mark} (h : WellNested inner) :
    WellNested (.opening kind :: (inner ++ [.closing kind])) :=
  .pair kind h .nil

example : marks "\\frac\x7b\\left(a\\right)\x7d\x7bb\x7d".toList =
  [.opening .brace, .opening .fence, .closing .fence, .closing .brace,
    .opening .brace, .closing .brace] := by decide

/-! ### Pieces of formulas -/

/-- Whether a piece of a formula has well nested brackets, whatever is written behind it. -/
structure Nests (s : String) : Prop where
  /-- The brackets are those of the piece and those of what comes behind. -/
  splits : ∀ rest, marks (s.toList ++ rest) = marks s.toList ++ marks rest
  nested : WellNested (marks s.toList)

/-- Pieces one behind the other. -/
theorem Nests.append {s s' : String} (h : Nests s) (h' : Nests s') : Nests (s ++ s') where
  splits rest := by
    rw [String.toList_append, List.append_assoc, h.splits, h'.splits, h.splits, List.append_assoc]
  nested := by
    rw [String.toList_append, h.splits]
    exact h.nested.append h'.nested

/-- A word of LaTeX that makes no brackets, whatever is written behind it. -/
theorem nests_word {s : String} (h : ∀ rest, marks (s.toList ++ rest) = marks rest) : Nests s := by
  have hnone : marks s.toList = [] := by simpa [marks] using h []
  refine ⟨fun rest => ?_, ?_⟩
  · rw [h, hnone, List.nil_append]
  · rw [hnone]
    exact .nil

/-- A character that is no part of a bracket. -/
def isPlainChar (c : Char) : Bool :=
  c != '\\' && c != '\x7b' && c != '\x7d'

/-- Whether a text is made of such characters. -/
def IsPlain (s : String) : Prop :=
  ∀ c ∈ s.toList, isPlainChar c = true

/-- Whether a text is plain is seen from its characters. -/
instance : DecidablePred IsPlain :=
  fun s => List.decidableBAll (fun c => isPlainChar c = true) s.toList

/-- A plain character leaves no mark. -/
theorem marks_cons_of_isPlainChar {c : Char} (h : isPlainChar c = true) (cs : List Char) :
    marks (c :: cs) = marks cs := by
  rw [marks]
  all_goals
    intros
    subst_vars
    exact absurd h (by decide)

/-- A plain text is well nested. -/
theorem IsPlain.nests {s : String} (h : IsPlain s) : Nests s := by
  have hplain : ∀ cs : List Char, (∀ c ∈ cs, isPlainChar c = true) → ∀ rest,
      marks (cs ++ rest) = marks rest := by
    intro cs hcs rest
    induction cs with
    | nil => rfl
    | cons c cs ih =>
      obtain ⟨hc, hcs⟩ := List.forall_mem_cons.1 hcs
      rw [List.cons_append, marks_cons_of_isPlainChar hc, ih hcs]
  exact nests_word (hplain s.toList h)

/-- Brackets of a kind around a piece. -/
theorem nests_around {kind : Bracket} {front back s : String}
    (hfront : ∀ rest, marks (front.toList ++ rest) = .opening kind :: marks rest)
    (hback : ∀ rest, marks (back.toList ++ rest) = .closing kind :: marks rest) (h : Nests s) :
    Nests (front ++ s ++ back) := by
  have hmarks : ∀ rest, marks ((front ++ s ++ back).toList ++ rest) =
      .opening kind :: (marks s.toList ++ [.closing kind]) ++ marks rest := by
    intro rest
    simp only [String.toList_append, List.append_assoc, List.cons_append, hfront, h.splits, hback,
      List.nil_append]
  have hwhole : marks (front ++ s ++ back).toList =
      .opening kind :: (marks s.toList ++ [.closing kind]) := by
    simpa [marks] using hmarks []
  refine ⟨fun rest => ?_, ?_⟩
  · rw [hmarks, hwhole]
  · rw [hwhole]
    exact h.nested.around kind

/-- A well nested text in braces. -/
theorem Nests.braced {s : String} (h : Nests s) : Nests (braced s) :=
  nests_around (fun _ => rfl) (fun _ => rfl) h

/-- A well nested text in parentheses. -/
theorem Nests.fenced {s : String} (h : Nests s) : Nests (fenced s) :=
  nests_around (fun _ => rfl) (fun _ => rfl) h

/-- The empty text is well nested. -/
theorem nests_empty : Nests "" :=
  nests_word fun _ => rfl

/-- Pieces with a piece between each two of them. -/
theorem nests_intercalate {separator : String} (hseparator : Nests separator) {pieces : List String}
    (hpieces : ∀ s ∈ pieces, Nests s) : Nests (separator.intercalate pieces) := by
  induction pieces with
  | nil => exact nests_empty
  | cons s pieces ih =>
    obtain ⟨hs, hrest⟩ := List.forall_mem_cons.1 hpieces
    cases pieces with
    | nil =>
      rw [String.intercalate_singleton]
      exact hs
    | cons s' pieces =>
      rw [String.intercalate_cons_cons]
      exact (hs.append hseparator).append (ih hrest)

/-! ### Rules -/

/-- Whether a rule makes pieces with well nested brackets of such pieces. -/
def KeepsNesting (rule : Rule) : Prop :=
  ∀ parts : List Part, (∀ p ∈ parts, Nests p.latex) → Nests (rule parts)

/-- The rule of operators between their operands. -/
theorem keepsNesting_infixRule {sign : String} (hsign : Nests sign) :
    KeepsNesting (infixRule sign) := by
  intro parts hparts
  have hblank : Nests " " := nests_word fun _ => rfl
  unfold infixRule
  split
  · next left right =>
    have hleft := hparts left (by simp)
    have hright := hparts right (by simp)
    exact (((hleft.append hblank).append hsign).append hblank).append hright
  · exact nests_empty

/-- The rule of fractions. -/
theorem keepsNesting_fractionRule : KeepsNesting fractionRule := by
  intro parts hparts
  unfold fractionRule
  split
  · next left right =>
    have hword : Nests "\\frac" := nests_word fun _ => rfl
    exact (hword.append (hparts left (by simp)).braced).append (hparts right (by simp)).braced
  · exact nests_empty

/-- The rule of powers. -/
theorem keepsNesting_powerRule : KeepsNesting powerRule := by
  intro parts hparts
  unfold powerRule
  split
  · next base exponent =>
    have hword : Nests "^" := nests_word fun _ => rfl
    have hbase := hparts base (by simp)
    have hexponent := (hparts exponent (by simp)).braced
    -- The base has parentheses or has none, and its brackets are nested in both cases.
    split
    · exact (hbase.fenced.append hword).append hexponent
    · exact (hbase.append hword).append hexponent
  · exact nests_empty

/-- The rule of signs. -/
theorem keepsNesting_signRule {sign : String} (hsign : Nests sign) :
    KeepsNesting (signRule sign) := by
  intro parts hparts
  unfold signRule
  split
  · next operand =>
    have hoperand := hparts operand (by simp)
    split
    · exact hsign.append hoperand.fenced
    · exact hsign.append hoperand
  · exact nests_empty

/-- The rule of roots. -/
theorem keepsNesting_rootRule : KeepsNesting rootRule := by
  intro parts hparts
  unfold rootRule
  split
  · next operand =>
    have hword : Nests "\\sqrt" := nests_word fun _ => rfl
    exact hword.append (hparts operand (by simp)).braced
  · exact nests_empty

/-- The rule of logarithms. -/
theorem keepsNesting_logarithmRule : KeepsNesting logarithmRule := by
  intro parts hparts
  unfold logarithmRule
  split
  · next operand base =>
    have hword : Nests "\\log_" := nests_word fun _ => rfl
    exact (hword.append (hparts base (by simp)).braced).append (hparts operand (by simp)).fenced
  · exact nests_empty

/-- The rule of functions with a name. -/
theorem keepsNesting_namedRule {name : String} (hname : Nests name) :
    KeepsNesting (namedRule name) := by
  intro parts hparts
  unfold namedRule
  split
  · next operand => exact hname.append (hparts operand (by simp)).fenced
  · exact nests_empty

end LiveSheet.Latex

namespace LiveSheet

open Latex

/-- Whether all rules of a registry keep brackets nested. -/
structure Registry.SetsNested (r : Registry) : Prop where
  negation : ∀ symbol rule, (r.prefix? symbol).bind (·.latex) = some rule → KeepsNesting rule
  operation : ∀ symbol rule, (r.operator? symbol).bind (·.latex) = some rule → KeepsNesting rule
  call : ∀ name rule, (r.function? name).bind (·.latex) = some rule → KeepsNesting rule

/-- The standard rules do. -/
theorem Registry.setsNested_standard : Registry.standard.SetsNested where
  negation symbol rule h := by
    obtain ⟨prefixRule, hprefix, hlatex⟩ := Option.bind_eq_some_iff.1 h
    have hmem : (symbol, prefixRule) ∈ Registry.standard.prefixes.entries :=
      Table.mem_of_lookup hprefix
    simp only [Registry.standard, Registry.standardOn, List.mem_singleton, Prod.mk.injEq] at hmem
    obtain ⟨-, rfl⟩ := hmem
    obtain rfl := Option.some.inj hlatex
    exact keepsNesting_signRule (nests_word fun _ => rfl)
  operation symbol rule h := by
    obtain ⟨operator, hoperator, hlatex⟩ := Option.bind_eq_some_iff.1 h
    have hmem : (symbol, operator) ∈ Registry.standardOperators .native :=
      Table.mem_of_lookup hoperator
    simp only [Registry.standardOperators, List.mem_cons, Prod.mk.injEq, List.not_mem_nil,
      or_false] at hmem
    rcases hmem with ⟨-, rfl⟩ | ⟨-, rfl⟩ | ⟨-, rfl⟩ | ⟨-, rfl⟩ | ⟨-, rfl⟩ | ⟨-, rfl⟩
    all_goals obtain rfl := Option.some.inj hlatex
    · exact keepsNesting_infixRule (nests_word fun _ => rfl)
    · exact keepsNesting_infixRule (nests_word fun _ => rfl)
    · exact keepsNesting_infixRule (nests_word fun _ => rfl)
    · exact keepsNesting_fractionRule
    · exact keepsNesting_infixRule (nests_word fun _ => rfl)
    · exact keepsNesting_powerRule
  call name rule h := by
    obtain ⟨function, hfunction, hlatex⟩ := Option.bind_eq_some_iff.1 h
    have hmem : (Text.lowercase name, function) ∈ Registry.standardFunctions .native :=
      Table.mem_of_lookup hfunction
    simp only [Registry.standardFunctions, List.mem_cons, Prod.mk.injEq, List.not_mem_nil,
      or_false] at hmem
    rcases hmem with ⟨-, rfl⟩ | ⟨-, rfl⟩ | ⟨-, rfl⟩ | ⟨-, rfl⟩ | ⟨-, rfl⟩ | ⟨-, rfl⟩ | ⟨-, rfl⟩ |
      ⟨-, rfl⟩ | ⟨-, rfl⟩ | ⟨-, rfl⟩
    all_goals obtain rfl := Option.some.inj hlatex
    · exact keepsNesting_rootRule
    · exact keepsNesting_powerRule
    · exact keepsNesting_logarithmRule
    all_goals exact keepsNesting_namedRule (nests_word fun _ => rfl)

/-! ### Trees -/

namespace Expr

/-- Whether all names, symbols and number texts of a tree are of a kind. -/
inductive Spelled (p : String → Prop) : Expr → Prop
  | number {text : String} (h : p text) : Spelled p (.number text)
  | reference {name : String} (h : p name) : Spelled p (.reference name)
  | constant {name : String} (h : p name) : Spelled p (.constant name)
  | prefixed {symbol : String} {operand : Expr} (h : p symbol) (hoperand : Spelled p operand) :
      Spelled p (.prefixed symbol operand)
  | binary {symbol : String} {left right : Expr} (h : p symbol) (hleft : Spelled p left)
      (hright : Spelled p right) : Spelled p (.binary symbol left right)
  | group {inner : Expr} (hinner : Spelled p inner) : Spelled p (.group inner)
  | call {name : String} {args : List Expr} (h : p name) (hargs : ∀ arg ∈ args, Spelled p arg) :
      Spelled p (.call name args)

/-- Lenient reading spells a tree with the texts of the tokens, apart from what it puts in. -/
theorem closed_spelled {p : String → Prop} (hzero : p "0")
    (hsymbols : ∀ symbol ∈ ["+", "-", "*", "/", "%", "^"], p symbol) :
    Closed (fun t => p t.text) fun _ => Spelled p where
  term := id
  addition hsymbol := .binary (hsymbols _ (List.mem_append_left ["*", "/", "%", "^"] hsymbol))
  power := id
  multiplication hsymbol := .binary
    (hsymbols _ (List.mem_append_right ["+", "-"] (List.mem_append_left ["^"] hsymbol)))
  factor := id
  exponentiation := .binary (hsymbols "^" (by simp))
  negation := .prefixed (hsymbols "-" (by simp))
  zero := .number hzero
  number := .number
  reference := .reference
  constant := .constant
  group := .group
  call := .call

end Expr

namespace Latex

variable {r : Registry}

/-- The parts of a call come from its arguments. -/
theorem mem_partsOf {args : List Expr} {p : Part} (h : p ∈ partsOf r args) :
    ∃ e ∈ args, p.latex = ofExpr r e := by
  induction args with
  | nil => cases h
  | cons e args ih =>
    rw [partsOf] at h
    rcases List.mem_cons.1 h with rfl | h
    · exact ⟨e, List.mem_cons_self, rfl⟩
    · obtain ⟨e', he', hp⟩ := ih h
      exact ⟨e', List.mem_cons_of_mem e he', hp⟩

/-- The first of several pieces, or nothing, has nested brackets. -/
theorem nests_headD {parts : List Part} (h : ∀ p ∈ parts, Nests p.latex) :
    Nests (parts.headD .missing).latex := by
  cases parts with
  | nil => exact nests_empty
  | cons p parts => exact h p List.mem_cons_self

/-- So have the arguments that a rule sees, those that are missing as well. -/
theorem nests_ruleArguments (arity : Arity) {parts : List Part} (h : ∀ p ∈ parts, Nests p.latex) :
    ∀ p ∈ ruleArguments arity parts, Nests p.latex := by
  have htail : ∀ p ∈ parts.tail, Nests p.latex := fun p hp => h p (List.mem_of_mem_tail hp)
  unfold ruleArguments
  split
  · exact List.forall_mem_singleton.2 (nests_headD h)
  · exact List.forall_mem_cons.2 ⟨nests_headD h, List.forall_mem_singleton.2 (nests_headD htail)⟩
  · exact h

/-- A sign before a well nested operand. -/
theorem nests_prefixLatex (hr : r.SetsNested) {symbol : String} (hsymbol : IsPlain symbol)
    {operand : Part} (h : Nests operand.latex) : Nests (prefixLatex r symbol operand) := by
  have hparts : ∀ p ∈ [operand], Nests p.latex := List.forall_mem_singleton.2 h
  unfold prefixLatex
  split
  · next rule hrule => exact hr.negation symbol rule hrule _ hparts
  · exact keepsNesting_signRule hsymbol.nests _ hparts

/-- An operator with well nested operands. -/
theorem nests_binaryLatex (hr : r.SetsNested) {symbol : String} (hsymbol : IsPlain symbol)
    {left right : Part} (hleft : Nests left.latex) (hright : Nests right.latex) :
    Nests (binaryLatex r symbol left right) := by
  have hparts : ∀ p ∈ [left, right], Nests p.latex :=
    List.forall_mem_cons.2 ⟨hleft, List.forall_mem_singleton.2 hright⟩
  unfold binaryLatex
  split
  · next rule hrule => exact hr.operation symbol rule hrule _ hparts
  · refine keepsNesting_infixRule ?_ _ hparts
    split
    · exact nests_word fun _ => rfl
    · exact hsymbol.nests

/-- The names that functions without a rule are set by make no brackets. -/
theorem nests_functionNames {name latexName : String}
    (h : functionNames.lookup name = some latexName) : Nests latexName := by
  have hmem : (name, latexName) ∈ functionNames := Table.mem_of_lookup h
  simp only [functionNames, List.mem_cons, Prod.mk.injEq, List.not_mem_nil, or_false] at hmem
  rcases hmem with ⟨-, rfl⟩ | ⟨-, rfl⟩ | ⟨-, rfl⟩ | ⟨-, rfl⟩ | ⟨-, rfl⟩ | ⟨-, rfl⟩ | ⟨-, rfl⟩
  all_goals exact nests_word fun _ => rfl

/-- A call with well nested arguments. -/
theorem nests_callLatex (hr : r.SetsNested) {name : String} (hname : IsPlain name)
    {args : List Part} (h : ∀ p ∈ args, Nests p.latex) : Nests (callLatex r name args) := by
  unfold callLatex
  split
  · next arity compute rule hfunction =>
    exact hr.call name rule (by rw [hfunction]; rfl) _ (nests_ruleArguments arity h)
  · split
    · next latexName hlookup =>
      exact (nests_functionNames hlookup).append (nests_headD h).fenced
    · have hseparator : Nests ",\\," := nests_word fun _ => rfl
      have hargs : ∀ s ∈ args.map (·.latex), Nests s := List.forall_mem_map.2 h
      exact hname.nests.append (nests_intercalate hseparator hargs).fenced

/-- Whatever tree it is, if no text in it has a character of a bracket. -/
theorem nests_ofExpr (hr : r.SetsNested) {e : Expr} (h : e.Spelled IsPlain) :
    Nests (ofExpr r e) := by
  -- A part nests on its own, so it may stand anywhere in what is around it.
  induction h with
  | number h | reference h =>
    rw [ofExpr]
    exact h.nests
  | @constant name h =>
    rw [ofExpr]
    split
    · exact nests_word fun _ => rfl
    · exact h.nests
  | prefixed hsymbol _ ih =>
    rw [ofExpr]
    exact nests_prefixLatex hr hsymbol ih
  | binary hsymbol _ _ ihleft ihright =>
    rw [ofExpr]
    exact nests_binaryLatex hr hsymbol ihleft ihright
  | group _ ih =>
    rw [ofExpr]
    exact ih.fenced
  | call hname _ ih =>
    rw [ofExpr]
    refine nests_callLatex hr hname fun p hp => ?_
    obtain ⟨arg, harg, hlatex⟩ := mem_partsOf hp
    rw [hlatex]
    exact ih arg harg

/-! ### Texts -/

/-- A character of a name or a numeral is no part of a bracket. -/
theorem isPlainChar_of_isNameChar {c : Char} (h : Lexer.isNameChar c = true) :
    isPlainChar c = true := by
  simp only [isPlainChar, Bool.and_eq_true, bne_iff_ne]
  refine ⟨⟨?_, ?_⟩, ?_⟩
  all_goals
    rintro rfl
    exact absurd h (by decide)

/-- Digits are plain. -/
theorem isPlainChar_of_isDigit {c : Char} (h : Decimal.isDigit c = true) : isPlainChar c = true :=
  isPlainChar_of_isNameChar (by rw [Lexer.isNameChar, h, Bool.or_true])

/-- A word of the lexer has no brackets. -/
theorem isPlainChar_of_isWord {kind : TokenKind} {w : List Char} (h : Lexer.IsWord kind w) :
    ∀ c ∈ w, isPlainChar c = true := by
  have hname : Lexer.IsName w → ∀ c ∈ w, isPlainChar c = true := by
    rintro ⟨hstart, hchars⟩
    refine List.forall_mem_cons.2 ⟨isPlainChar_of_isNameChar ?_, fun c hc =>
      isPlainChar_of_isNameChar (hchars c hc)⟩
    rw [Lexer.isNameChar, hstart, Bool.true_or]
  cases h with
  | number h =>
    cases h with
    | whole _ hdigits => exact fun c hc => isPlainChar_of_isDigit (hdigits c hc)
    | pointed _ hwhole hfraction =>
      intro c hc
      rcases List.mem_append.1 hc with hc | hc
      · exact isPlainChar_of_isDigit (hwhole c hc)
      · rcases List.mem_cons.1 hc with rfl | hc
        · decide
        · exact isPlainChar_of_isDigit (hfraction c hc)
  | reference h | constant h | function h => exact hname h
  | @operator c h =>
    have hplain : ∀ c ∈ ['+', '-', '*', '/', '^', '%'], isPlainChar c = true :=
      Decimal.forall_mem_of_all (by decide)
    exact List.forall_mem_singleton.2 (hplain c h)
  | @parenthesis c h =>
    have hplain : ∀ c ∈ ['(', ')'], isPlainChar c = true := Decimal.forall_mem_of_all (by decide)
    exact List.forall_mem_singleton.2 (hplain c h)
  | comma => exact List.forall_mem_singleton.2 rfl

/-- Neither has the text of a token, in small letters or as it was spelled. -/
theorem isPlain_of_mem_tokens {text : String} {t : Token} (h : t ∈ r.tokens text) :
    IsPlain t.text := by
  obtain ⟨c, cs, w, hpiece⟩ := Lexer.exists_nextPiece_of_mem_tokens h
  have hword := Lexer.isWord_of_nextPiece hpiece
  have htext := Lexer.text_of_nextPiece hpiece
  have hplain := isPlainChar_of_isWord hword
  split at htext
  · next hkind =>
    -- The kinds in small letters are spelled by names.
    have hname : Lexer.IsName w := by
      rcases hkind with hkind | hkind
      all_goals
        rw [hkind] at hword
        cases hword
        assumption
    have hchars : ∀ c ∈ w, Lexer.isNameChar c = true := by
      obtain ⟨hstart, hchars⟩ := hname
      refine List.forall_mem_cons.2 ⟨?_, hchars⟩
      rw [Lexer.isNameChar, hstart, Bool.true_or]
    intro c hc
    rw [htext, Text.lowercase_of_ascii fun c hc => Lexer.toNat_lt_of_isNameChar (hchars c hc),
      String.toList_ofList] at hc
    obtain ⟨d, hd, rfl⟩ := List.mem_map.1 hc
    exact isPlainChar_of_isNameChar (by rw [Lexer.isNameChar_toLower]; exact hchars d hd)
  · intro c hc
    rw [htext, String.toList_ofList] at hc
    exact hplain c hc

/-- A text has nested brackets when it is set as it was typed, whatever it is. -/
theorem nests_ofText (hr : r.SetsNested) (text : String) : Nests (ofText r text) := by
  have hclosed : Expr.Closed (fun t => IsPlain t.text) fun _ => Expr.Spelled IsPlain :=
    Expr.closed_spelled (by decide) (Decimal.forall_mem_of_all (by decide))
  obtain ⟨e, hparse, hspelled⟩ := hclosed.parse_lenient fun t ht => isPlain_of_mem_tokens ht
  unfold ofText ofTokens
  rw [hparse]
  exact nests_ofExpr hr hspelled

/-! ### Results -/

/-- The characters of numerals are plain. -/
theorem isPlainChar_of_isNumeralChar {c : Char} (h : Decimal.isNumeralChar c = true) :
    isPlainChar c = true := by
  simp only [isPlainChar, Bool.and_eq_true, bne_iff_ne]
  refine ⟨⟨?_, ?_⟩, ?_⟩
  all_goals
    rintro rfl
    exact absurd h (by decide)

/-- What is shown as text has no brackets but its own braces. -/
theorem nests_textual (s : String) : Nests (textual s) := by
  have hword : Nests "\\text" := nests_word fun _ => rfl
  refine hword.append (IsPlain.nests fun c hc => ?_).braced
  rw [String.toList_ofList] at hc
  have hkept := (List.mem_filter.1 hc).2
  simp only [Bool.and_eq_true, bne_iff_ne] at hkept
  simp only [isPlainChar, Bool.and_eq_true, bne_iff_ne]
  refine ⟨⟨hkept.1.1, ?_⟩, ?_⟩
  · rintro rfl
    exact hkept.1.2 rfl
  · rintro rfl
    exact hkept.2 rfl

/-- The text of a number is well nested. -/
theorem nests_display (x : Float) : Nests (Decimal.display.format x) := by
  refine IsPlain.nests fun c hc => ?_
  have hwords : ∀ c ∈ "InfinityNaN".toList, isPlainChar c = true :=
    Decimal.forall_mem_of_all (by decide)
  rcases Decimal.Style.mem_format hc with hc | hc | hc
  · exact isPlainChar_of_isNumeralChar hc
  · exact hwords c (List.mem_append_left "NaN".toList hc)
  · exact hwords c (List.mem_append_right "Infinity".toList hc)

/-- A number times a power of ten is well nested. -/
theorem nests_timesPowerOfTen (places : Nat) (negative : Bool) (m : Nat) (e : Int) :
    Nests (timesPowerOfTen places negative m e) := by
  have hword : Nests " \\times 10^" := nests_word fun _ => rfl
  have hmantissa : Nests (Decimal.scientific places negative m e).mantissa := by
    refine IsPlain.nests fun c hc => isPlainChar_of_isNumeralChar ?_
    unfold Decimal.scientific at hc
    rw [String.toList_ofList] at hc
    rcases List.mem_append.1 hc with hc | hc
    · split at hc
      · obtain rfl := List.mem_singleton.1 hc
        decide
      · cases hc
    · refine Decimal.isNumeralChar_of_mem_mantissaChars (fun d hd => ?_) hc
      rcases List.mem_append.1 hd with hd | hd
      · exact Decimal.isNumeralChar_of_mem_digitChars hd
      · exact Decimal.isNumeralChar_of_mem_zeros hd
  refine (hmantissa.append hword).append (IsPlain.nests fun c hc => ?_).braced
  rw [String.toList_ofList] at hc
  exact isPlainChar_of_isNumeralChar (Decimal.isNumeralChar_of_mem_exponentChars hc)

/-- A displayed number is well nested. -/
theorem nests_displayNumber {limits : DisplayLimits} {x : Float} {latex : String}
    (h : displayNumber limits x = .ok latex) : Nests latex := by
  unfold displayNumber at h
  simp only at h
  split at h
  · split at h
    · split at h
      · cases h
      · obtain rfl := Except.ok.inj h
        exact nests_timesPowerOfTen ..
    · obtain rfl := Except.ok.inj h
      exact nests_display x
  · obtain rfl := Except.ok.inj h
    exact nests_textual _

/-- A value that is shown has nested brackets, whatever it is. -/
theorem nests_displayValue {limits : DisplayLimits} {value : Value} {latex : String}
    (h : displayValue limits value = .ok latex) : Nests latex := by
  unfold displayValue at h
  split at h
  · split at h
    · exact nests_displayNumber h
    · cases h
  · exact nests_displayNumber h
  · obtain rfl := Except.ok.inj h
    exact nests_textual _

/-- Every number is shown, if a mantissa may have decimals. -/
theorem exists_displayNumber {limits : DisplayLimits} (h : 0 ≤ limits.mantissaDigits) (x : Float) :
    ∃ latex, displayNumber limits x = .ok latex := by
  unfold displayNumber
  simp only
  split
  · split
    · exact ⟨_, if_neg (not_lt.2 h)⟩
    · exact ⟨_, rfl⟩
  · exact ⟨_, rfl⟩

/-- The equation of every text and every value has nested brackets, and there is one for all values
but whole numbers that are out of range, if a mantissa may have decimals. -/
theorem wellNested_equation (limits : DisplayLimits) (text : String) (value : Value) :
    (∀ latex, equation .standard (Renderer.line false) limits text value = .ok latex →
      WellNested (marks latex.toList)) ∧
    (0 ≤ limits.mantissaDigits → (∀ n, value ≠ .int n) →
      ∃ latex, equation .standard (Renderer.line false) limits text value = .ok latex) := by
  constructor
  · intro latex h
    unfold equation at h
    cases hshown : displayValue limits value with
    | error e => rw [hshown] at h; cases h
    | ok shown =>
      rw [hshown] at h
      obtain rfl := Except.ok.inj h
      have hequals : Nests " = " := nests_word fun _ => rfl
      have htext := nests_ofText Registry.setsNested_standard text
      exact ((htext.append hequals).append (nests_displayValue hshown)).nested
  · intro hlimits hvalue
    have hshown : ∃ shown, displayValue limits value = .ok shown := by
      cases value with
      | int n => exact absurd rfl (hvalue n)
      | float x => exact exists_displayNumber hlimits x
      | null | bool | text | list | map => exact ⟨_, rfl⟩
    obtain ⟨shown, hshown⟩ := hshown
    exact ⟨_, by rw [equation, hshown]; rfl⟩

/-- A call that is not closed, an argument too many, a stray token, and a result that is a formula
of its own. -/
theorem wellNested_equation_unclosed :
    0 ≤ ({} : DisplayLimits).mantissaDigits ∧ (∀ n, Value.text "\\left(\x7d" ≠ .int n) ∧
      equation .standard (Renderer.line false) {} "sqrt(2, 3) ^ pow(-A * " (.text "\\left(\x7d") =
        .ok "\\sqrt\x7b2\x7d^\x7b\\left(-A \\cdot 0\\right)^\x7b\x7d\x7d = \\text\x7bleft(\x7d" ∧
      ∃ latex, equation .standard (Renderer.line false) {} "sqrt(2, 3) ^ pow(-A * "
        (.text "\\left(\x7d") = .ok latex ∧ WellNested (marks latex.toList) := by
  have hvalue : ∀ n, Value.text "\\left(\x7d" ≠ .int n := by simp
  obtain ⟨hnested, hexists⟩ :=
    wellNested_equation {} "sqrt(2, 3) ^ pow(-A * " (.text "\\left(\x7d")
  obtain ⟨latex, hlatex⟩ := hexists (by decide) hvalue
  exact ⟨by decide, hvalue, by decide +kernel, latex, hlatex, hnested latex hlatex⟩

end Latex

end LiveSheet
