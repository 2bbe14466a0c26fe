import LiveSheet.Proofs.Domains
import LiveSheet.Proofs.LatexReading
import LiveSheet.Proofs.Repairs
import LiveSheet.Proofs.WellNested

/-!
# Superscripts of displayed formulas

A tree that is read strictly off a text is legible if all its calls are full (`Expr.Legible`): it is
one of the grammar and written with words that a text can have, and the standard rules set each of
its calls in one of five ways (`Latex.SetCall`).

The base of a power stands before the superscript between parentheses if it is a binary operation,
and as it is set elsewhere if not. It is set apart (`Latex.SetApart`) if it stands between these
parentheses, or has neither a minus sign in front nor a superscript of its own. Superscripts within
brackets are not its own, so the brackets in front of a superscript are counted (`Latex.depth`).
A base is set apart unless it is a minus sign with its operand or a call of `pow`
(`Latex.setApart_iff`).
-/

namespace LiveSheet

open Decimal (takeNumber?)
open Lexer (takeName?)
open Registry (standard)

/-! ### Tokens of texts -/

/-- A token of a text is read from one of its pieces. -/
theorem Lexer.reads_of_mem_tokens {isConstant : String → Bool} {text : String} {t : Token}
    (h : t ∈ tokens isConstant text) : ∃ called w, Reads isConstant called w t := by
  obtain ⟨c, cs, w, hpiece⟩ := exists_nextPiece_of_mem_tokens h
  rcases hnext : nextPiece isConstant c cs with ⟨piece, rest⟩
  rw [hnext] at hpiece
  obtain rfl : piece = .token t w := hpiece
  exact ⟨_, w, reads_of_nextPiece hnext⟩

/-- Whether the text of a token is a word of its kind, in small letters if it is the name of a
function. -/
def Token.IsWord (t : Token) : Prop :=
  match t.kind with
  | .number => takeNumber? t.text.toList = some (t.text.toList, [])
  | .reference => takeName? t.text.toList = some (t.text.toList, [])
  | .constant => t.text = "pi"
  | .function => takeName? t.text.toList = some (t.text.toList, []) ∧ Text.lowercase t.text = t.text
  | .operator | .parenthesis | .comma => True

/-- The tokens of a text are words. -/
theorem Registry.isWord_of_mem_tokens {text : String} {t : Token}
    (h : t ∈ standard.tokens text) : t.IsWord := by
  obtain ⟨called, w, hreads⟩ := Lexer.reads_of_mem_tokens h
  cases hreads with
  | number hnumber =>
    show takeNumber? (String.ofList w).toList = some ((String.ofList w).toList, [])
    rwa [String.toList_ofList]
  | name hname =>
    have hlower := Lexer.lowercase_of_takeName? hname
    have htwice : (w.map Char.toLower).map Char.toLower = w.map Char.toLower := by
      rw [List.map_map]
      exact List.map_congr_left fun c _ => toLower_toLower c
    have hname' := Lexer.takeName?_of_toLower htwice hname
    -- The name of a function is put into small letters, and is a name as before.
    unfold Lexer.wordToken
    split
    · show takeName? (Text.lowercase (String.ofList w)).toList = _ ∧ _
      rw [hlower, String.toList_ofList, Lexer.lowercase_of_takeName? hname', htwice]
      exact ⟨hname', rfl⟩
    · split
      · next hconstant =>
        obtain ⟨x, hx⟩ := Option.isSome_iff_exists.1 hconstant
        have hmem : (Text.lowercase (String.ofList w), x) ∈ standard.constants.entries :=
          Table.mem_of_lookup hx
        exact (Prod.mk.inj (List.mem_singleton.1 hmem)).1
      · show takeName? (String.ofList w).toList = some ((String.ofList w).toList, [])
        rwa [String.toList_ofList]
  | symbol hsymbol =>
    have hkind := Lexer.symbolToken?_kind hsymbol
    have hfunction := Lexer.symbolToken?_kind_ne_function hsymbol
    have hconstant := (Lexer.symbolToken?_spec hsymbol).2.2.2.2.2
    unfold Token.IsWord
    split
    · next heq => exact absurd heq hkind.1
    · next heq => exact absurd heq hkind.2
    · next heq => exact absurd heq hconstant
    · next heq => exact absurd heq hfunction
    all_goals trivial

namespace Expr

/-! ### Legible trees -/

/-- Whether an expression is an operation of the grammar on trees of the grammar. -/
def MadeOfDerived : Expr → Prop
  | prefixed symbol operand => symbol = "-" ∧ Derives .sum operand
  | binary symbol left right =>
    symbol ∈ ["+", "-", "*", "/", "%", "^"] ∧ Derives .sum left ∧ Derives .sum right
  | group inner => Derives .sum inner
  | call _ args => ∀ arg ∈ args, Derives .sum arg
  | _ => True

/-- A tree of the grammar is made of trees of the grammar. -/
theorem Derives.madeOfDerived {level : Level} {e : Expr} (h : Derives level e) :
    e.MadeOfDerived := by
  induction h with
  | term _ ih | power _ ih | factor _ ih => exact ih
  | addition hsymbol hleft hright =>
    exact ⟨List.mem_append_left ["*", "/", "%", "^"] hsymbol, hleft, .term hright⟩
  | multiplication hsymbol hleft hright =>
    refine ⟨?_, .term hleft, .term (.power hright)⟩
    exact List.mem_append_right ["+", "-"] (List.mem_append_left ["^"] hsymbol)
  | exponentiation hbase hexponent =>
    exact ⟨by simp, .term (.power (.factor hbase)), .term (.power hexponent)⟩
  | negation h => exact ⟨rfl, .term (.power (.factor h))⟩
  | number | reference | constant => trivial
  | group h => exact h
  | call _ h => exact h

/-- Whether a tree is one of the grammar, written with tokens of texts, and every call of a
registered function in it has as many arguments as the function takes. -/
structure Legible (e : Expr) : Prop where
  derives : Derives .sum e
  spelled : ∀ t ∈ e.tokens, ∃ text, t ∈ standard.tokens text
  full : e.callsFull standard = true

/-- The tokens of a legible tree are spelled as the lexer spells them. -/
theorem Legible.isWord {e : Expr} (h : e.Legible) {t : Token} (ht : t ∈ e.tokens) : t.IsWord :=
  (h.spelled t ht).elim fun _ => Registry.isWord_of_mem_tokens

/-- A legible number is one to the lexer. -/
theorem Legible.isNumber {text : String} (h : (number text).Legible) :
    takeNumber? text.toList = some (text.toList, []) :=
  h.isWord (t := ⟨.number, text⟩) (List.mem_singleton_self _)

/-- A legible reference is a name to the lexer. -/
theorem Legible.isName {name : String} (h : (reference name).Legible) :
    takeName? name.toList = some (name.toList, []) :=
  h.isWord (t := ⟨.reference, name⟩) (List.mem_singleton_self _)

/-- The only legible constant is pi. -/
theorem Legible.eq_pi {name : String} (h : (constant name).Legible) : name = "pi" :=
  h.isWord (t := ⟨.constant, name⟩) (List.mem_singleton_self _)

/-- The name of a function is among the tokens of its call. -/
theorem function_mem_tokens (name : String) (args : List Expr) :
    ⟨.function, name⟩ ∈ (call name args).tokens := by
  simp [tokens]

/-- The name of a function that is called, in small letters. -/
theorem Legible.isFunction {name : String} {args : List Expr} (h : (call name args).Legible) :
    takeName? name.toList = some (name.toList, []) ∧ Text.lowercase name = name :=
  h.isWord (function_mem_tokens name args)

/-- The calls in a list of trees are full if those in each tree are. -/
theorem allCallsFull_iff {r : Registry} {es : List Expr} :
    allCallsFull r es = true ↔ ∀ e ∈ es, e.callsFull r = true := by
  induction es with
  | nil => simp [allCallsFull]
  | cons e es ih => simp [allCallsFull, ih]

/-- The tokens of an argument are among those behind the first one. -/
theorem mem_tokensBehind {e : Expr} {es : List Expr} {t : Token} (he : e ∈ es) (h : t ∈ e.tokens) :
    t ∈ tokensBehind es := by
  induction es with
  | nil => cases he
  | cons e' es ih =>
    rw [tokensBehind, List.mem_cons, List.mem_append]
    rcases List.mem_cons.1 he with rfl | he
    · exact .inr (.inl h)
    · exact .inr (.inr (ih he))

/-- The tokens of an argument are among those of all. -/
theorem mem_tokensOfArguments {e : Expr} {es : List Expr} {t : Token} (he : e ∈ es)
    (h : t ∈ e.tokens) : t ∈ tokensOfArguments es := by
  cases es with
  | nil => cases he
  | cons e' es =>
    rw [tokensOfArguments, List.mem_append]
    rcases List.mem_cons.1 he with rfl | he
    · exact .inl h
    · exact .inr (mem_tokensBehind he h)

/-- So are its parts. -/
theorem hereditary_legible : Hereditary Legible where
  prefixed h := ⟨h.derives.madeOfDerived.2, fun t ht => h.spelled t (by simp [tokens, ht]), h.full⟩
  binary h := by
    obtain ⟨-, hleft, hright⟩ := h.derives.madeOfDerived
    obtain ⟨hfull, hfull'⟩ := Bool.and_eq_true_iff.1 h.full
    exact ⟨⟨hleft, fun t ht => h.spelled t (by simp [tokens, ht]), hfull⟩,
      hright, fun t ht => h.spelled t (by simp [tokens, ht]), hfull'⟩
  group h := ⟨h.derives.madeOfDerived, fun t ht => h.spelled t (by simp [tokens, ht]), h.full⟩
  call h arg harg := by
    obtain ⟨-, hfull⟩ := Bool.and_eq_true_iff.1 h.full
    refine ⟨h.derives.madeOfDerived arg harg, fun t ht => h.spelled t ?_,
      allCallsFull_iff.1 hfull arg harg⟩
    simp [tokens, mem_tokensOfArguments harg ht]

/-- A tree that is read strictly off a text is legible if its calls are full. -/
theorem legible_of_parse {text : String} {e : Expr}
    (hparse : parse .strict (standard.tokens text) = .ok e)
    (hcalls : e.callsFull standard = true) : e.Legible := by
  by_cases hne : standard.tokens text = []
  · -- The number 0 is read off no tokens.
    rw [hne] at hparse
    obtain rfl : number "0" = e := Except.ok.inj hparse
    refine ⟨.term (.power (.factor (.number "0"))), fun t ht => ⟨"0", ?_⟩, rfl⟩
    rw [List.mem_singleton.1 ht]
    decide +kernel
  · obtain ⟨hderives, htokens⟩ :=
      derives_of_parse_strict hne (Lexer.callsOpen_tokens _ text) hparse
    refine ⟨hderives, fun t ht => ?_, hcalls⟩
    -- The tokens of the tree are those of the text, but for how commas are spelled.
    rw [htokens] at ht
    obtain ⟨u, hu, rfl⟩ := List.mem_map.1 ht
    unfold Token.plain
    split
    · exact ⟨",", by decide +kernel⟩
    · exact ⟨text, hu⟩

end Expr

namespace Latex

/-! ### The standard rules -/

/-- The base of a power as it stands before the superscript. -/
def baseLatex (base : Expr) : String :=
  if base.shape = .binary then fenced (ofExpr standard base) else ofExpr standard base

/-- How the standard rules set a call. -/
inductive SetCall : String → List Expr → String → Prop
  | power (base exponent : Expr) :
      SetCall "pow" [base, exponent] (baseLatex base ++ "^" ++ braced (ofExpr standard exponent))
  | root (operand : Expr) :
      SetCall "sqrt" [operand] ("\\sqrt" ++ braced (ofExpr standard operand))
  | logarithm (operand base : Expr) :
      SetCall "log" [operand, base]
        ("\\log_" ++ braced (ofExpr standard base) ++ fenced (ofExpr standard operand))
  | named {word name : String} (h : (word, Command.function name) ∈ commands) (operand : Expr) :
      SetCall name [operand] (word ++ fenced (ofExpr standard operand))
  | plain {name : String} (h : name ≠ "pow") (args : List Expr) :
      SetCall name args (name ++ fenced (",\\,".intercalate (args.map (ofExpr standard))))

/-- A power has no control word. -/
theorem ne_pow_of_mem_commands {word name : String}
    (h : (word, Command.function name) ∈ commands) : name ≠ "pow" := by
  have hcommands : ∀ entry ∈ commands, entry.2 ≠ .function "pow" :=
    Decimal.forall_mem_of_all (by decide)
  rintro rfl
  exact hcommands _ h rfl

/-- The parts of a call are its arguments set in LaTeX. -/
theorem map_latex_partsOf (r : Registry) (args : List Expr) :
    (partsOf r args).map (·.latex) = args.map (ofExpr r) := by
  induction args with
  | nil => rfl
  | cons e args ih => rw [partsOf, List.map_cons, ih, List.map_cons]

/-- A function that is not registered is set by its name. -/
theorem setCall_of_unregistered {name : String} (hrule : standard.function? name = none)
    (args : List Expr) : SetCall name args (ofExpr standard (.call name args)) := by
  have hknown : ∀ entry ∈ functionNames, (standard.function? entry.1).isSome = true :=
    Decimal.forall_mem_of_all (by decide +kernel)
  have hpow : (standard.function? "pow").isSome = true := by decide +kernel
  have hlookup : functionNames.lookup name = none := by
    cases hlookup : functionNames.lookup name with
    | none => rfl
    | some latexName =>
      have hsome := hknown _ (Table.mem_of_lookup hlookup)
      rw [hrule] at hsome
      cases hsome
  rw [ofExpr, callLatex, hrule]
  dsimp only
  rw [hlookup, map_latex_partsOf]
  refine .plain ?_ args
  rintro rfl
  rw [hrule] at hpow
  cases hpow

/-- A registered function with as many arguments as it takes is set by its rule. -/
theorem setCall_of_registered {name : String} {rule : FunctionRule}
    (hmem : (name, rule) ∈ Registry.standardFunctions .native) {args : List Expr}
    (hcount : (args.length : Int) = rule.arity.least)
    (hrule : standard.function? name = some rule) :
    SetCall name args (ofExpr standard (.call name args)) := by
  have hone : (args.length : Int) = 1 → ∃ a, args = [a] := fun h =>
    List.length_eq_one_iff.1 (by omega)
  have htwo : (args.length : Int) = 2 → ∃ a b, args = [a, b] := fun h =>
    List.length_eq_two.1 (by omega)
  rw [ofExpr, callLatex, hrule]
  simp only [Registry.standardFunctions, List.mem_cons, Prod.mk.injEq, List.not_mem_nil,
    or_false] at hmem
  rcases hmem with ⟨rfl, rfl⟩ | ⟨rfl, rfl⟩ | ⟨rfl, rfl⟩ | ⟨rfl, rfl⟩ | ⟨rfl, rfl⟩ | ⟨rfl, rfl⟩ |
    ⟨rfl, rfl⟩ | ⟨rfl, rfl⟩ | ⟨rfl, rfl⟩ | ⟨rfl, rfl⟩
  · obtain ⟨a, rfl⟩ := hone hcount
    exact .root a
  · obtain ⟨base, exponent, rfl⟩ := htwo hcount
    exact .power base exponent
  · obtain ⟨a, b, rfl⟩ := htwo hcount
    exact .logarithm a b
  all_goals
    obtain ⟨a, rfl⟩ := hone hcount
    exact .named (by decide) a

/-- A legible call is set in one of the ways there are. -/
theorem setCall_ofExpr {name : String} {args : List Expr} (h : (Expr.call name args).Legible) :
    SetCall name args (ofExpr standard (.call name args)) := by
  have hlower := h.isFunction.2
  have hfull := (Bool.and_eq_true_iff.1 h.full).1
  cases hrule : standard.function? name with
  | none => exact setCall_of_unregistered hrule args
  | some rule =>
    rw [hrule] at hfull
    refine setCall_of_registered (Table.mem_of_lookup ?_) (by simpa using hfull) hrule
    rw [← hlower]
    exact hrule

/-! ### Superscripts outside brackets -/

/-- How many brackets are open behind marks. -/
def depth : List Mark → Int
  | [] => 0
  | .opening _ :: ms => depth ms + 1
  | .closing _ :: ms => depth ms - 1

/-- Brackets open one text after the other. -/
theorem depth_append (ms ms' : List Mark) : depth (ms ++ ms') = depth ms + depth ms' := by
  induction ms with
  | nil => simp [depth]
  | cons m ms ih =>
    cases m with
    | opening | closing =>
      rw [List.cons_append, depth, depth, ih]
      omega

/-- All brackets are closed in the end, and none before it is opened. -/
theorem WellNested.depth_eq {ms : List Mark} (h : WellNested ms) :
    depth ms = 0 ∧ ∀ front back, ms = front ++ back → 0 ≤ depth front := by
  induction h with
  | nil =>
    refine ⟨rfl, fun front back heq => ?_⟩
    rw [(List.append_eq_nil_iff.1 heq.symm).1]
    exact le_rfl
  | @pair kind inner rest _ _ ihinner ihrest =>
    obtain ⟨hinner, hfronts⟩ := ihinner
    obtain ⟨hback, hfronts'⟩ := ihrest
    refine ⟨?_, fun front back heq => ?_⟩
    · rw [depth, depth_append, depth, hinner, hback]
      rfl
    · cases front with
      | nil => exact le_rfl
      | cons m front =>
        -- The front ends within the pair of brackets, at its end or behind it.
        obtain ⟨rfl, hrest⟩ := List.cons.inj heq
        rw [depth]
        rcases List.append_eq_append_iff.1 hrest with ⟨more, rfl, hmore⟩ | ⟨more, hinner', -⟩
        · rw [depth_append, hinner]
          cases more with
          | nil => simp [depth]
          | cons m more =>
            obtain ⟨rfl, heq'⟩ := List.cons.inj hmore
            have := hfronts' more back heq'
            rw [depth]
            omega
        · have := hfronts front more hinner'
          omega

/-- A bracket that is opened is closed. -/
theorem WellNested.of_opening {kind : Bracket} {ms : List Mark}
    (h : WellNested (.opening kind :: ms)) :
    ∃ inner rest, ms = inner ++ .closing kind :: rest ∧ WellNested inner ∧ WellNested rest := by
  generalize hall : Mark.opening kind :: ms = all at h
  cases h with
  | nil => cases hall
  | pair kind' hinner hrest =>
    obtain ⟨hkind, hms⟩ := List.cons.inj hall
    obtain rfl := Mark.opening.inj hkind
    exact ⟨_, _, hms, hinner, hrest⟩

/-- Where brackets are opened and closed again, what is behind them stands for itself. -/
theorem WellNested.of_append {ms ms' : List Mark} (h : WellNested ms)
    (h' : WellNested (ms ++ ms')) : WellNested ms' := by
  induction h generalizing ms' with
  | nil => exact h'
  | @pair kind inner rest hinner _ _ ihrest =>
    rw [List.cons_append, List.append_assoc, List.cons_append] at h'
    obtain ⟨inner', rest', heq, hinner', hrest'⟩ := h'.of_opening
    -- No bracket is closed before it is opened, so both end at the same place.
    have hclosing : ∀ (front more : List Mark), WellNested front →
        WellNested (front ++ .closing kind :: more) → False := by
      intro front more hfront hwhole
      have := hwhole.depth_eq.2 (front ++ [.closing kind]) more (by simp)
      rw [depth_append, hfront.depth_eq.1] at this
      simp [depth] at this
    rcases List.append_eq_append_iff.1 heq with ⟨more, rfl, hmore⟩ | ⟨more, rfl, hmore⟩
    · cases more with
      | nil =>
        obtain rfl := (List.cons.inj hmore).2
        exact ihrest hrest'
      | cons m more =>
        obtain ⟨rfl, -⟩ := List.cons.inj hmore
        exact (hclosing inner more hinner hinner').elim
    · cases more with
      | nil =>
        obtain rfl := (List.cons.inj hmore).2
        exact ihrest hrest'
      | cons m more =>
        obtain ⟨rfl, -⟩ := List.cons.inj hmore
        exact (hclosing inner' more hinner' hinner).elim

/-- What is well nested behind something well nested. -/
theorem Nests.of_append {s s' : String} (h : Nests s) (h' : Nests (s ++ s')) : Nests s' where
  splits rest := by
    have hsplits := h'.splits rest
    rw [String.toList_append, List.append_assoc, h.splits, h.splits, List.append_assoc] at hsplits
    exact List.append_cancel_left hsplits
  nested := by
    have hnested := h'.nested
    rw [String.toList_append, h.splits] at hnested
    exact h.nested.of_append hnested

/-- Whether a superscript stands in a formula outside all of its brackets. -/
def HasSuperscript (s : String) : Prop :=
  ∃ front back, s.toList = front.toList ++ '^' :: back ∧ Nests front

/-- A superscript that is not in the front of a text is behind it. -/
theorem exists_front_of_not_mem {word cs front back : List Char} (hword : '^' ∉ word)
    (h : word ++ cs = front ++ '^' :: back) :
    ∃ more, front = word ++ more ∧ cs = more ++ '^' :: back := by
  rcases List.append_eq_append_iff.1 h with ⟨more, hfront, hcs⟩ | ⟨more, rfl, hcs⟩
  · exact ⟨more, hfront, hcs⟩
  · cases more with
    | nil => exact ⟨[], by simp, hcs.symm⟩
    | cons c more =>
      obtain ⟨rfl, -⟩ := List.cons.inj hcs
      exact absurd (by simp) hword

/-- Without a circumflex there is no superscript. -/
theorem not_hasSuperscript_of_not_mem {s : String} (h : '^' ∉ s.toList) : ¬ HasSuperscript s := by
  rintro ⟨front, back, heq, -⟩
  exact h (by simp [heq])

/-- A superscript of two formulas is one of the first or of the second. -/
theorem not_hasSuperscript_append {s s' : String} (hs : Nests s) (h : ¬ HasSuperscript s)
    (h' : ¬ HasSuperscript s') : ¬ HasSuperscript (s ++ s') := by
  rintro ⟨front, back, heq, hfront⟩
  rw [String.toList_append] at heq
  rcases List.append_eq_append_iff.1 heq with ⟨more, hmore, hback⟩ | ⟨more, hmore, hback⟩
  · -- It stands in the second piece, behind what the front has of that.
    obtain rfl : front = s ++ String.ofList more := by
      rw [← String.toList_inj, String.toList_append, String.toList_ofList, hmore]
    exact h' ⟨String.ofList more, back, by rw [String.toList_ofList, hback], hs.of_append hfront⟩
  · cases more with
    | nil => exact h' ⟨"", back, hback.symm, nests_empty⟩
    | cons c more =>
      obtain ⟨rfl, -⟩ := List.cons.inj hback
      exact h ⟨front, more, hmore, hfront⟩

/-- Within brackets it does not count. -/
theorem not_hasSuperscript_around {kind : Bracket} {opened closed s : String}
    (hopen : ∀ rest, marks (opened.toList ++ rest) = .opening kind :: marks rest)
    (hopened : '^' ∉ opened.toList) (hclosed : '^' ∉ closed.toList) (h : Nests s) :
    ¬ HasSuperscript (opened ++ s ++ closed) := by
  rintro ⟨front, back, heq, hfront⟩
  rw [String.toList_append, String.toList_append, List.append_assoc] at heq
  obtain ⟨inner, hinner, hrest⟩ := exists_front_of_not_mem hopened heq
  -- The bracket in front is still open there, since all those behind it are closed.
  have hdepth : depth (marks inner) = -1 := by
    have hzero := hfront.nested.depth_eq.1
    rw [hinner, hopen, depth] at hzero
    omega
  rcases List.append_eq_append_iff.1 hrest with ⟨more, -, hmore⟩ | ⟨more, hmore, -⟩
  · exact hclosed (by simp [hmore])
  · have hsplits := hfront.splits more
    rw [hinner, List.append_assoc, hopen, hopen, List.cons_append, ← hmore] at hsplits
    have hle := h.nested.depth_eq.2 _ _ (List.cons.inj hsplits).2
    omega

/-- Braces hide superscripts. -/
theorem not_hasSuperscript_braced {s : String} (h : Nests s) : ¬ HasSuperscript (braced s) :=
  not_hasSuperscript_around (fun _ => rfl) (by decide) (by decide) h

/-- Parentheses hide superscripts. -/
theorem not_hasSuperscript_fenced {s : String} (h : Nests s) : ¬ HasSuperscript (fenced s) :=
  not_hasSuperscript_around (fun _ => rfl) (by decide) (by decide) h

end Latex

/-! ### Bases of powers -/

namespace Expr

/-- The base and the exponent of an expression that is displayed with a superscript. -/
def power? : Expr → Option (Expr × Expr)
  | binary "^" base exponent => some (base, exponent)
  | call "pow" [base, exponent] => some (base, exponent)
  | _ => none

/-- Whether an expression is neither a minus sign with its operand nor a call of `pow`. -/
def standsAlone : Expr → Bool
  | prefixed .. => false
  | call name _ => name != "pow"
  | _ => true

/-- The texts of a tree are those of its tokens. -/
theorem spelled_of_tokens {p : String → Prop} :
    (e : Expr) → (∀ t ∈ e.tokens, p t.text) → e.Spelled p
  | number text, h => .number (h ⟨.number, text⟩ (by simp [tokens]))
  | reference name, h => .reference (h ⟨.reference, name⟩ (by simp [tokens]))
  | constant name, h => .constant (h ⟨.constant, name⟩ (by simp [tokens]))
  | prefixed symbol operand, h =>
    .prefixed (h ⟨.operator, symbol⟩ (by simp [tokens]))
      (spelled_of_tokens operand fun t ht => h t (by simp [tokens, ht]))
  | binary symbol left right, h =>
    .binary (h ⟨.operator, symbol⟩ (by simp [tokens]))
      (spelled_of_tokens left fun t ht => h t (by simp [tokens, ht]))
      (spelled_of_tokens right fun t ht => h t (by simp [tokens, ht]))
  | group inner, h => .group (spelled_of_tokens inner fun t ht => h t (by simp [tokens, ht]))
  | call name args, h =>
    .call (h ⟨.function, name⟩ (by simp [tokens])) fun arg harg =>
      spelled_of_tokens arg fun t ht => h t (by simp [tokens, mem_tokensOfArguments harg ht])

/-- A legible tree is set well nested. -/
theorem Legible.nests {e : Expr} (h : e.Legible) : Latex.Nests (Latex.ofExpr standard e) := by
  refine Latex.nests_ofExpr Registry.setsNested_standard (spelled_of_tokens e fun t ht => ?_)
  obtain ⟨text, htext⟩ := h.spelled t ht
  exact Latex.isPlain_of_mem_tokens htext

/-- A legible tree is set well nested as a base. -/
theorem Legible.nests_base {e : Expr} (h : e.Legible) : Latex.Nests (Latex.baseLatex e) := by
  unfold Latex.baseLatex
  split
  · exact h.nests.fenced
  · exact h.nests

end Expr

namespace Latex

/-- What stands before the superscript of a power, and how it does. -/
theorem ofExpr_power {p base exponent : Expr} (h : p.power? = some (base, exponent)) :
    ofExpr standard p = baseLatex base ++ "^" ++ braced (ofExpr standard exponent) := by
  unfold Expr.power? at h
  split at h
  · obtain ⟨rfl, rfl⟩ := Prod.mk.inj (Option.some.inj h)
    rfl
  · obtain ⟨rfl, rfl⟩ := Prod.mk.inj (Option.some.inj h)
    rfl
  · cases h

/-- Whether a formula has neither a minus sign in front nor a superscript of its own. -/
def Unmarked (s : String) : Prop :=
  s.toList.head? ≠ some '-' ∧ ¬ HasSuperscript s

/-- Whether the base of a power stands between parentheses, or else unmarked. -/
def SetApart (base : Expr) : Prop :=
  baseLatex base = fenced (ofExpr standard base) ∨ Unmarked (baseLatex base)

/-- A formula of other characters is unmarked. -/
theorem unmarked_of_forall {s : String} {p : Char → Prop} (h : ∀ c ∈ s.toList, p c)
    (hminus : ¬ p '-') (hsuperscript : ¬ p '^') : Unmarked s :=
  ⟨fun hhead => hminus (h _ (List.mem_of_mem_head? hhead)),
    not_hasSuperscript_of_not_mem fun hmem => hsuperscript (h _ hmem)⟩

/-- A formula stays unmarked when one without superscript follows. -/
theorem Unmarked.append {s s' : String} (h : Unmarked s) (hne : s.toList ≠ []) (hs : Nests s)
    (h' : ¬ HasSuperscript s') : Unmarked (s ++ s') := by
  refine ⟨?_, not_hasSuperscript_append hs h.2 h'⟩
  rw [String.toList_append, List.head?_append_of_ne_nil _ hne]
  exact h.1

/-- A name is unmarked, and so is a call by name. -/
theorem unmarked_name {name : String} (h : takeName? name.toList = some (name.toList, [])) :
    name.toList ≠ [] ∧ Unmarked name := by
  obtain ⟨c, cs, htext⟩ := List.exists_cons_of_ne_nil (Lexer.takeName?_ne_nil h)
  obtain ⟨hstart, hchars⟩ := Lexer.takeName?_self_iff.1 (htext ▸ h)
  have hall : ∀ d ∈ name.toList, Lexer.isNameChar d = true := by
    rw [htext]
    refine List.forall_mem_cons.2 ⟨?_, List.all_eq_true.1 hchars⟩
    rw [Lexer.isNameChar, hstart, Bool.true_or]
  exact ⟨Lexer.takeName?_ne_nil h, unmarked_of_forall hall (by decide) (by decide)⟩

/-- Parentheses are unmarked. -/
theorem unmarked_fenced {s : String} (h : Nests s) : Unmarked (fenced s) := by
  refine ⟨?_, not_hasSuperscript_fenced h⟩
  rw [fenced, String.append_assoc, String.toList_append]
  show some '\\' ≠ some '-'
  decide

/-- A call of a function that has a control word is unmarked. -/
theorem unmarked_named {word name s : String} (hword : (word, Command.function name) ∈ commands)
    (h : Nests s) : Unmarked (word ++ fenced s) := by
  simp only [commands, List.mem_cons, Prod.mk.injEq, reduceCtorEq, and_false, false_or,
    Command.function.injEq, List.not_mem_nil, or_false] at hword
  rcases hword with ⟨rfl, rfl⟩ | ⟨rfl, rfl⟩ | ⟨rfl, rfl⟩ | ⟨rfl, rfl⟩ | ⟨rfl, rfl⟩ | ⟨rfl, rfl⟩ |
    ⟨rfl, rfl⟩
  all_goals
    refine Unmarked.append ?_ (by decide) (nests_word fun _ => rfl) (not_hasSuperscript_fenced h)
    exact ⟨by decide, not_hasSuperscript_of_not_mem (by decide)⟩

/-- No formula is itself between parentheses. -/
theorem ne_fenced (s : String) : s ≠ fenced s := by
  intro h
  have hlength := congrArg (·.toList.length) h
  simp [fenced] at hlength
  omega

/-- The LaTeX of a call has a superscript outside all brackets if and only if it is one of `pow`,
and never a minus sign in front of other calls. -/
theorem unmarked_call_iff {name : String} {args : List Expr} {latex : String}
    (hset : SetCall name args latex) (hname : takeName? name.toList = some (name.toList, []))
    (hnests : Nests name) (hargs : ∀ arg ∈ args, arg.Legible) :
    Unmarked latex ↔ name ≠ "pow" := by
  cases hset with
  | power base exponent =>
    have hbase := (hargs base List.mem_cons_self).nests_base
    -- The superscript stands right behind the base.
    refine iff_of_false (fun h => h.2 ⟨baseLatex base, ?_, ?_, hbase⟩) (by simp)
    · exact (braced (ofExpr standard exponent)).toList
    · simp
  | root operand =>
    have hoperand := (hargs operand (List.mem_singleton_self _)).nests
    refine iff_of_true (Unmarked.append ?_ (by decide) (nests_word fun _ => rfl)
      (not_hasSuperscript_braced hoperand)) (by decide)
    exact ⟨by decide, not_hasSuperscript_of_not_mem (by decide)⟩
  | logarithm operand base =>
    have hoperand := (hargs operand List.mem_cons_self).nests
    have hbase := (hargs base (by simp)).nests
    -- The base of a logarithm is a subscript, and its braces close before the operand.
    rw [String.append_assoc]
    refine iff_of_true (Unmarked.append ?_ (by decide) (nests_word fun _ => rfl) ?_) (by decide)
    · exact ⟨by decide, not_hasSuperscript_of_not_mem (by decide)⟩
    · exact not_hasSuperscript_append hbase.braced (not_hasSuperscript_braced hbase)
        (not_hasSuperscript_fenced hoperand)
  | named hword operand =>
    have hoperand := (hargs operand (List.mem_singleton_self _)).nests
    exact iff_of_true (unmarked_named hword hoperand) (ne_pow_of_mem_commands hword)
  | plain hne =>
    have hall : ∀ s ∈ args.map (ofExpr standard), Nests s :=
      List.forall_mem_map.2 fun arg harg => (hargs arg harg).nests
    have hinner := nests_intercalate (nests_word (s := ",\\,") fun _ => rfl) hall
    obtain ⟨hnonempty, hunmarked⟩ := unmarked_name hname
    exact iff_of_true
      (hunmarked.append hnonempty hnests (not_hasSuperscript_fenced hinner)) hne

/-- The base of a power is set apart if and only if it stands alone. -/
theorem setApart_iff {base : Expr} (h : base.Legible) :
    SetApart base ↔ base.standsAlone = true := by
  -- What is not a binary operation stands there as it is set elsewhere.
  have hplain : base.shape ≠ .binary → (SetApart base ↔ Unmarked (ofExpr standard base)) := by
    intro hshape
    rw [SetApart, baseLatex, if_neg hshape]
    exact or_iff_right (ne_fenced _)
  cases base with
  | number text =>
    refine (hplain nofun).trans (iff_of_true ?_ rfl)
    exact unmarked_of_forall (Decimal.takeNumber?_shape h.isNumber).1 (by decide) (by decide)
  | reference name =>
    exact (hplain nofun).trans (iff_of_true (unmarked_name h.isName).2 rfl)
  | constant name =>
    obtain rfl := h.eq_pi
    refine (hplain nofun).trans (iff_of_true ?_ rfl)
    exact ⟨by decide, not_hasSuperscript_of_not_mem (by decide)⟩
  | prefixed symbol operand =>
    obtain ⟨rfl, -⟩ := h.derives.madeOfDerived
    refine (hplain nofun).trans (iff_of_false (fun hunmarked => hunmarked.1 ?_) nofun)
    show (signRule "-" [⟨ofExpr standard operand, operand.shape⟩]).toList.head? = some '-'
    rw [signRule, String.toList_append]
    rfl
  | binary symbol left right => exact iff_of_true (.inl (if_pos rfl)) rfl
  | group inner =>
    have hinner := (Expr.hereditary_legible.group h).nests
    exact (hplain nofun).trans (iff_of_true (unmarked_fenced hinner) rfl)
  | call name args =>
    obtain ⟨text, htext⟩ := h.spelled _ (Expr.function_mem_tokens name args)
    have hunmarked := unmarked_call_iff (setCall_ofExpr h) h.isFunction.1
      (isPlain_of_mem_tokens htext).nests (Expr.hereditary_legible.call h)
    exact ((hplain nofun).trans hunmarked).trans bne_iff_ne.symm

/-! ### Formulas in formulas -/

/-- Whether a formula stands in another one. -/
def StandsIn (s s' : String) : Prop :=
  ∃ front back, s' = front ++ s ++ back

/-- A formula stands in itself. -/
theorem StandsIn.refl (s : String) : StandsIn s s :=
  ⟨"", "", by simp⟩

/-- What stands in a formula stands in every one that this one stands in. -/
theorem StandsIn.trans {s s' s'' : String} (h : StandsIn s s') (h' : StandsIn s' s'') :
    StandsIn s s'' := by
  obtain ⟨front, back, rfl⟩ := h
  obtain ⟨front', back', rfl⟩ := h'
  exact ⟨front' ++ front, back ++ back', by simp only [String.append_assoc]⟩

/-- A formula with something in front. -/
theorem StandsIn.append_left {s s' : String} (h : StandsIn s s') (front : String) :
    StandsIn s (front ++ s') :=
  h.trans ⟨front, "", by simp⟩

/-- A formula with something behind. -/
theorem StandsIn.append_right {s s' : String} (h : StandsIn s s') (back : String) :
    StandsIn s (s' ++ back) :=
  h.trans ⟨"", back, by simp⟩

/-- A formula in braces. -/
theorem standsIn_braced (s : String) : StandsIn s (braced s) :=
  ⟨"\x7b", "\x7d", rfl⟩

/-- A formula in parentheses. -/
theorem standsIn_fenced (s : String) : StandsIn s (fenced s) :=
  ⟨"\\left(", "\\right)", rfl⟩

/-- The formula of a base. -/
theorem standsIn_baseLatex (base : Expr) : StandsIn (ofExpr standard base) (baseLatex base) := by
  unfold baseLatex
  split
  · exact standsIn_fenced _
  · exact .refl _

/-- A piece of a list with separators. -/
theorem standsIn_intercalate {separator s : String} {pieces : List String} (h : s ∈ pieces) :
    StandsIn s (separator.intercalate pieces) := by
  induction pieces with
  | nil => cases h
  | cons s' pieces ih =>
    cases pieces with
    | nil =>
      obtain rfl := List.mem_singleton.1 h
      rw [String.intercalate_singleton]
      exact .refl s
    | cons s'' pieces =>
      rw [String.intercalate_cons_cons]
      rcases List.mem_cons.1 h with rfl | h
      · exact ((StandsIn.refl s).append_right separator).append_right _
      · exact (ih h).append_left _

/-- The arguments of a call stand in its formula. -/
theorem standsIn_call {name : String} {args : List Expr} {latex : String}
    (h : SetCall name args latex) : ∀ arg ∈ args, StandsIn (ofExpr standard arg) latex := by
  have hbraced := fun e => standsIn_braced (ofExpr standard e)
  have hfenced := fun e => standsIn_fenced (ofExpr standard e)
  intro arg harg
  cases h with
  | power base exponent =>
    rcases List.mem_pair.1 harg with rfl | rfl
    · exact ((standsIn_baseLatex arg).append_right "^").append_right _
    · exact (hbraced arg).append_left _
  | root operand =>
    obtain rfl := List.mem_singleton.1 harg
    exact (hbraced arg).append_left _
  | logarithm operand base =>
    rcases List.mem_pair.1 harg with rfl | rfl
    · exact (hfenced arg).append_left _
    · exact ((hbraced arg).append_left _).append_right _
  | named hword operand =>
    obtain rfl := List.mem_singleton.1 harg
    exact (hfenced arg).append_left _
  | plain =>
    have hinner : StandsIn (ofExpr standard arg)
        (",\\,".intercalate (args.map (ofExpr standard))) :=
      standsIn_intercalate (List.mem_map_of_mem harg)
    exact (hinner.trans (standsIn_fenced _)).append_left _

/-- Both operands stand on the line. -/
theorem standsIn_infixRule (sign : String) (left right : Part) :
    StandsIn left.latex (infixRule sign [left, right]) ∧
      StandsIn right.latex (infixRule sign [left, right]) := by
  refine ⟨⟨"", " " ++ sign ++ " " ++ right.latex, ?_⟩, left.latex ++ " " ++ sign ++ " ", "", ?_⟩
  · simp [infixRule, String.append_assoc]
  · simp [infixRule]

/-- The operands of an operation stand in its formula. -/
theorem standsIn_binary {symbol : String} (hsymbol : symbol ∈ ["+", "-", "*", "/", "%", "^"])
    (left right : Expr) :
    StandsIn (ofExpr standard left) (ofExpr standard (.binary symbol left right)) ∧
      StandsIn (ofExpr standard right) (ofExpr standard (.binary symbol left right)) := by
  have hchain := fun sign => standsIn_infixRule sign ⟨ofExpr standard left, left.shape⟩
    ⟨ofExpr standard right, right.shape⟩
  simp only [List.mem_cons, List.not_mem_nil, or_false] at hsymbol
  rcases hsymbol with rfl | rfl | rfl | rfl | rfl | rfl
  · exact hchain "+"
  · exact hchain "-"
  · exact hchain "\\cdot"
  · exact ⟨((standsIn_braced _).append_left "\\frac").append_right _,
      (standsIn_braced _).append_left _⟩
  · exact hchain "\\bmod"
  · exact ⟨((standsIn_baseLatex left).append_right "^").append_right _,
      (standsIn_braced _).append_left _⟩

/-- Where the LaTeX of an expression stands, that of its parts does. -/
theorem hereditary_standsIn (s : String) :
    Expr.Hereditary fun e => e.Legible ∧ StandsIn (ofExpr standard e) s where
  prefixed := by
    rintro symbol operand ⟨hlegible, hstands⟩
    obtain ⟨rfl, -⟩ := hlegible.derives.madeOfDerived
    refine ⟨Expr.hereditary_legible.prefixed hlegible, StandsIn.trans ?_ hstands⟩
    show StandsIn _ ("-" ++ if operand.shape.isCompound then fenced (ofExpr standard operand)
      else ofExpr standard operand)
    split
    · exact (standsIn_fenced _).append_left "-"
    · exact (StandsIn.refl _).append_left "-"
  binary := by
    rintro symbol left right ⟨hlegible, hstands⟩
    obtain ⟨hleft, hright⟩ := Expr.hereditary_legible.binary hlegible
    obtain ⟨hin, hin'⟩ := standsIn_binary hlegible.derives.madeOfDerived.1 left right
    exact ⟨⟨hleft, hin.trans hstands⟩, hright, hin'.trans hstands⟩
  group := by
    rintro inner ⟨hlegible, hstands⟩
    exact ⟨Expr.hereditary_legible.group hlegible, (standsIn_fenced _).trans hstands⟩
  call := by
    rintro name args ⟨hlegible, hstands⟩ arg harg
    exact ⟨Expr.hereditary_legible.call hlegible arg harg,
      (standsIn_call (setCall_ofExpr hlegible) arg harg).trans hstands⟩

/-- The LaTeX of every part stands in that of the whole. -/
theorem standsIn_of_mem_parts {e p : Expr} (h : e.Legible) (hp : p ∈ e.parts) :
    StandsIn (ofExpr standard p) (ofExpr standard e) :=
  ((hereditary_standsIn _).of_mem_parts e ⟨h, .refl _⟩ hp).2

end Latex

end LiveSheet
