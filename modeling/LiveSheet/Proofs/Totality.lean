import LiveSheet.Evaluation.Stack
import LiveSheet.Proofs.Advance
import LiveSheet.Proofs.Notation
import Mathlib.Data.List.TakeWhile
import Mathlib.Tactic.IntervalCases

/-!
# Every text comes to a value on the stack

A run on the stack raises no error of its own if the scope has a number for every name
(`Registry.evaluate_total`): the lexer takes only numerals as numbers, the order of the tokens
invents no number, and a run asks for no other values than those.
-/

namespace LiveSheet

/-! ### Numerals of the lexer -/

namespace Decimal

/-- A numeral that is taken from a text is digits, or digits with a point among them, before them or
behind them, and is taken again before any text that ends it. -/
theorem takeNumber?_shape {cs numeral rest : List Char}
    (h : takeNumber? cs = some (numeral, rest)) :
    (∀ c ∈ numeral, isDigit c = true ∨ c = '.') ∧
      ∀ back, EndsNumber back → takeNumber? (numeral ++ back) = some (numeral, back) := by
  have hdigits : ∀ (ds : List Char), ∀ c ∈ ds.takeWhile isDigit, isDigit c = true :=
    fun ds c hc => List.mem_takeWhile_imp hc
  unfold takeNumber? at h
  split at h
  · next hwhole =>
    -- Without a digit in front there has to be a point with digits behind it.
    unfold takeFraction? at h
    split at h
    · next tail =>
      split at h
      · cases h
      · next hne =>
        obtain ⟨rfl, rfl⟩ := by simpa using h
        refine ⟨fun c hc => ?_, fun back hback => ?_⟩
        · rcases List.mem_cons.1 hc with rfl | hc
          · exact .inr rfl
          · exact .inl (hdigits tail c hc)
        · obtain ⟨htake, hdrop⟩ :=
            takeWhile_digits back (hdigits tail) fun c hc => (hback c hc).1
          rw [List.cons_append]
          unfold takeNumber?
          rw [List.takeWhile_cons_of_neg (by decide)]
          simp only [takeFraction?, htake, hdrop]
    · cases h
  · next hne =>
    obtain ⟨rfl, rfl⟩ := by simpa using h
    unfold takePoint
    split
    · next tail _ =>
      refine ⟨fun c hc => ?_, fun back hback =>
        takeNumber?_point back hne (hdigits cs) (hdigits tail) hback⟩
      rcases List.mem_append.1 hc with hc | hc
      · exact .inl (hdigits cs c hc)
      · rcases List.mem_cons.1 hc with rfl | hc
        · exact .inr rfl
        · exact .inl (hdigits tail c hc)
    · rw [List.append_nil]
      exact ⟨fun c hc => .inl (hdigits cs c hc), fun back hback =>
        takeNumber?_whole back hne (hdigits cs) hback⟩

/-- The characters of a numeral that the lexer takes. -/
def plainChars : List Char :=
  ['0', '1', '2', '3', '4', '5', '6', '7', '8', '9', '.']

/-- Digits and points are the characters of such a numeral. -/
theorem mem_plainChars {c : Char} (h : isDigit c = true ∨ c = '.') : c ∈ plainChars := by
  rcases h with h | rfl
  · have hlow : 48 ≤ c.toNat ∧ c.toNat ≤ 57 := by
      simpa [isDigit, Char.le_def, UInt32.le_iff_toNat_le] using h
    obtain ⟨n, hn⟩ : ∃ n, c.toNat = n := ⟨_, rfl⟩
    rw [hn] at hlow
    obtain ⟨hge, hle⟩ := hlow
    have hc : c = Char.ofNat n := by rw [← hn, Char.ofNat_toNat]
    rw [hc]
    interval_cases n <;> decide
  · decide

/-- Such a character is no blank, no sign, no underscore, no digit of another script, and starts no
word for a special value. -/
theorem plainChars_spec : ∀ c ∈ plainChars, Text.isBlank c = false ∧
    (match Text.digitValue? c with | some d => Nat.digitChar d | none => c) = c ∧ c ≠ '_' ∧
    c ≠ '-' ∧ c ≠ '+' ∧ c.toLower ≠ 'i' ∧ c.toLower ≠ 'n' :=
  forall_mem_of_all (by decide)

/-- Without underscores nothing is dropped. -/
theorem dropUnderscores?_of_not_mem {cs : List Char} (h : '_' ∉ cs) (afterDigit : Bool) :
    dropUnderscores? afterDigit cs = some cs := by
  induction cs generalizing afterDigit with
  | nil => rfl
  | cons c cs ih =>
    have hc : c ≠ '_' := fun hc => h (by simp [hc])
    unfold dropUnderscores?
    split
    · next heq => cases heq
    · next heq => exact absurd (List.cons.inj heq).1 hc
    · next heq =>
      obtain ⟨rfl, rfl⟩ := List.cons.inj heq
      rw [ih fun hmem => h (List.mem_cons_of_mem c hmem)]
      rfl

/-- What is taken for a numeral is read as the number nearest to it. -/
theorem readNumeral?_eq_of_takeNumber? {cs numeral rest : List Char}
    (h : takeNumber? cs = some (numeral, rest)) :
    readNumeral? (String.ofList numeral) =
      some (nearest false (digitsValue numeral) (0 - places numeral)) := by
  obtain ⟨hchars, hbefore⟩ := takeNumber?_shape h
  have hagain : takeNumber? numeral = some (numeral, []) := by
    simpa using hbefore [] endsNumber_nil
  have hplain : ∀ c ∈ numeral, c ∈ plainChars := fun c hc => mem_plainChars (hchars c hc)
  obtain ⟨c, tail, rfl⟩ : ∃ c tail, numeral = c :: tail := by
    cases numeral with
    | nil => exact absurd rfl (takeNumber?_ne_nil h)
    | cons c tail => exact ⟨c, tail, rfl⟩
  have htrim : trimBlanks (c :: tail) = c :: tail := by
    have hdrop : ∀ ds : List Char, (∀ d ∈ ds, d ∈ plainChars) → ds.dropWhile Text.isBlank = ds := by
      intro ds hds
      cases ds with
      | nil => rfl
      | cons d ds =>
        exact List.dropWhile_cons_of_neg (by simp [(plainChars_spec d (hds d (by simp))).1])
    unfold trimBlanks
    rw [hdrop _ hplain, hdrop _ fun d hd => hplain d (List.mem_reverse.1 hd), List.reverse_reverse]
  have hascii : withAsciiDigits (c :: tail) = c :: tail := by
    unfold withAsciiDigits
    exact (List.map_congr_left fun d hd => (plainChars_spec d (hplain d hd)).2.1).trans
      (List.map_id _)
  have hunderscore : '_' ∉ c :: tail := fun hmem =>
    (plainChars_spec '_' (hplain '_' hmem)).2.2.1 rfl
  obtain ⟨-, -, -, hminus, hplus, hi, hn⟩ := plainChars_spec c (hplain c (by simp))
  -- Neither a sign nor a word comes first, so only the digits are left to read.
  have hsign : takeSign (c :: tail) = (false, c :: tail) := by
    unfold takeSign
    split
    · next heq => exact absurd (List.cons.inj heq).1 hminus
    · next heq => exact absurd (List.cons.inj heq).1 hplus
    · rfl
  have hword : specialValue? false (c :: tail) = none := by
    have hne : ∀ word : String, (word.toList.head? = some 'i' ∨ word.toList.head? = some 'n') →
        (String.ofList ((c :: tail).map Char.toLower) == word) = false := by
      intro word hhead
      refine beq_eq_false_iff_ne.2 fun heq => ?_
      rw [← heq, String.toList_ofList] at hhead
      rcases hhead with hhead | hhead
      · exact hi (Option.some.inj hhead)
      · exact hn (Option.some.inj hhead)
    unfold specialValue?
    simp only [hne "inf" (.inl rfl), hne "infinity" (.inl rfl), hne "nan" (.inr rfl),
      Bool.or_false, Bool.false_eq_true, if_false]
  have hnumeral : takeNumeral? (c :: tail) =
      some (nearest false (digitsValue (c :: tail)) (0 - places (c :: tail)), []) := by
    unfold takeNumeral?
    simp only [hsign, hagain, takeExponent, Option.bind_eq_bind, Option.bind_some]
    rfl
  unfold readNumeral?
  rw [String.toList_ofList, htrim, hascii, dropUnderscores?_of_not_mem hunderscore]
  simp only [Option.bind_eq_bind, Option.bind_some, hsign, hword, hnumeral]

/-- What is taken for a numeral is read as one. -/
theorem readNumeral?_of_takeNumber? {cs numeral rest : List Char}
    (h : takeNumber? cs = some (numeral, rest)) :
    ∃ x, readNumeral? (String.ofList numeral) = some x :=
  ⟨_, readNumeral?_eq_of_takeNumber? h⟩

end Decimal

/-! ### Tokens -/

namespace Lexer

variable {isConstant : String → Bool} {cs : List Char} {start : Nat}

/-- A lexeme comes from the first piece or from one behind it. -/
theorem mem_lexemesFrom_cons {p : Piece} {ps : List Piece} {l : Lexeme} :
    l ∈ lexemesFrom start (p :: ps) ↔
      (l.start = start ∧ p = .token l.token l.spelling) ∨
        l ∈ lexemesFrom (start + p.chars.length) ps := by
  cases p with
  | token t w =>
    rw [lexemesFrom, List.mem_cons]
    refine or_congr_left ⟨?_, ?_⟩
    · rintro rfl
      exact ⟨rfl, rfl⟩
    · rintro ⟨rfl, heq⟩
      obtain ⟨rfl, rfl⟩ := Piece.token.inj heq
      rfl
  | gap c => simp [lexemesFrom]
  | unread c => simp [lexemesFrom]

/-- A lexeme is the first piece of what comes from its place on. -/
theorem exists_nextPiece_of_mem_lexemesFrom {l : Lexeme}
    (h : l ∈ lexemesFrom start (pieces isConstant cs)) :
    ∃ before c after, before ++ c :: after = cs ∧ l.start = start + before.length ∧
      (nextPiece isConstant c after).1 = .token l.token l.spelling := by
  induction cs using pieces.induct isConstant generalizing start with
  | case1 => simp [pieces, lexemesFrom] at h
  | case2 c cs ih =>
    rw [pieces] at h
    rcases mem_lexemesFrom_cons.1 h with ⟨hstart, hpiece⟩ | h
    · exact ⟨[], c, cs, rfl, hstart, hpiece⟩
    · obtain ⟨before, d, after, hrest, hstart, hpiece⟩ := ih h
      refine ⟨(nextPiece isConstant c cs).1.chars ++ before, d, after, ?_, ?_, hpiece⟩
      · rw [List.append_assoc, hrest, chars_nextPiece]
      · rw [List.length_append, ← add_assoc, hstart]

/-- Every token of a text is the first piece of some part of it. -/
theorem exists_nextPiece_of_mem_tokens {s : String} {t : Token} (h : t ∈ tokens isConstant s) :
    ∃ c cs spelling, (nextPiece isConstant c cs).1 = .token t spelling := by
  obtain ⟨l, hl, rfl⟩ := List.mem_map.1 h
  obtain ⟨before, c, cs, -, -, hpiece⟩ := exists_nextPiece_of_mem_lexemesFrom hl
  exact ⟨c, cs, l.spelling, hpiece⟩

/-- A name is no number, and refers to a node by its spelling if it does. -/
theorem nameToken_spec (isConstant : String → Bool) (name rest : List Char) :
    (nameToken isConstant name rest).kind ≠ .number ∧
      ((nameToken isConstant name rest).kind = .reference →
        (nameToken isConstant name rest).text = String.ofList name) := by
  unfold nameToken
  simp only
  split
  · simp
  · split <;> simp

/-- A token of a single character is neither a number nor a reference. -/
theorem symbolToken?_kind {c : Char} {t : Token} (h : symbolToken? c = some t) :
    t.kind ≠ .number ∧ t.kind ≠ .reference := by
  unfold symbolToken? at h
  split at h
  · obtain rfl := Option.some.inj h
    simp
  · split at h
    · obtain rfl := Option.some.inj h
      simp
    · split at h
      · obtain rfl := Option.some.inj h
        simp
      · cases h

/-- What can be cut off the front of a text, and what is left. -/
inductive Cut (isConstant : String → Bool) (c : Char) (cs : List Char) : Piece → List Char → Prop
  | gap (h : isGap c = true) : Cut isConstant c cs (.gap c) cs
  | number {w rest : List Char} (h : Decimal.takeNumber? (c :: cs) = some (w, rest)) :
      Cut isConstant c cs (.token ⟨.number, String.ofList w⟩ w) rest
  | name {w rest : List Char} (h : takeName? (c :: cs) = some (w, rest)) :
      Cut isConstant c cs (.token (nameToken isConstant w rest) w) rest
  | symbol {t : Token} (h : symbolToken? c = some t) : Cut isConstant c cs (.token t [c]) cs
  | unread : Cut isConstant c cs (.unread c) cs

/-- The lexer cuts off one of these pieces. -/
theorem cut_nextPiece (isConstant : String → Bool) (c : Char) (cs : List Char) :
    Cut isConstant c cs (nextPiece isConstant c cs).1 (nextPiece isConstant c cs).2 := by
  unfold nextPiece
  split
  · next hgap => exact .gap hgap
  · split
    · next hnumber => exact .number hnumber
    · split
      · next hname => exact .name hname
      · split
        · next hsymbol => exact .symbol hsymbol
        · exact .unread

/-- A number is spelled by a numeral, and a reference by a name. -/
theorem nextPiece_token {isConstant : String → Bool} {c : Char} {cs spelling : List Char}
    {t : Token} (h : (nextPiece isConstant c cs).1 = .token t spelling) :
    (t.kind = .number → ∃ rest, Decimal.takeNumber? (c :: cs) = some (spelling, rest) ∧
      t.text = String.ofList spelling) ∧
    (t.kind = .reference → ∃ rest, takeName? (c :: cs) = some (spelling, rest) ∧
      t.text = String.ofList spelling) := by
  have hcut := cut_nextPiece isConstant c cs
  rw [h] at hcut
  generalize (nextPiece isConstant c cs).2 = rest at hcut
  cases hcut with
  | number hnumber =>
    refine ⟨fun _ => ⟨_, hnumber, rfl⟩, fun hkind => ?_⟩
    cases hkind
  | name hname =>
    obtain ⟨hnumber, hreference⟩ := nameToken_spec isConstant spelling rest
    exact ⟨fun hkind => absurd hkind hnumber, fun hkind => ⟨_, hname, hreference hkind⟩⟩
  | symbol hsymbol =>
    obtain ⟨hnumber, hreference⟩ := symbolToken?_kind hsymbol
    exact ⟨fun hkind => absurd hkind hnumber, fun hkind => absurd hkind hreference⟩

end Lexer

/-- The names that are referred to are those of reference tokens. -/
theorem mem_referencesOf {ts : List Token} {name : String} :
    name ∈ referencesOf ts ↔ ⟨.reference, name⟩ ∈ ts := by
  simp only [referencesOf, List.mem_eraseDups, List.mem_map, List.mem_filter, beq_iff_eq]
  constructor
  · rintro ⟨⟨kind, text⟩, ⟨hmem, rfl⟩, rfl⟩
    exact hmem
  · intro hmem
    exact ⟨_, ⟨hmem, rfl⟩, rfl⟩

/-- Every name is referred to once. -/
theorem nodup_referencesOf (ts : List Token) : (referencesOf ts).Nodup := by
  unfold referencesOf
  generalize (ts.filter (·.kind == .reference)).map (·.text) = names
  induction hlength : names.length using Nat.strong_induction_on generalizing names with
  | _ n ih =>
    cases names with
    | nil => simp
    | cons name names =>
      rw [List.eraseDups_cons, List.nodup_cons]
      have hle := List.length_filter_le (fun b => !b == name) names
      simp only [List.length_cons] at hlength
      refine ⟨fun hmem => ?_, ih _ (by omega) _ rfl⟩
      have := (List.mem_filter.1 (List.mem_eraseDups.1 hmem)).2
      simp at this

/-- A token whose text is a numeral if it is a number. -/
def Token.Readable (t : Token) : Prop :=
  t.kind = .number → ∃ x, Decimal.readNumeral? t.text = some x

namespace Registry

/-- The numbers of a text are numerals. -/
theorem readable_of_mem_tokens {r : Registry} {s : String} {t : Token} (h : t ∈ r.tokens s) :
    t.Readable := by
  intro hkind
  obtain ⟨c, cs, spelling, hpiece⟩ := Lexer.exists_nextPiece_of_mem_tokens h
  obtain ⟨rest, htake, htext⟩ := (Lexer.nextPiece_token hpiece).1 hkind
  rw [htext]
  exact Decimal.readNumeral?_of_takeNumber? htake

/-- No text refers to a node without name. -/
theorem empty_not_mem_references (r : Registry) (s : String) : "" ∉ r.references s := by
  intro h
  obtain ⟨c, cs, spelling, hpiece⟩ := Lexer.exists_nextPiece_of_mem_tokens (mem_referencesOf.1 h)
  obtain ⟨rest, htake, hspelling⟩ := (Lexer.nextPiece_token hpiece).2 rfl
  have hnil : spelling = [] := by
    have := congrArg String.toList hspelling
    simpa using this.symm
  exact Lexer.takeName?_ne_nil htake hnil

end Registry

/-! ### Runs on the stack -/

namespace Postfix

/-- A step that asks for a numeral and for no value that is too large. -/
def Step.Runs (scope : Scope) : Step → Prop
  | .number text => ∃ x, Decimal.readNumeral? text = some x
  | .reference name => ∃ x, ((scope.get? name).getD .null).coerce = .ok x
  | _ => True

/-- Putting a value on the stack raises nothing about numbers. -/
theorem push_ne_number (symbol : String) (value : Float) (stack : List Float) (e : NumberError) :
    push symbol value stack ≠ .error (.number e) := by
  unfold push
  split <;> simp

/-- Nothing but a number or a reference raises. -/
theorem runStep_ne_number {r : Registry} {scope : Scope} {step : Step} (h : step.Runs scope)
    (stack : List Float) (e : NumberError) :
    runStep r scope stack step ≠ .error (.number e) := by
  cases step with
  | number text =>
    obtain ⟨x, hx⟩ := h
    simp [runStep, hx]
  | reference name =>
    obtain ⟨x, hx⟩ := h
    simp [runStep, hx]
  | constant name => exact push_ne_number _ _ _ e
  | prefixed symbol =>
    simp only [runStep]
    split
    · split <;> exact push_ne_number _ _ _ e
    · simp
  | operator symbol =>
    simp only [runStep]
    split
    · split <;> exact push_ne_number _ _ _ e
    · simp
  | call name =>
    simp only [runStep]
    split
    · simp
    · split
      · simp
      · exact push_ne_number _ _ _ e

/-- A run of such steps raises nothing about numbers. -/
theorem run_ne_number {r : Registry} {scope : Scope} {steps : List Step}
    (h : ∀ step ∈ steps, step.Runs scope) (stack : List Float) (e : NumberError) :
    run r scope stack steps ≠ .error (.number e) := by
  induction steps generalizing stack with
  | nil => simp [run]
  | cons step steps ih =>
    have ih := ih fun step' hstep => h step' (List.mem_cons_of_mem step hstep)
    rw [run]
    cases hstep : runStep r scope stack step with
    | ok stack' => exact ih stack'
    | error e' =>
      have := runStep_ne_number (r := r) (h step (by simp)) stack e
      rw [hstep] at this
      simpa using this

end Postfix

/-! ### Scopes that show the same numbers -/

namespace Postfix

/-- A step depends on the number of the name that it refers to only. -/
theorem runStep_congr {r : Registry} {scope scope' : Scope} {step : Step}
    (h : ∀ name, .reference name = step →
      ((scope.get? name).getD .null).coerce = ((scope'.get? name).getD .null).coerce)
    (stack : List Float) : runStep r scope stack step = runStep r scope' stack step := by
  cases step with
  | reference name =>
    simp only [runStep]
    rw [h name rfl]
  | _ => rfl

/-- A run depends on the numbers that the scope has for the references among its steps. -/
theorem run_congr {r : Registry} {scope scope' : Scope} {steps : List Step}
    (h : ∀ name, .reference name ∈ steps →
      ((scope.get? name).getD .null).coerce = ((scope'.get? name).getD .null).coerce)
    (stack : List Float) : run r scope stack steps = run r scope' stack steps := by
  induction steps generalizing stack with
  | nil => rfl
  | cons step steps ih =>
    rw [run, run, runStep_congr fun name hstep => h name (hstep ▸ List.mem_cons_self)]
    cases runStep r scope' stack step with
    | ok stack' => exact ih (fun name hmem => h name (List.mem_cons_of_mem step hmem)) stack'
    | error e => rfl

end Postfix

/-! ### Scopes of numbers -/

/-- Whether a scope holds nothing but numbers. -/
def Scope.IsNumeric (scope : Scope) : Prop :=
  ∀ name v, scope.get? name = some v → ∃ x, v = .float x

/-- The names that are not in a scope count as 0. -/
theorem Scope.IsNumeric.coerce {scope : Scope} (h : scope.IsNumeric) (name : String) :
    ∃ x, ((scope.get? name).getD .null).coerce = .ok x := by
  cases hv : scope.get? name with
  | none => exact ⟨0, rfl⟩
  | some v =>
    obtain ⟨x, rfl⟩ := h name v hv
    exact ⟨_, rfl⟩

/-! ### Texts -/

namespace Registry

/-- The steps of a text run, if the scope has a number for each name. -/
theorem runs_of_order {r : Registry} {text : String} {scope : Scope} {steps : List Postfix.Step}
    (hscope : ∀ name, ∃ x, ((scope.get? name).getD .null).coerce = .ok x)
    (horder : Postfix.order r (r.tokens text) = .ok steps) : ∀ step ∈ steps, step.Runs scope := by
  intro step hstep
  cases step with
  | number digits =>
    have hmem : ⟨.number, digits⟩ ∈ r.tokens text := Postfix.token_mem_of_order horder hstep
    have hread := readable_of_mem_tokens hmem
    exact hread rfl
  | reference name => exact hscope name
  | constant name => trivial
  | prefixed symbol => trivial
  | operator symbol => trivial
  | call name => trivial

/-- No number in a text is unreadable, if the scope has a number for each name. -/
theorem evaluateStrict_ne_number (r : Registry) (text : String) {scope : Scope}
    (hscope : ∀ name, ∃ x, ((scope.get? name).getD .null).coerce = .ok x) (err : NumberError) :
    r.evaluateStrict (r.tokens text) scope ≠ .error (.number err) := by
  unfold evaluateStrict
  cases horder : Postfix.order r (r.tokens text) with
  | error f => simp
  | ok steps =>
    have hrun := Postfix.run_ne_number (r := r) (runs_of_order hscope horder) [] err
    simp only
    split
    · simp
    · simp
    · next err' heq =>
      rw [heq] at hrun
      simpa using hrun

/-- The stack answers every text, if the scope has a number for each name. -/
theorem evaluate_total (r : Registry) (text : String) {scope : Scope}
    (hscope : ∀ name, ∃ x, ((scope.get? name).getD .null).coerce = .ok x) :
    ∃ result, r.evaluate (r.tokens text) scope = .ok result := by
  unfold evaluate
  split
  · exact ⟨_, rfl⟩
  · exact ⟨_, rfl⟩
  · next e heq => exact absurd heq (evaluateStrict_ne_number r text hscope e)

end Registry

end LiveSheet
