import LiveSheet.Proofs.Respelling

/-!
# Cutting by longest match

What can stand as a word in a text is said here without the lexer (`IsWord`): a numeral, a name, an
operator, a parenthesis or a comma. `IsCut` says what it means that a text is cut into words by
longest match, by places alone: the words are apart and in order, none of them could be longer, and
at the places between them there is white space or a character that no word starts with.

The lexer cuts every text like that (`Registry.isCut_lexemes`). It takes a word wherever one starts,
and none that is shorter than another one (`exists_token_of_isWord`); so every lexeme and every
place without one is what the lexer has found at that place (`exists_nextPiece_of_mem_lexemesFrom`,
`nextPiece_of_not_covered`).
-/

namespace LiveSheet

open Decimal (isDigit takeNumber? takeFraction? takePoint)

/-! ### Words -/

/-- Digits with perhaps a point among them, before them or behind them. -/
inductive IsNumeral : List Char → Prop
  | whole {digits : List Char} (hne : digits ≠ []) (h : ∀ c ∈ digits, isDigit c = true) :
      IsNumeral digits
  | pointed {whole fraction : List Char} (hne : whole ≠ [] ∨ fraction ≠ [])
      (hwhole : ∀ c ∈ whole, isDigit c = true) (hfraction : ∀ c ∈ fraction, isDigit c = true) :
      IsNumeral (whole ++ '.' :: fraction)

namespace Lexer

/-- A letter or an underscore, and then letters, digits and underscores. -/
inductive IsName : List Char → Prop
  | mk {c : Char} {cs : List Char} (hstart : isNameStart c = true)
      (hchars : ∀ d ∈ cs, isNameChar d = true) : IsName (c :: cs)

/-- What a token of a kind can be spelled as. -/
inductive IsWord : TokenKind → List Char → Prop
  | number {w : List Char} (h : IsNumeral w) : IsWord .number w
  | reference {w : List Char} (h : IsName w) : IsWord .reference w
  | constant {w : List Char} (h : IsName w) : IsWord .constant w
  | function {w : List Char} (h : IsName w) : IsWord .function w
  | operator {c : Char} (h : c ∈ ['+', '-', '*', '/', '^', '%']) : IsWord .operator [c]
  | parenthesis {c : Char} (h : c ∈ ['(', ')']) : IsWord .parenthesis [c]
  | comma : IsWord .comma [',']

end Lexer

namespace Decimal

/-- What is taken for a number is a numeral. -/
theorem isNumeral_of_takeNumber? {cs w rest : List Char} (h : takeNumber? cs = some (w, rest)) :
    IsNumeral w := by
  have hdigits : ∀ (ds : List Char), ∀ c ∈ ds.takeWhile isDigit, isDigit c = true :=
    fun ds c hc => List.mem_takeWhile_imp hc
  unfold takeNumber? at h
  split at h
  · next hwhole =>
    unfold takeFraction? at h
    split at h
    · next tail =>
      split at h
      · cases h
      · next hne =>
        obtain ⟨rfl, -⟩ := by simpa using h
        exact @IsNumeral.pointed [] _ (.inr hne) (by simp) (hdigits tail)
    · cases h
  · next hne =>
    obtain ⟨rfl, -⟩ := by simpa using h
    unfold takePoint
    split
    · next tail _ => exact .pointed (.inl hne) (hdigits cs) (hdigits tail)
    · rw [List.append_nil]
      exact .whole hne (hdigits cs)

/-- Where a numeral comes first, a number is taken that is at least as long. -/
theorem takeNumber?_of_isNumeral {w : List Char} (h : IsNumeral w) (back : List Char) :
    ∃ numeral rest, takeNumber? (w ++ back) = some (numeral, rest) ∧
      w.length ≤ numeral.length := by
  cases h with
  | whole hne hdigits =>
    have hne' : w ++ back.takeWhile isDigit ≠ [] := by simp [hne]
    unfold takeNumber?
    rw [List.takeWhile_append_of_pos hdigits]
    split
    · next hnil => exact absurd hnil hne'
    · refine ⟨_, _, rfl, ?_⟩
      simp only [List.length_append]
      omega
  | @pointed whole fraction hne hwhole hfraction =>
    have hfront : (whole ++ '.' :: fraction ++ back).takeWhile isDigit = whole := by
      rw [List.append_assoc, List.takeWhile_append_of_pos hwhole, List.cons_append,
        List.takeWhile_cons_of_neg (by decide), List.append_nil]
    have hback : (whole ++ '.' :: fraction ++ back).dropWhile isDigit =
        '.' :: (fraction ++ back) := by
      rw [List.append_assoc, List.dropWhile_append_of_pos hwhole, List.cons_append,
        List.dropWhile_cons_of_neg (by decide)]
    have hlength : fraction.length ≤ ((fraction ++ back).takeWhile isDigit).length := by
      rw [List.takeWhile_append_of_pos hfraction, List.length_append]
      omega
    unfold takeNumber?
    rw [hfront, hback]
    split
    · -- Without digits before the point, there are some behind it.
      have hsome : (fraction ++ back).takeWhile isDigit ≠ [] := by
        rw [List.takeWhile_append_of_pos hfraction]
        simp [hne.resolve_left (by simp)]
      simp only [List.nil_append, List.cons_append, takeFraction?]
      exact ⟨_, _, rfl, by simpa using hlength⟩
    · refine ⟨_, _, rfl, ?_⟩
      simp only [List.length_append, List.length_cons]
      omega

end Decimal

namespace Lexer

variable {isConstant : String → Bool} {c : Char} {cs rest : List Char} {start : Nat}

/-- What is taken as a name is one. -/
theorem isName_of_takeName? {w : List Char} (h : takeName? cs = some (w, rest)) : IsName w := by
  cases cs with
  | nil => simp [takeName?] at h
  | cons c cs =>
    rw [takeName?] at h
    split at h
    · next hstart =>
      obtain ⟨rfl, -⟩ := by simpa using h
      exact .mk hstart fun d hd => List.mem_takeWhile_imp hd
    · cases h

/-- Where a name comes first, one is taken that is at least as long. -/
theorem takeName?_of_isName {w : List Char} (h : IsName w) (back : List Char) :
    ∃ name rest, takeName? (w ++ back) = some (name, rest) ∧ w.length ≤ name.length := by
  obtain ⟨hstart, hchars⟩ := h
  rw [List.cons_append, takeName?, if_pos hstart, List.takeWhile_append_of_pos hchars]
  refine ⟨_, _, rfl, ?_⟩
  simp only [List.length_cons, List.length_append]
  omega

/-! ### One piece -/

/-- The tokens of single characters are the other words. -/
theorem exists_symbolToken? (h : c ∈ ['+', '-', '*', '/', '^', '%', '(', ')', ',']) :
    ∃ t, symbolToken? c = some t :=
  Option.isSome_iff_exists.1 <|
    Decimal.forall_mem_of_all (p := fun c => (symbolToken? c).isSome = true) (by decide) c h

/-- A token of a single character is spelled by a word of its kind. -/
theorem isWord_of_symbolToken? {t : Token} (h : symbolToken? c = some t) : IsWord t.kind [c] := by
  unfold symbolToken? at h
  split at h
  · next hoperator =>
    obtain rfl := Option.some.inj h
    exact .operator (by simpa [isOperatorChar, or_assoc] using hoperator)
  · split at h
    · next hparen =>
      obtain rfl := Option.some.inj h
      exact .parenthesis (by simpa using hparen)
    · split at h
      · next hcomma =>
        obtain rfl := Option.some.inj h
        obtain rfl : c = ',' := by simpa using hcomma
        exact .comma
      · cases h

/-- The tokens that a name can be. -/
theorem nameToken_cases (isConstant : String → Bool) (w rest : List Char) :
    nameToken isConstant w rest = ⟨.function, Text.lowercase (String.ofList w)⟩ ∨
      nameToken isConstant w rest = ⟨.constant, Text.lowercase (String.ofList w)⟩ ∨
        nameToken isConstant w rest = ⟨.reference, String.ofList w⟩ := by
  unfold nameToken
  simp only
  split
  · exact .inl rfl
  · split
    · exact .inr (.inl rfl)
    · exact .inr (.inr rfl)

/-- A token is spelled by a word of its kind. -/
theorem isWord_of_nextPiece {t : Token} {w : List Char}
    (h : (nextPiece isConstant c cs).1 = .token t w) : IsWord t.kind w := by
  have hcut := cut_nextPiece isConstant c cs
  rw [h] at hcut
  generalize (nextPiece isConstant c cs).2 = rest at hcut
  cases hcut with
  | number hnumber => exact .number (Decimal.isNumeral_of_takeNumber? hnumber)
  | name hname =>
    have hw := isName_of_takeName? hname
    rcases nameToken_cases isConstant w rest with heq | heq | heq
    · exact heq ▸ .function hw
    · exact heq ▸ .constant hw
    · exact heq ▸ .reference hw
  | symbol hsymbol => exact isWord_of_symbolToken? hsymbol

/-- The text of a token is its spelling, in small letters if it is a function or a constant. -/
theorem text_of_nextPiece {t : Token} {w : List Char}
    (h : (nextPiece isConstant c cs).1 = .token t w) :
    t.text = if t.kind = .function ∨ t.kind = .constant then Text.lowercase (String.ofList w)
      else String.ofList w := by
  have hcut := cut_nextPiece isConstant c cs
  rw [h] at hcut
  generalize (nextPiece isConstant c cs).2 = rest at hcut
  cases hcut with
  | number => rfl
  | name =>
    rcases nameToken_cases isConstant w rest with heq | heq | heq
    all_goals rw [heq]; rfl
  | symbol hsymbol =>
    obtain ⟨-, -, -, -, htext, hconstant⟩ := symbolToken?_spec hsymbol
    rw [if_neg (not_or.2 ⟨symbolToken?_kind_ne_function hsymbol, hconstant⟩), htext,
      String.singleton_eq_ofList]

/-- Where a word comes first, a token is cut off that is at least as long. -/
theorem exists_token_of_isWord (isConstant : String → Bool) {kind : TokenKind} {w back : List Char}
    (h : IsWord kind w) (hcs : w ++ back = c :: cs) :
    ∃ t spelling, (nextPiece isConstant c cs).1 = .token t spelling ∧
      w.length ≤ spelling.length := by
  have hname : IsName w → ∃ t spelling, (nextPiece isConstant c cs).1 = .token t spelling ∧
      w.length ≤ spelling.length := by
    intro h
    obtain ⟨name, rest, htake, hle⟩ := takeName?_of_isName h back
    obtain ⟨hstart, hchars⟩ := h
    obtain ⟨rfl, -⟩ := List.cons.inj hcs
    -- What starts like a name is neither white space nor a number, so the lexer comes to names.
    obtain ⟨hgap, hdigit, hpoint⟩ := isNameStart_spec hstart
    unfold nextPiece
    rw [if_neg (by simp [hgap]), takeNumber?_eq_none hdigit hpoint, ← hcs, htake]
    exact ⟨_, _, rfl, hle⟩
  have hsymbol : ∀ d, w = [d] → d ∈ ['+', '-', '*', '/', '^', '%', '(', ')', ','] →
      ∃ t spelling, (nextPiece isConstant c cs).1 = .token t spelling ∧
        w.length ≤ spelling.length := by
    rintro d rfl hd
    obtain ⟨rfl, -⟩ := List.cons.inj hcs
    obtain ⟨t, ht⟩ := exists_symbolToken? hd
    -- All that the lexer looks for before is something else.
    obtain ⟨hgap, hdigit, hpoint, hstart, -⟩ := symbolToken?_spec ht
    unfold nextPiece
    rw [if_neg (by simp [hgap]), takeNumber?_eq_none hdigit hpoint, takeName?,
      if_neg (by simp [hstart]), ht]
    exact ⟨_, _, rfl, le_rfl⟩
  cases h with
  | number h =>
    obtain ⟨numeral, rest, htake, hle⟩ := Decimal.takeNumber?_of_isNumeral h back
    have hgap : ¬ isGap c = true := by
      intro hgap
      obtain ⟨-, -, hdigit, hpoint⟩ := isGap_spec hgap
      rw [hcs, takeNumber?_eq_none hdigit hpoint] at htake
      cases htake
    unfold nextPiece
    rw [if_neg hgap, ← hcs, htake]
    exact ⟨_, _, rfl, hle⟩
  | reference h => exact hname h
  | constant h => exact hname h
  | function h => exact hname h
  | operator h => exact hsymbol _ rfl (List.mem_append_left ['(', ')', ','] h)
  | parenthesis h =>
    exact hsymbol _ rfl (List.mem_append_right ['+', '-', '*', '/', '^', '%']
      (List.mem_append_left [','] h))
  | comma => exact hsymbol _ rfl (by decide)

/-! ### All pieces -/

/-- Lexemes start where their pieces do or behind that. -/
theorem le_start_of_mem_lexemesFrom {ps : List Piece} {l : Lexeme}
    (h : l ∈ lexemesFrom start ps) : start ≤ l.start := by
  induction ps generalizing start with
  | nil => simp [lexemesFrom] at h
  | cons p ps ih =>
    rcases mem_lexemesFrom_cons.1 h with ⟨hstart, -⟩ | h
    · exact hstart.ge
    · exact le_of_add_le_left (ih h)

/-- Every lexeme starts behind the end of those before it. -/
theorem pairwise_lexemesFrom (start : Nat) (ps : List Piece) :
    (lexemesFrom start ps).Pairwise fun l l' => l.start + l.length ≤ l'.start := by
  induction ps generalizing start with
  | nil => exact .nil
  | cons p ps ih =>
    cases p with
    | token t w => exact .cons (fun l hl => le_start_of_mem_lexemesFrom hl) (ih _)
    | gap c => exact ih _
    | unread c => exact ih _

end Lexer

/-- Whether a place belongs to a lexeme. -/
def Lexeme.covers (l : Lexeme) (i : Nat) : Bool :=
  l.start ≤ i && i < l.start + l.length

namespace Lexer

variable {isConstant : String → Bool} {c : Char} {cs : List Char} {start : Nat}

/-- A piece that is no token is a single character. -/
theorem chars_of_token?_eq_none {p : Piece} (h : p.token? = none) : ∃ d, p.chars = [d] := by
  cases p with
  | token t w => cases h
  | gap d => exact ⟨d, rfl⟩
  | unread d => exact ⟨d, rfl⟩

/-- At a place that belongs to no lexeme, no token is cut off. -/
theorem nextPiece_of_not_covered {before : List Char}
    (h : ∀ l ∈ lexemesFrom start (pieces isConstant (before ++ c :: cs)),
      l.covers (start + before.length) = false) :
    (nextPiece isConstant c cs).1.token? = none := by
  generalize htext : before ++ c :: cs = text at h
  induction text using pieces.induct isConstant generalizing start before with
  | case1 => simp at htext
  | case2 d ds ih =>
    have hchars := chars_nextPiece isConstant d ds
    rw [pieces] at h
    by_cases hlt : before.length < (nextPiece isConstant d ds).1.chars.length
    · -- The place is in the first piece, which is no token then.
      have htoken : (nextPiece isConstant d ds).1.token? = none := by
        cases hpiece : (nextPiece isConstant d ds).1 with
        | token t w =>
          have hnot := h ⟨t, start, w⟩ (mem_lexemesFrom_cons.2 (.inl ⟨rfl, hpiece⟩))
          rw [hpiece] at hlt
          have hlength : before.length < w.length := hlt
          simp [Lexeme.covers, Lexeme.length, hlength] at hnot
        | gap c => rfl
        | unread c => rfl
      obtain ⟨e, he⟩ := chars_of_token?_eq_none htoken
      rw [he, List.length_singleton, Nat.lt_one_iff, List.length_eq_zero_iff] at hlt
      subst hlt
      obtain ⟨rfl, rfl⟩ := List.cons.inj htext
      exact htoken
    · have hfront : (nextPiece isConstant d ds).1.chars <+: before :=
        List.prefix_of_prefix_length_le ⟨_, hchars⟩ ⟨_, htext⟩ (by omega)
      obtain ⟨between, rfl⟩ := hfront
      rw [← hchars, List.append_assoc] at htext
      have hlater : ∀ l ∈ lexemesFrom (start + (nextPiece isConstant d ds).1.chars.length)
            (pieces isConstant (nextPiece isConstant d ds).2),
          l.covers (start + (nextPiece isConstant d ds).1.chars.length + between.length) =
            false := by
        intro l hl
        rw [add_assoc, ← List.length_append]
        exact h l (mem_lexemesFrom_cons.2 (.inr hl))
      exact ih (List.append_cancel_left htext) hlater

/-- The characters of a text, which starts at `start`, that belong to no lexeme and are no white
space, in the order in which they stand. -/
def leftOver (ls : List Lexeme) (start : Nat) (cs : List Char) : List Char :=
  ((cs.zipIdx start).filter fun (c, i) => !ls.any (·.covers i) && !isGap c).map (·.1)

/-- What is left over of two texts is left over of each, from its place on. -/
theorem leftOver_append (ls : List Lexeme) (start : Nat) (w cs : List Char) :
    leftOver ls start (w ++ cs) = leftOver ls start w ++ leftOver ls (start + w.length) cs := by
  unfold leftOver
  rw [List.zipIdx_append, List.filter_append, List.map_append]

/-- A place belongs to the first piece, if that is a token, or to one behind it. -/
theorem any_covers_lexemesFrom_cons (p : Piece) (ps : List Piece) (i : Nat) :
    (lexemesFrom start (p :: ps)).any (·.covers i) =
      ((p.token?.isSome && (start ≤ i && i < start + p.chars.length)) ||
        (lexemesFrom (start + p.chars.length) ps).any (·.covers i)) := by
  cases p with
  | token t w => rfl
  | gap c => rfl
  | unread c => rfl

/-- No place before the first piece belongs to a lexeme. -/
theorem any_covers_lexemesFrom_of_lt {ps : List Piece} {i : Nat} (h : i < start) :
    (lexemesFrom start ps).any (·.covers i) = false := by
  rw [List.any_eq_false]
  intro l hl
  have hle := le_start_of_mem_lexemesFrom hl
  simp only [Lexeme.covers, Bool.and_eq_true, decide_eq_true_eq, not_and]
  omega

/-- What is left over of the first piece is what is left unread of it. -/
theorem leftOver_chars {p : Piece} {rest : List Char} (h : Cut isConstant c cs p rest)
    (hunread : p = .unread c → isGap c = false) (ps : List Piece) (start : Nat) :
    leftOver (lexemesFrom start (p :: ps)) start p.chars = unreadAmong [p] := by
  have hgap (d : Char) (hd : isGap d = true) (ls : List Lexeme) : leftOver ls start [d] = [] := by
    simp [leftOver, hd]
  have htoken (t : Token) (w : List Char) :
      leftOver (lexemesFrom start (.token t w :: ps)) start w = [] := by
    unfold leftOver
    rw [List.map_eq_nil_iff, List.filter_eq_nil_iff]
    rintro ⟨d, i⟩ hi
    have hcovered : start ≤ i ∧ i < start + w.length :=
      ⟨List.le_snd_of_mem_zipIdx hi, List.snd_lt_add_of_mem_zipIdx hi⟩
    simp [any_covers_lexemesFrom_cons, Piece.token?, Piece.chars, hcovered]
  cases h with
  | gap h => exact hgap c h _
  | number => exact htoken _ _
  | name => exact htoken _ _
  | symbol => exact htoken _ _
  | unread =>
    have hnone : (lexemesFrom (start + 1) ps).any (·.covers start) = false :=
      any_covers_lexemesFrom_of_lt (Nat.lt_succ_self start)
    have hboth : (lexemesFrom start (.unread c :: ps)).any (·.covers start) = false := hnone
    simp [leftOver, Piece.chars, hboth, hunread rfl, unreadAmong]

/-- What is left unread is what the lexemes leave over. -/
theorem unreadAmong_pieces (isConstant : String → Bool) (start : Nat) (cs : List Char) :
    unreadAmong (pieces isConstant cs) =
      leftOver (lexemesFrom start (pieces isConstant cs)) start cs := by
  induction cs using pieces.induct isConstant generalizing start with
  | case1 => simp [pieces, unreadAmong, leftOver]
  | case2 c cs ih =>
    have hcut := cut_nextPiece isConstant c cs
    have hgap : (nextPiece isConstant c cs).1 = .unread c → isGap c = false := by
      intro hpiece
      refine Bool.eq_false_iff.2 fun hgap => ?_
      rw [nextPiece_of_isGap hgap] at hpiece
      cases hpiece
    have hrest := ih (start + (nextPiece isConstant c cs).1.chars.length)
    have hchars := chars_nextPiece isConstant c cs
    rw [pieces]
    generalize (nextPiece isConstant c cs).1 = p at hcut hgap hrest hchars ⊢
    generalize (nextPiece isConstant c cs).2 = rest at hcut hrest hchars ⊢
    -- A token at the front covers no place behind it.
    have hbehind : leftOver (lexemesFrom start (p :: pieces isConstant rest))
        (start + p.chars.length) rest =
          leftOver (lexemesFrom (start + p.chars.length) (pieces isConstant rest))
            (start + p.chars.length) rest := by
      unfold leftOver
      refine congrArg _ (List.filter_congr fun e he => ?_)
      have hi : ¬ e.2 < start + p.chars.length := not_lt.2 (List.le_snd_of_mem_zipIdx he)
      simp [any_covers_lexemesFrom_cons, hi]
    calc unreadAmong (p :: pieces isConstant rest)
      _ = unreadAmong [p] ++ unreadAmong (pieces isConstant rest) := by
        unfold unreadAmong
        rw [← List.filterMap_append, List.singleton_append]
      _ = leftOver (lexemesFrom start (p :: pieces isConstant rest)) start (p.chars ++ rest) := by
        rw [leftOver_append, leftOver_chars hcut hgap, hrest, hbehind]
      _ = leftOver (lexemesFrom start (p :: pieces isConstant rest)) start (c :: cs) := by
        rw [hchars]

/-- White space between tokens. -/
theorem isGap_of_gap_mem {d : Char} (h : .gap d ∈ pieces isConstant cs) : isGap d = true := by
  induction cs using pieces.induct isConstant with
  | case1 => simp [pieces] at h
  | case2 c cs ih =>
    rw [pieces] at h
    rcases List.mem_cons.1 h with heq | h
    · have hcut := cut_nextPiece isConstant c cs
      rw [← heq] at hcut
      generalize (nextPiece isConstant c cs).2 = rest at hcut
      cases hcut with
      | gap h => exact h
    · exact ih h

/-- The pieces one after the other are the text. -/
theorem flatMap_chars_pieces (isConstant : String → Bool) (cs : List Char) :
    (pieces isConstant cs).flatMap Piece.chars = cs := by
  induction cs using pieces.induct isConstant with
  | case1 => simp [pieces]
  | case2 c cs ih => rw [pieces, List.flatMap_cons, ih, chars_nextPiece]

/-! ### The cut -/

/-- Whether lexemes and unread characters are a text cut by longest match. -/
structure IsCut (text : List Char) (ls : List Lexeme) (unread : List Char) : Prop where
  /-- Every lexeme has a place in the text, with at least one character. -/
  inside : ∀ l ∈ ls, 0 < l.length ∧ l.start + l.length ≤ text.length
  /-- They follow each other and do not overlap. -/
  apart : ls.Pairwise fun l l' => l.start + l.length ≤ l'.start
  /-- The spelling is what the text holds at that place. -/
  spelling : ∀ l ∈ ls, (text.drop l.start).take l.length = l.spelling
  /-- It is a word of the kind of the token. -/
  word : ∀ l ∈ ls, IsWord l.token.kind l.spelling
  /-- No word of whatever kind that starts there is longer. -/
  longest : ∀ l ∈ ls, ∀ kind w, IsWord kind w → w <+: text.drop l.start → w.length ≤ l.length
  /-- The token has the spelling as its text, in small letters if it is a function or a constant. -/
  value : ∀ l ∈ ls, l.token.text =
    if l.token.kind = .function ∨ l.token.kind = .constant then
      Text.lowercase (String.ofList l.spelling)
    else String.ofList l.spelling
  /-- Between the lexemes there is white space, or a character that no word starts with. -/
  outside : ∀ i c, text[i]? = some c → ls.any (·.covers i) = false →
    c ∈ [' ', '\t', '\n'] ∨ ∀ kind w, IsWord kind w → ¬ w <+: text.drop i
  /-- The latter are what is left unread, in the order of the text. -/
  unread_eq : unread = leftOver ls 0 text
  /-- Lexemes, white space and unread characters make up the text. -/
  rebuilt : ∃ ps : List Piece, ps.flatMap Piece.chars = text ∧ lexemesFrom 0 ps = ls ∧
    unreadAmong ps = unread ∧ ∀ c, .gap c ∈ ps → c ∈ [' ', '\t', '\n']

/-- The gaps are spaces, tabs and line breaks. -/
theorem isGap_iff : isGap c = true ↔ c ∈ [' ', '\t', '\n'] := by
  simp [isGap, or_assoc]

variable {text : List Char}

/-- What the lexer has found at the place of a lexeme. -/
theorem nextPiece_of_mem_lexemes {l : Lexeme} (h : l ∈ lexemesFrom 0 (pieces isConstant text)) :
    ∃ c after rest, text.drop l.start = c :: after ∧ l.spelling ++ rest = c :: after ∧
      (nextPiece isConstant c after).1 = .token l.token l.spelling := by
  obtain ⟨before, c, after, rfl, hstart, hpiece⟩ := exists_nextPiece_of_mem_lexemesFrom h
  have hchars := chars_nextPiece isConstant c after
  rw [hpiece] at hchars
  refine ⟨c, after, _, ?_, hchars, hpiece⟩
  rw [hstart, zero_add, List.drop_left]

/-- A lexeme has its place in the text. -/
theorem inside_of_mem_lexemes {l : Lexeme} (h : l ∈ lexemesFrom 0 (pieces isConstant text)) :
    0 < l.length ∧ l.start + l.length ≤ text.length := by
  obtain ⟨c, after, rest, hdrop, hspelling, hpiece⟩ := nextPiece_of_mem_lexemes h
  have hne := chars_nextPiece_ne_nil isConstant c after
  rw [hpiece] at hne
  have hpos : 0 < l.length := List.length_pos_iff.2 hne
  have hlength := congrArg List.length (hdrop.trans hspelling.symm)
  rw [List.length_drop, List.length_append] at hlength
  unfold Lexeme.length at hpos ⊢
  omega

/-- No word is longer than the lexeme at the place where it starts. -/
theorem length_le_of_mem_lexemes {l : Lexeme} (h : l ∈ lexemesFrom 0 (pieces isConstant text))
    {kind : TokenKind} {w : List Char} (hw : IsWord kind w) (hfront : w <+: text.drop l.start) :
    w.length ≤ l.length := by
  obtain ⟨c, after, rest, hdrop, -, hpiece⟩ := nextPiece_of_mem_lexemes h
  obtain ⟨back, hback⟩ := hdrop ▸ hfront
  obtain ⟨t, spelling, htoken, hle⟩ := exists_token_of_isWord isConstant hw hback
  obtain ⟨-, hspelling⟩ := Piece.token.inj (hpiece.symm.trans htoken)
  rwa [Lexeme.length, hspelling]

/-- No word starts at a place that belongs to no lexeme. -/
theorem not_prefix_of_not_covered {i : Nat} {c : Char} (hc : text[i]? = some c)
    (h : (lexemesFrom 0 (pieces isConstant text)).any (·.covers i) = false) {kind : TokenKind}
    {w : List Char} (hw : IsWord kind w) : ¬ w <+: text.drop i := by
  obtain ⟨hlt, hget⟩ := List.getElem?_eq_some_iff.1 hc
  have hdrop : text.drop i = c :: text.drop (i + 1) := hget ▸ List.drop_eq_getElem_cons hlt
  have hnot : ∀ l ∈ lexemesFrom 0 (pieces isConstant (text.take i ++ c :: text.drop (i + 1))),
      l.covers (0 + (text.take i).length) = false := by
    rw [← hdrop, List.take_append_drop, List.length_take_of_le hlt.le, zero_add]
    exact fun l hl => Bool.eq_false_iff.2 (List.any_eq_false.1 h l hl)
  rw [hdrop]
  rintro ⟨back, hback⟩
  obtain ⟨t, spelling, htoken, -⟩ := exists_token_of_isWord isConstant hw hback
  have hnone := nextPiece_of_not_covered hnot
  rw [htoken] at hnone
  cases hnone

/-- The lexer cuts by longest match. -/
theorem isCut_pieces (isConstant : String → Bool) (text : List Char) :
    IsCut text (lexemesFrom 0 (pieces isConstant text)) (unreadAmong (pieces isConstant text)) where
  inside l hl := inside_of_mem_lexemes hl
  apart := pairwise_lexemesFrom 0 _
  spelling l hl := by
    obtain ⟨c, after, rest, hdrop, hspelling, -⟩ := nextPiece_of_mem_lexemes hl
    rw [hdrop, ← hspelling, Lexeme.length, List.take_left]
  word l hl := by
    obtain ⟨c, after, rest, -, -, hpiece⟩ := nextPiece_of_mem_lexemes hl
    exact isWord_of_nextPiece hpiece
  longest l hl kind w hw hfront := length_le_of_mem_lexemes hl hw hfront
  value l hl := by
    obtain ⟨c, after, rest, -, -, hpiece⟩ := nextPiece_of_mem_lexemes hl
    exact text_of_nextPiece hpiece
  outside i c hc hnot := .inr fun kind w hw => not_prefix_of_not_covered hc hnot hw
  unread_eq := unreadAmong_pieces isConstant 0 text
  rebuilt := ⟨_, flatMap_chars_pieces isConstant text, rfl, rfl,
    fun c hc => isGap_iff.1 (isGap_of_gap_mem hc)⟩

end Lexer

namespace Registry

/-- Every text is cut into its lexemes by longest match. -/
theorem isCut_lexemes (r : Registry) (text : String) :
    Lexer.IsCut text.toList (r.lexemes text) (r.unreadChars text) ∧
      r.tokens text = (r.lexemes text).map (·.token) :=
  ⟨Lexer.isCut_pieces _ _, rfl⟩

end Registry

end LiveSheet
