import LiveSheet.Proofs.Delegation
import Mathlib.Data.List.Forall2

/-!
# Writing tokens back

A text that is read in full can be written again word by word with gaps between the words, functions
and constants in letters of any case, and is read as the same tokens
(`Registry.readsLike_of_respelled`).

What a word is read as is in the word itself, but for a name, which calls a function if an opening
parenthesis is the next word (`Lexer.ReadAs`). Cutting a text that is read in full gives words that
are read so (`Lexer.readAs_pieces`), and any text with these words and gaps between is cut into them
again (`Lexer.pieces_of_spaced`): a gap ends numbers and names, and is skipped on the way to a
parenthesis.
-/

namespace LiveSheet

/-! ### Letters of both cases -/

/-- What holds of the first characters one by one holds of every character below that. -/
theorem forall_ascii {p : Char → Prop} (h : ∀ n < 128, p (Char.ofNat n)) (c : Char)
    (hc : c.toNat < 128) : p c := by
  have hofNat := h c.toNat hc
  rwa [Char.ofNat_toNat] at hofNat

/-- Only characters below 128 have another case. -/
theorem toLower_of_le {c : Char} (h : 128 ≤ c.toNat) : c.toLower = c := by
  have hcapital : ¬ (c.val ≥ 'A'.val ∧ c.val ≤ 'Z'.val) := by
    rintro ⟨-, hle⟩
    have : c.toNat ≤ 90 := UInt32.le_iff_toNat_le.1 hle
    omega
  exact dif_neg hcapital

/-- What the case of a letter does not change: the characters that have one are gone through. -/
theorem toLower_invariant {α : Type} {f : Char → α}
    (h : ∀ n < 128, f (Char.ofNat n).toLower = f (Char.ofNat n)) (c : Char) :
    f c.toLower = f c := by
  by_cases hc : c.toNat < 128
  · exact forall_ascii (p := fun c => f c.toLower = f c) h c hc
  · rw [toLower_of_le (by omega)]

/-- A character is put in lower case once. -/
theorem toLower_toLower (c : Char) : c.toLower.toLower = c.toLower :=
  toLower_invariant (f := Char.toLower) (by decide) c

/-- An opening parenthesis has no other case. -/
theorem map_toLower_eq_paren_iff {w : List Char} : w.map Char.toLower = ['('] ↔ w = ['('] := by
  have hparen : ∀ c : Char, decide (c.toLower = '(') = decide (c = '(') :=
    toLower_invariant (f := fun c => decide (c = '(')) (by decide)
  constructor
  · intro h
    obtain ⟨c, cs, rfl, hc, hcs⟩ := List.map_eq_cons_iff.1 h
    obtain rfl : cs = [] := List.map_eq_nil_iff.1 hcs
    simpa [hc] using hparen c
  · rintro rfl
    rfl

namespace Text

/-- The small letters of a text without other scripts. -/
theorem lowercase_of_ascii {cs : List Char} (h : ∀ c ∈ cs, c.toNat < 128) :
    lowercase (String.ofList cs) = String.ofList (cs.map Char.toLower) := by
  have hafter : ∀ before, lowercaseAfter before cs = cs.map Char.toLower := by
    induction cs with
    | nil => exact fun _ => rfl
    | cons c cs ih =>
      obtain ⟨hc, hcs⟩ := List.forall_mem_cons.1 h
      have hdotted : (c == 'İ') = false := by
        refine beq_eq_false_iff_ne.2 ?_
        rintro rfl
        exact absurd hc (by decide)
      have hsigma : (c == 'Σ') = false := by
        refine beq_eq_false_iff_ne.2 ?_
        rintro rfl
        exact absurd hc (by decide)
      intro before
      rw [lowercaseAfter, ih hcs]
      simp [hdotted, hsigma, smallLetter, hc]
  rw [lowercase, String.toList_ofList, hafter]

end Text

namespace Lexer

open Decimal (takeNumber? EndsNumber isDigit)

variable {isConstant : String → Bool}

/-! ### Characters -/

/-- Case does not matter for the beginning of a name. -/
theorem isNameStart_toLower (c : Char) : isNameStart c.toLower = isNameStart c :=
  toLower_invariant (by decide) c

/-- Case does not matter within a name. -/
theorem isNameChar_toLower (c : Char) : isNameChar c.toLower = isNameChar c :=
  toLower_invariant (by decide) c

/-- The characters of names are below 128. -/
theorem toNat_lt_of_isNameChar {c : Char} (h : isNameChar c = true) : c.toNat < 128 := by
  have hranges : (((97 ≤ c.toNat ∧ c.toNat ≤ 122) ∨ 65 ≤ c.toNat ∧ c.toNat ≤ 90) ∨ c = '_') ∨
      48 ≤ c.toNat ∧ c.toNat ≤ 57 := by
    simpa [isNameChar, isNameStart, isDigit, Char.le_def, UInt32.le_iff_toNat_le] using h
  rcases hranges with ((h | h) | rfl) | h
  · omega
  · omega
  · decide
  · omega

/-- A character that starts a name starts no number and is no gap. -/
theorem isNameStart_spec {c : Char} (h : isNameStart c = true) :
    isGap c = false ∧ isDigit c = false ∧ c ≠ '.' :=
  forall_ascii (p := fun c => isNameStart c = true → isGap c = false ∧ isDigit c = false ∧ c ≠ '.')
    (by decide) c (toNat_lt_of_isNameChar (by simp [isNameChar, h])) h

/-- Gaps are white space, and end numbers and names. -/
theorem isGap_spec {c : Char} (h : isGap c = true) :
    Text.isBlank c = true ∧ isNameChar c = false ∧ isDigit c = false ∧ c ≠ '.' := by
  have hmem : c ∈ [' ', '\t', '\n'] := by simpa [isGap, or_assoc] using h
  exact Decimal.forall_mem_of_all
    (p := fun c => Text.isBlank c = true ∧ isNameChar c = false ∧ isDigit c = false ∧ c ≠ '.')
    (by decide) c hmem

/-- A character that is a token of its own starts nothing longer. -/
theorem symbolToken?_spec {c : Char} {t : Token} (h : symbolToken? c = some t) :
    isGap c = false ∧ isDigit c = false ∧ c ≠ '.' ∧ isNameStart c = false ∧
      t.text = String.singleton c ∧ t.kind ≠ .constant := by
  have hmem : c ∈ ['+', '-', '*', '/', '^', '%', '(', ')', ','] := by
    unfold symbolToken? isOperatorChar at h
    by_contra hnot
    simp only [List.mem_cons, List.not_mem_nil, or_false, not_or] at hnot
    simp [hnot] at h
  have hall := Decimal.forall_mem_of_all
    (p := fun c => isGap c = false ∧ isDigit c = false ∧ c ≠ '.' ∧ isNameStart c = false ∧
      ∀ t ∈ symbolToken? c, t.text = String.singleton c ∧ t.kind ≠ .constant) (by decide) c hmem
  obtain ⟨hgap, hdigit, hpoint, hname, htoken⟩ := hall
  exact ⟨hgap, hdigit, hpoint, hname, htoken t h⟩

/-! ### Words -/

/-- Whether a word can end before a text: a gap comes next, or nothing. -/
def EndsWord (rest : List Char) : Prop :=
  ∀ c ∈ rest.head?, isGap c = true

/-- A word ends where the text does. -/
theorem endsWord_nil : EndsWord [] := by simp [EndsWord]

/-- A word ends at a gap. -/
theorem endsWord_cons {c : Char} (h : isGap c = true) (cs : List Char) : EndsWord (c :: cs) := by
  simp [EndsWord, h]

/-- Where a word ends, a number does. -/
theorem EndsWord.endsNumber {rest : List Char} (h : EndsWord rest) : EndsNumber rest :=
  fun c hc => (isGap_spec (h c hc)).2.2

/-- A word that is a name from end to end. -/
theorem takeName?_self_iff {c : Char} {cs : List Char} :
    takeName? (c :: cs) = some (c :: cs, []) ↔ isNameStart c = true ∧ cs.all isNameChar = true := by
  rw [takeName?]
  by_cases hc : isNameStart c = true
  · simp [hc, List.takeWhile_eq_self_iff, List.dropWhile_eq_nil_iff]
  · simp [hc]

/-- A name that is taken from a text is taken again before any text that ends it. -/
theorem takeName?_shape {cs name rest : List Char} (h : takeName? cs = some (name, rest)) :
    ∀ back, (∀ c ∈ back.head?, isNameChar c = false) →
      takeName? (name ++ back) = some (name, back) := by
  intro back hback
  cases cs with
  | nil => simp [takeName?] at h
  | cons c cs =>
    rw [takeName?] at h
    split at h
    · next hc =>
      obtain ⟨rfl, rfl⟩ := by simpa using h
      obtain ⟨htake, hdrop⟩ := Postfix.takeWhile_append_of_all isNameChar (cs.takeWhile isNameChar)
        back (fun c hc => List.mem_takeWhile_imp hc) hback
      rw [List.cons_append, takeName?, if_pos hc, htake, hdrop]
    · cases h

/-- No number begins with anything but a digit or a point. -/
theorem takeNumber?_eq_none {c : Char} (hdigit : isDigit c = false) (hpoint : c ≠ '.')
    (cs : List Char) : takeNumber? (c :: cs) = none := by
  simp [takeNumber?, Decimal.takeFraction?, hdigit, hpoint]

/-- The token that a name is, by whether it is called and by the names of the constants. -/
def wordToken (isConstant : String → Bool) (called : Bool) (name : List Char) : Token :=
  if called then ⟨.function, Text.lowercase (String.ofList name)⟩
  else if isConstant (Text.lowercase (String.ofList name)) then
    ⟨.constant, Text.lowercase (String.ofList name)⟩
  else ⟨.reference, String.ofList name⟩

/-- What a word is read as, by whether an opening parenthesis is the next one. -/
inductive Reads (isConstant : String → Bool) (called : Bool) : List Char → Token → Prop
  | number {w : List Char} (h : takeNumber? w = some (w, [])) :
      Reads isConstant called w ⟨.number, String.ofList w⟩
  | name {w : List Char} (h : takeName? w = some (w, [])) :
      Reads isConstant called w (wordToken isConstant called w)
  | symbol {c : Char} {t : Token} (h : symbolToken? c = some t) : Reads isConstant called [c] t

/-- A token is what its spelling is read as. -/
theorem reads_of_nextPiece {c : Char} {cs w rest : List Char} {t : Token}
    (h : nextPiece isConstant c cs = (.token t w, rest)) :
    Reads isConstant (parenFollows rest) w t := by
  have hcut : Cut isConstant c cs (.token t w) rest := by
    simpa [h] using cut_nextPiece isConstant c cs
  cases hcut with
  | number hnumber =>
    have hself := (Decimal.takeNumber?_shape hnumber).2 [] Decimal.endsNumber_nil
    rw [List.append_nil] at hself
    exact .number hself
  | name hname =>
    have hself := takeName?_shape hname [] (by simp)
    rw [List.append_nil] at hself
    exact .name hself
  | symbol hsymbol => exact .symbol hsymbol

/-- A word that a gap ends is cut off as what it is read as. -/
theorem nextPiece_of_reads {w rest : List Char} {t : Token} (hrest : EndsWord rest)
    (h : Reads isConstant (parenFollows rest) w t) :
    ∃ c cs, w = c :: cs ∧ nextPiece isConstant c (cs ++ rest) = (.token t w, rest) := by
  cases h with
  | number h =>
    obtain ⟨c, cs, rfl⟩ := List.exists_cons_of_ne_nil (Decimal.takeNumber?_ne_nil h)
    obtain ⟨hchars, hback⟩ := Decimal.takeNumber?_shape h
    have hgap : ¬ isGap c = true := by
      intro hgap
      obtain ⟨-, -, hdigit, hpoint⟩ := isGap_spec hgap
      rcases hchars c (List.mem_cons_self ..) with hc | hc
      · rw [hdigit] at hc
        cases hc
      · exact hpoint hc
    -- Neither a digit nor a point is a gap, so the number does not go on.
    have hnumber := hback rest hrest.endsNumber
    rw [List.cons_append] at hnumber
    refine ⟨c, cs, rfl, ?_⟩
    rw [nextPiece, if_neg hgap, hnumber]
  | name h =>
    obtain ⟨c, cs, rfl⟩ := List.exists_cons_of_ne_nil (takeName?_ne_nil h)
    obtain ⟨hstart, -⟩ := takeName?_self_iff.1 h
    obtain ⟨hgap, hdigit, hpoint⟩ := isNameStart_spec hstart
    -- No character of a name is a gap either.
    have hname := takeName?_shape h rest fun c hc => (isGap_spec (hrest c hc)).2.1
    rw [List.cons_append] at hname
    refine ⟨c, cs, rfl, ?_⟩
    rw [nextPiece, if_neg (by simp [hgap]), takeNumber?_eq_none hdigit hpoint, hname]
    rfl
  | symbol h =>
    obtain ⟨hgap, hdigit, hpoint, hname, -⟩ := symbolToken?_spec h
    refine ⟨_, [], rfl, ?_⟩
    rw [nextPiece, if_neg (by simp [hgap]), takeNumber?_eq_none hdigit hpoint, takeName?,
      if_neg (by simp [hname]), h]
    rfl

/-- A word comes next if it is a parenthesis and only then a parenthesis does. -/
theorem parenFollows_of_token {c : Char} {cs w rest : List Char} {t : Token}
    (h : nextPiece isConstant c cs = (.token t w, rest)) :
    parenFollows (c :: cs) = decide (w = ['(']) := by
  have hblank : ¬ Text.isBlank c = true := by
    intro hblank
    have hnone := (nextPiece_of_isBlank isConstant hblank cs).1
    rw [h] at hnone
    cases hnone
  have hparen : parenFollows (c :: cs) = (c == '(') := by simp [parenFollows, hblank]
  rw [hparen]
  by_cases hc : c = '('
  · subst hc
    rw [nextPiece_open] at h
    obtain ⟨hpiece, -⟩ := Prod.mk.inj h
    obtain ⟨-, rfl⟩ := Piece.token.inj hpiece
    rfl
  · have happend : w ++ rest = c :: cs := by
      have hchars := chars_nextPiece isConstant c cs
      rwa [h] at hchars
    have hw : w ≠ ['('] := by
      rintro rfl
      exact hc (List.cons.inj happend).1.symm
    simp [hc, hw]

/-! ### Texts -/

/-- Whether the first word is an opening parenthesis. -/
def opens : List (List Char) → Bool
  | [] => false
  | w :: _ => w = ['(']

/-- What words are read as, one after the other. -/
inductive ReadAs (isConstant : String → Bool) : List (List Char) → List Token → Prop
  | nil : ReadAs isConstant [] []
  | cons {w : List Char} {words : List (List Char)} {t : Token} {ts : List Token}
      (h : Reads isConstant (opens words) w t) (hrest : ReadAs isConstant words ts) :
      ReadAs isConstant (w :: words) (t :: ts)

/-- Words one after the other in a text, with gaps between them and perhaps before and behind. -/
inductive Spaced : List (List Char) → List Char → Prop
  | nil : Spaced [] []
  | gap {c : Char} {words : List (List Char)} {cs : List Char} (h : isGap c = true)
      (hrest : Spaced words cs) : Spaced words (c :: cs)
  | word {w : List Char} {words : List (List Char)} {cs : List Char} (h : EndsWord cs)
      (hrest : Spaced words cs) : Spaced (w :: words) (w ++ cs)

/-- A gap is a piece of its own. -/
theorem nextPiece_of_isGap {c : Char} (h : isGap c = true) (cs : List Char) :
    nextPiece isConstant c cs = (.gap c, cs) :=
  if_pos h

/-- Gaps are skipped in looking for a parenthesis. -/
theorem parenFollows_of_isGap {c : Char} (h : isGap c = true) (cs : List Char) :
    parenFollows (c :: cs) = parenFollows cs := by
  simp [parenFollows, (isGap_spec h).1]

/-- The spellings of the tokens of a text that is read in full are read as these tokens. -/
theorem readAs_pieces {cs : List Char} (hunread : unreadAmong (pieces isConstant cs) = [])
    (start : Nat) :
    ReadAs isConstant ((lexemesFrom start (pieces isConstant cs)).map (·.spelling))
        ((lexemesFrom start (pieces isConstant cs)).map (·.token)) ∧
      parenFollows cs = opens ((lexemesFrom start (pieces isConstant cs)).map (·.spelling)) := by
  induction cs using pieces.induct isConstant generalizing start with
  | case1 =>
    rw [pieces]
    exact ⟨.nil, rfl⟩
  | case2 c cs ih =>
    rw [pieces] at hunread ⊢
    rcases hnext : nextPiece isConstant c cs with ⟨p, rest⟩
    rw [hnext] at ih hunread
    cases p with
    | token t w =>
      -- The look-ahead behind a name sees the next word, since there are only gaps before it.
      obtain ⟨hread, hparen⟩ := ih hunread (start + w.length)
      have hword := reads_of_nextPiece hnext
      rw [hparen] at hword
      refine ⟨.cons hword hread, ?_⟩
      rw [parenFollows_of_token hnext]
      rfl
    | gap d =>
      have hcut : Cut isConstant c cs (.gap d) rest := by
        simpa [hnext] using cut_nextPiece isConstant c cs
      cases hcut with
      | gap hgap =>
        rw [parenFollows_of_isGap hgap]
        exact ih hunread _
    | unread d => cases hunread

/-- A text with gaps between words is cut into them. -/
theorem pieces_of_spaced {words : List (List Char)} {cs : List Char} {ts : List Token}
    (hspaced : Spaced words cs) (hread : ReadAs isConstant words ts) :
    (pieces isConstant cs).filterMap Piece.token? = ts ∧
      unreadAmong (pieces isConstant cs) = [] ∧ parenFollows cs = opens words := by
  induction hspaced generalizing ts with
  | nil =>
    cases hread
    rw [pieces]
    exact ⟨rfl, rfl, rfl⟩
  | gap h hrest ih =>
    rw [pieces, nextPiece_of_isGap h, parenFollows_of_isGap h]
    exact ih hread
  | word hends hrest ih =>
    cases hread with
    | cons hword hread =>
      obtain ⟨htokens, hunread, hparen⟩ := ih hread
      rw [← hparen] at hword
      obtain ⟨c, cs, rfl, hnext⟩ := nextPiece_of_reads hends hword
      rw [List.cons_append, pieces, hnext, parenFollows_of_token hnext]
      exact ⟨congrArg (_ :: ·) htokens, hunread, rfl⟩

/-- Words with a blank before each. -/
theorem spaced_flatMap (words : List (List Char)) : Spaced words (words.flatMap (' ' :: ·)) := by
  induction words with
  | nil => exact .nil
  | cons w words ih =>
    have hends : EndsWord (words.flatMap (' ' :: ·)) := by
      cases words with
      | nil => exact endsWord_nil
      | cons w' words => exact endsWord_cons rfl _
    rw [List.flatMap_cons, List.cons_append]
    exact .gap rfl (.word hends ih)

/-- Words are read in one way. -/
theorem ReadAs.unique {words : List (List Char)} {ts ts' : List Token}
    (h : ReadAs isConstant words ts) (h' : ReadAs isConstant words ts') : ts = ts' :=
  (pieces_of_spaced (spaced_flatMap words) h).1.symm.trans
    (pieces_of_spaced (spaced_flatMap words) h').1

end Lexer

/-! ### Other spellings -/

/-- How the token of a text can be written again: as it was, and a function or a constant in letters
of any case. -/
def Lexeme.Respells (l : Lexeme) (w : List Char) : Prop :=
  w = l.spelling ∨
    (l.token.kind = .function ∨ l.token.kind = .constant) ∧
      w.map Char.toLower = l.spelling.map Char.toLower

/-- Whether a word respells a lexeme is seen from the two. -/
instance (l : Lexeme) (w : List Char) : Decidable (l.Respells w) :=
  inferInstanceAs (Decidable (_ ∨ _))

namespace Lexer

/-- A name is one in letters of any case. -/
theorem takeName?_of_toLower {w w' : List Char} (hcase : w.map Char.toLower = w'.map Char.toLower)
    (h : takeName? w' = some (w', [])) : takeName? w = some (w, []) := by
  obtain ⟨c', cs', rfl⟩ := List.exists_cons_of_ne_nil (takeName?_ne_nil h)
  obtain ⟨c, cs, rfl, hc, hcs⟩ := List.map_eq_cons_iff.1 hcase
  obtain ⟨hstart, hchars⟩ := takeName?_self_iff.1 h
  refine takeName?_self_iff.2 ⟨?_, ?_⟩
  · rw [← isNameStart_toLower, hc, isNameStart_toLower, hstart]
  · have hall : ∀ ds : List Char, ds.all isNameChar = (ds.map Char.toLower).all isNameChar := by
      intro ds
      simp [List.all_map, Function.comp_def, isNameChar_toLower]
    rw [hall, hcs, ← hall, hchars]

/-- The small letters of a name. -/
theorem lowercase_of_takeName? {w : List Char} (h : takeName? w = some (w, [])) :
    Text.lowercase (String.ofList w) = String.ofList (w.map Char.toLower) := by
  refine Text.lowercase_of_ascii fun c hc => toNat_lt_of_isNameChar ?_
  obtain ⟨c', cs', rfl⟩ := List.exists_cons_of_ne_nil (takeName?_ne_nil h)
  obtain ⟨hstart, hchars⟩ := takeName?_self_iff.1 h
  rcases List.mem_cons.1 hc with rfl | hc
  · simp [isNameChar, hstart]
  · exact List.all_eq_true.1 hchars c hc

/-- What a token is spelled by otherwise is read as the same token. -/
theorem Reads.respelled {called : Bool} {l : Lexeme} {w : List Char}
    (hread : Reads isConstant called l.spelling l.token) (h : l.Respells w) :
    Reads isConstant called w l.token := by
  rcases h with rfl | ⟨hkind, hcase⟩
  · exact hread
  · obtain ⟨token, start, spelling⟩ := l
    dsimp only at *
    cases hread with
    | number h => simp at hkind
    | name h =>
      have hname := takeName?_of_toLower hcase h
      have hlower : Text.lowercase (String.ofList w) = Text.lowercase (String.ofList spelling) := by
        rw [lowercase_of_takeName? hname, lowercase_of_takeName? h, hcase]
      have htoken : wordToken isConstant called spelling = wordToken isConstant called w := by
        unfold wordToken at hkind ⊢
        rw [hlower]
        split
        · rfl
        · next hcalled =>
          split
          · rfl
          · next hconstant => simp [hcalled, hconstant] at hkind
      rw [htoken]
      exact .name hname
    | symbol h =>
      obtain ⟨-, -, -, -, -, hconstant⟩ := symbolToken?_spec h
      exact absurd hkind (not_or.2 ⟨symbolToken?_kind_ne_function h, hconstant⟩)

/-- A parenthesis is spelled in one way. -/
theorem opens_respelled {ls : List Lexeme} {words : List (List Char)}
    (h : List.Forall₂ Lexeme.Respells ls words) : opens words = opens (ls.map (·.spelling)) := by
  cases h with
  | nil => rfl
  | @cons l w _ _ h _ =>
    rcases h with rfl | ⟨-, hcase⟩
    · rfl
    · have hiff : w = ['('] ↔ l.spelling = ['('] := by
        rw [← map_toLower_eq_paren_iff, hcase, map_toLower_eq_paren_iff]
      exact decide_eq_decide.2 hiff

/-- Words that tokens are spelled by otherwise are read as the same tokens. -/
theorem ReadAs.respelled {ls : List Lexeme} {words : List (List Char)}
    (h : List.Forall₂ Lexeme.Respells ls words)
    (hread : ReadAs isConstant (ls.map (·.spelling)) (ls.map (·.token))) :
    ReadAs isConstant words (ls.map (·.token)) := by
  induction h with
  | nil => exact hread
  | cons h hrest ih =>
    cases hread with
    | cons hword hread =>
      rw [← opens_respelled hrest] at hword
      exact .cons (hword.respelled h) (ih hread)

/-- The text of a token spells it. -/
theorem Reads.respells_text {called : Bool} {l : Lexeme}
    (hread : Reads isConstant called l.spelling l.token) : l.Respells l.token.text.toList := by
  obtain ⟨token, start, spelling⟩ := l
  dsimp only at *
  cases hread with
  | number h => exact .inl String.toList_ofList
  | name h =>
    have hlower : (Text.lowercase (String.ofList spelling)).toList.map Char.toLower =
        spelling.map Char.toLower := by
      rw [lowercase_of_takeName? h, String.toList_ofList, List.map_map]
      exact List.map_congr_left fun c _ => toLower_toLower c
    unfold wordToken
    split
    · exact .inr ⟨.inl rfl, hlower⟩
    · split
      · exact .inr ⟨.inr rfl, hlower⟩
      · exact .inl String.toList_ofList
  | symbol h =>
    obtain ⟨-, -, -, -, htext, -⟩ := symbolToken?_spec h
    refine .inl ?_
    rw [htext, String.toList_singleton]

/-- The texts of tokens spell them. -/
theorem ReadAs.respells_text {ls : List Lexeme}
    (hread : ReadAs isConstant (ls.map (·.spelling)) (ls.map (·.token))) :
    List.Forall₂ Lexeme.Respells ls (ls.map fun l => l.token.text.toList) := by
  induction ls with
  | nil => exact .nil
  | cons l ls ih =>
    cases hread with
    | cons hword hread => exact .cons hword.respells_text (ih hread)

end Lexer

namespace Registry

variable {r : Registry} {text other : String}

/-! ### Evaluation -/

/-- Whether another text is read in full and as the same tokens, and comes to the same results by
whatever evaluators, with whatever calculus. -/
structure ReadsLike (r : Registry) (text other : String) : Prop where
  unread : r.unreadChars other = []
  tokens : r.tokens other = r.tokens text
  result : ∀ (α : Type) (k : Calculus α) line scope,
    k.evaluateSource r line (.text other) scope = k.evaluateSource r line (.text text) scope

/-- A number that a calculus comes to is that of the tokens. -/
theorem evaluateSourceExact_of_tokens {α : Type} {k : Calculus α} {scope : Scope} {x : Float}
    (hother : r.unreadChars other = []) (htokens : r.tokens other = r.tokens text)
    (h : k.evaluateSourceExact r (.text text) scope = .ok x) :
    k.evaluateSourceExact r (.text other) scope = .ok x := by
  obtain ⟨e, w, htree, hvalue⟩ := Calculus.evaluateSourceExact_ok_iff.1 h
  obtain ⟨-, hremainder, hparse⟩ := readTree_ok_iff.1 htree
  have htree' : r.readTree other = .ok e := by
    rw [readTree_ok_iff, htokens]
    exact ⟨hother, hremainder, hparse⟩
  exact Calculus.evaluateSourceExact_ok_iff.2 ⟨e, w, htree', hvalue⟩

/-- Texts that are read in full and as the same tokens come to the same results. -/
theorem readsLike_of_tokens (hread : r.unreadChars text = []) (hother : r.unreadChars other = [])
    (htokens : r.tokens other = r.tokens text) : r.ReadsLike text other := by
  refine ⟨hother, htokens, fun α k line scope => ?_⟩
  change k.evaluateInLine r line (.text other) scope = k.evaluateInLine r line (.text text) scope
  induction line with
  | nil => rfl
  | cons evaluator line ih =>
    cases evaluator with
    | absent => exact ih
    | stack => exact congrArg (r.evaluate · scope) htokens
    | tree =>
      cases htext : k.evaluateSourceExact r (.text text) scope with
      | ok x =>
        have hexact := evaluateSourceExact_of_tokens hother htokens htext
        rw [Calculus.evaluateInLine_of_ok line hexact, Calculus.evaluateInLine_of_ok line htext]
      | error refusal =>
        -- The other text is refused as well, though a refusal may name it.
        cases hexact : k.evaluateSourceExact r (.text other) scope with
        | ok x =>
          rw [evaluateSourceExact_of_tokens hread htokens.symm hexact] at htext
          cases htext
        | error refusal' =>
          rw [Calculus.evaluateInLine_of_error line hexact,
            Calculus.evaluateInLine_of_error line htext]
          exact ih

/-- A text that is read in full can be written back: its tokens as they were spelled or by what they
say, functions and constants in letters of any case, with any gaps between them, are read as the
same tokens. So neither the gaps of a text nor the case of these letters changes anything about
it. -/
theorem readsLike_of_respelled (r : Registry) (text : String) (hread : r.unreadChars text = []) :
    (∀ words other, List.Forall₂ Lexeme.Respells (r.lexemes text) words →
        Lexer.Spaced words other.toList → r.ReadsLike text other) ∧
      List.Forall₂ Lexeme.Respells (r.lexemes text) ((r.lexemes text).map (·.spelling)) ∧
      List.Forall₂ Lexeme.Respells (r.lexemes text) ((r.tokens text).map (·.text.toList)) ∧
      ∀ other, r.unreadChars other = [] →
        List.Forall₂ Lexeme.Respells (r.lexemes text) ((r.lexemes other).map (·.spelling)) →
        r.ReadsLike text other := by
  have hwords : ∀ s, r.unreadChars s = [] →
      Lexer.ReadAs (fun name => (r.constants.get? name).isSome) ((r.lexemes s).map (·.spelling))
        (r.tokens s) := fun s hs => (Lexer.readAs_pieces hs 0).1
  refine ⟨fun words other hwritten hspaced => ?_, ?_, ?_, fun other hother hwritten => ?_⟩
  · have hread' := (hwords text hread).respelled hwritten
    obtain ⟨htokens, hunread, -⟩ := Lexer.pieces_of_spaced hspaced hread'
    have hother : r.tokens other = r.tokens text := (Lexer.lexemesFrom_token 0 _).trans htokens
    exact readsLike_of_tokens hread hunread hother
  · exact List.forall₂_map_right_iff.2 (List.forall₂_same.2 fun l _ => .inl rfl)
  · have htexts := (hwords text hread).respells_text
    rwa [tokens, Lexer.tokens, List.map_map]
  · -- The words of the other text are read as its own tokens and as those of this text.
    have hread' := (hwords text hread).respelled hwritten
    exact readsLike_of_tokens hread hother ((hwords other hother).unique hread')

/-- The root keeps its argument and the constant its value when blanks, a tab and a line end come
between the words and the letters change. -/
theorem readsLike_rootOfPi :
    standard.unreadChars "2*SQRT(Pi)" = [] ∧
      standard.ReadsLike "2*SQRT(Pi)" "2 * Sqrt\n(\tpI ) " := by
  have hread : standard.unreadChars "2*SQRT(Pi)" = [] := by decide +kernel
  have hwritten : List.Forall₂ Lexeme.Respells (standard.lexemes "2*SQRT(Pi)")
      [['2'], ['*'], "Sqrt".toList, ['('], "pI".toList, [')']] := by
    decide +kernel
  have hspaced : Lexer.Spaced [['2'], ['*'], "Sqrt".toList, ['('], "pI".toList, [')']]
      "2 * Sqrt\n(\tpI ) ".toList :=
    .word (Lexer.endsWord_cons rfl _) <| .gap rfl <|
    .word (Lexer.endsWord_cons rfl _) <| .gap rfl <|
    .word (Lexer.endsWord_cons rfl _) <| .gap rfl <|
    .word (Lexer.endsWord_cons rfl _) <| .gap rfl <|
    .word (Lexer.endsWord_cons rfl _) <| .gap rfl <|
    .word (Lexer.endsWord_cons rfl _) <| .gap rfl .nil
  exact ⟨hread, (readsLike_of_respelled standard _ hread).1 _ _ hwritten hspaced⟩

end Registry

end LiveSheet
