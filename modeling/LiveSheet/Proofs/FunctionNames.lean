import LiveSheet.Proofs.Grammar
import LiveSheet.Proofs.LongestMatch

/-!
# Names of functions stay names of functions

The lexer takes a name for a function if an opening parenthesis follows it, behind white space of
any kind. None of this white space starts a token, so that the parenthesis is the next token. A name
that is no function may stand before a parenthesis too, but then some other character stands between
them, one that is left unread.

So where the parser comes upon the name of a function, it finds a call. It never takes such a name
for a reference, not even where it repairs what it reads: the calls of the tree are the functions
among the tokens that it has read, in their order (`KeepsNames`, `Expr.Parses.keepsNames`).
-/

namespace LiveSheet

/-! ### Functions and their parentheses -/

/-- Where calls are open, the parenthesis of a function is the next token. -/
theorem Token.getElem?_succ_of_callsOpen {ts : List Token} (h : callsOpen ts = true) {i : Nat}
    {t : Token} (ht : ts[i]? = some t) (hkind : t.kind = .function) :
    ts[i + 1]? = some .openParen := by
  induction ts generalizing i with
  | nil => simp at ht
  | cons u us ih =>
    cases i with
    | zero =>
      obtain rfl : u = t := by simpa using ht
      obtain ⟨vs, rfl⟩ := Expr.exists_open_of_callsOpen hkind h
      rfl
    | succ i => exact ih (Expr.callsOpen_tail h) ht

namespace Lexer

variable {isConstant : String → Bool} {text : List Char} {l l' : Lexeme}

/-- No parenthesis follows a name that is no function. -/
theorem not_parenFollows_of_nextPiece {c : Char} {cs spelling : List Char} {t : Token}
    (h : (nextPiece isConstant c cs).1 = .token t spelling)
    (hkind : t.kind = .constant ∨ t.kind = .reference) :
    parenFollows (nextPiece isConstant c cs).2 = false := by
  have hcut := cut_nextPiece isConstant c cs
  rw [h] at hcut
  generalize (nextPiece isConstant c cs).2 = rest at hcut ⊢
  cases hcut with
  | number => simp at hkind
  | name =>
    by_contra hfollows
    unfold nameToken at hkind
    rw [if_pos (by simpa using hfollows)] at hkind
    simp at hkind
  | symbol hsymbol =>
    obtain ⟨-, -, -, -, -, hconstant⟩ := symbolToken?_spec hsymbol
    exact absurd hkind (not_or.2 ⟨hconstant, (symbolToken?_kind hsymbol).2⟩)

/-- A parenthesis behind nothing but white space follows. -/
theorem parenFollows_drop {n k : Nat} {back : List Char} (hopen : text.drop k = '(' :: back)
    (hle : n ≤ k)
    (hblank : ∀ j c, n ≤ j → j < k → text[j]? = some c → Text.isBlank c = true) :
    parenFollows (text.drop n) = true := by
  have hsplit : text.drop n = (text.drop n).take (k - n) ++ '(' :: back := by
    have hdrop : (text.drop n).drop (k - n) = '(' :: back := by
      rw [List.drop_drop, Nat.add_sub_cancel' hle, hopen]
    rw [← hdrop, List.take_append_drop]
  have hblanks : ∀ d ∈ (text.drop n).take (k - n), Text.isBlank d = true := by
    intro d hd
    obtain ⟨i, hi, hget⟩ := List.mem_take_iff_getElem.1 hd
    rw [List.getElem_drop] at hget
    exact hblank (n + i) d (by omega) (by omega) (List.getElem?_eq_some_iff.2 ⟨_, hget⟩)
  unfold parenFollows
  rw [hsplit, List.dropWhile_append_of_pos hblanks, List.dropWhile_cons_of_neg (by decide)]
  rfl

/-- What the lexer goes on with behind a lexeme. -/
theorem nextPiece_rest_of_mem_lexemes (h : l ∈ lexemesFrom 0 (pieces isConstant text)) :
    ∃ c after, (nextPiece isConstant c after).1 = .token l.token l.spelling ∧
      (nextPiece isConstant c after).2 = text.drop (l.start + l.length) := by
  obtain ⟨c, after, rest, hdrop, -, hpiece⟩ := nextPiece_of_mem_lexemes h
  have hchars := chars_nextPiece isConstant c after
  rw [hpiece, ← hdrop] at hchars
  refine ⟨c, after, hpiece, ?_⟩
  rw [← List.drop_drop, ← hchars]
  exact (List.drop_left).symm

/-- The parenthesis of a lexeme is in the text. -/
theorem drop_start_of_openParen (h : l ∈ lexemesFrom 0 (pieces isConstant text))
    (hopen : l.token = .openParen) : ∃ rest, text.drop l.start = '(' :: rest := by
  obtain ⟨c, after, rest, hdrop, hspelling, hpiece⟩ := nextPiece_of_mem_lexemes h
  have htext := text_of_nextPiece hpiece
  rw [hopen, if_neg (by decide)] at htext
  have hparen : l.spelling = ['('] := by
    rw [← String.toList_ofList (l := l.spelling), ← htext]
    rfl
  refine ⟨rest, ?_⟩
  rw [hdrop, ← hspelling, hparen]
  rfl

/-- Between a name that is no function and a parenthesis that comes later there is a character that
is no white space. -/
theorem exists_not_blank (hl : l ∈ lexemesFrom 0 (pieces isConstant text))
    (hkind : l.token.kind = .constant ∨ l.token.kind = .reference)
    (hl' : l' ∈ lexemesFrom 0 (pieces isConstant text)) (hopen : l'.token = .openParen)
    (hle : l.start + l.length ≤ l'.start) :
    ∃ j c, l.start + l.length ≤ j ∧ j < l'.start ∧ text[j]? = some c ∧ Text.isBlank c = false := by
  obtain ⟨c, after, hpiece, hrest⟩ := nextPiece_rest_of_mem_lexemes hl
  obtain ⟨back, hback⟩ := drop_start_of_openParen hl' hopen
  have hfollows := not_parenFollows_of_nextPiece hpiece hkind
  by_contra hnone
  -- With nothing but white space between them, the name would be a function.
  have hblank : ∀ j c, l.start + l.length ≤ j → j < l'.start → text[j]? = some c →
      Text.isBlank c = true := by
    intro j d hj hj' hd
    by_contra hnot
    exact hnone ⟨j, d, hj, hj', hd, Bool.eq_false_iff.2 hnot⟩
  rw [hrest, parenFollows_drop hback hle hblank] at hfollows
  cases hfollows

end Lexer

/-! ### Calls and functions -/

open scoped List in
/-- Whether the names among the tokens that are read are kept where others are written for them: the
functions one by one, and as references no more than what is read as something else. -/
structure KeepsNames (read written : List Token) : Prop where
  functions : written.filter (·.kind = .function) = read.filter (·.kind = .function)
  references : (written.filter (·.kind = .reference)).map (·.text) <+
    (read.filter (·.kind ≠ .function)).map (·.text)

namespace KeepsNames

/-- Tokens that are written as they are read. -/
theorem refl (ts : List Token) : KeepsNames ts ts where
  functions := rfl
  references := by
    refine List.Sublist.map _ (List.monotone_filter_right ts fun t ht => ?_)
    simp only [decide_eq_true_eq] at ht
    simp [ht]

/-- Names are kept in two parts if they are kept in each. -/
theorem append {ts us ts' us' : List Token} (h : KeepsNames ts ts') (h' : KeepsNames us us') :
    KeepsNames (ts ++ us) (ts' ++ us') where
  functions := by rw [List.filter_append, List.filter_append, h.functions, h'.functions]
  references := by
    rw [List.filter_append, List.filter_append, List.map_append, List.map_append]
    exact h.references.append h'.references

/-- A token in front keeps the names behind it. -/
theorem cons {ts us : List Token} (t : Token) (h : KeepsNames ts us) :
    KeepsNames (t :: ts) (t :: us) :=
  (refl [t]).append h

/-- A token that is no name may be written where nothing is read. -/
theorem added {t : Token} (hfunction : t.kind ≠ .function) (hreference : t.kind ≠ .reference) :
    KeepsNames [] [t] where
  functions := by simp [hfunction]
  references := by simp [hreference]

/-- A token that is no function may be written as a reference. -/
theorem renamed {t : Token} (hfunction : t.kind ≠ .function) :
    KeepsNames [t] [⟨.reference, t.text⟩] where
  functions := by simp [hfunction]
  references := by simp [hfunction]

/-- A comma may be written for any other. -/
theorem comma {t : Token} (h : t.kind = .comma) : KeepsNames [t] [⟨.comma, ","⟩] where
  functions := by simp [h]
  references := by simp

end KeepsNames

namespace Expr

/-- Whether the tokens are those of what a part of the parser comes to; behind a tail they go on
from the tokens of the expression before it. -/
def Part.Writes : Part → List Token → Prop
  | .sum e, ts | .product e, ts | .power e, ts | .factor e, ts => e.tokens = ts
  | .sumTail left e, ts | .productTail left e, ts => e.tokens = left.tokens ++ ts
  | .arguments es, ts => tokensOfArguments es = ts
  | .argumentsTail es, ts => tokensBehind es = ts

/-- What is read where a parenthesis closes keeps the names. -/
theorem Closes.keepsNames {reading : Reading} {ts rest : List Token} (h : Closes reading ts rest) :
    ∃ read, ts = read ++ rest ∧ KeepsNames read [.closeParen] := by
  cases h with
  | closed => exact ⟨[.closeParen], rfl, .refl _⟩
  | missing => exact ⟨[], rfl, .added (by decide) (by decide)⟩

/-- Whatever a part of the parser reads, it keeps the names, if calls are open. -/
theorem Parses.keepsNames {reading : Reading} {part : Part} {ts rest : List Token}
    (h : Parses reading part ts rest) (hcalls : Token.callsOpen ts = true) :
    ∃ read written, ts = read ++ rest ∧ part.Writes written ∧ KeepsNames read written := by
  induction h with
  | sum hfirst htail ihfirst ihtail | product hfirst htail ihfirst ihtail =>
    obtain ⟨read, written, rfl, hwrites, hkeeps⟩ := ihfirst hcalls
    obtain ⟨read', written', rfl, hwrites', hkeeps'⟩ := ihtail (callsOpen_of_append hcalls)
    refine ⟨read ++ read', written ++ written', (List.append_assoc ..).symm, ?_,
      hkeeps.append hkeeps'⟩
    simp only [Part.Writes] at hwrites hwrites' ⊢
    rw [hwrites', hwrites]
  | sumEnd | productEnd => exact ⟨[], [], rfl, (List.append_nil _).symm, .refl _⟩
  | addition ht hright htail ihright ihtail | multiplication ht hright htail ihright ihtail =>
    obtain ⟨symbol, -, rfl⟩ := exists_of_isOperatorAmong ht
    obtain ⟨read, written, rfl, hwrites, hkeeps⟩ := ihright (callsOpen_tail hcalls)
    obtain ⟨read', written', rfl, hwrites', hkeeps'⟩ :=
      ihtail (callsOpen_of_append (callsOpen_tail hcalls))
    refine ⟨⟨.operator, symbol⟩ :: (read ++ read'), ⟨.operator, symbol⟩ :: (written ++ written'),
      by simp, ?_, (hkeeps.append hkeeps').cons _⟩
    simp only [Part.Writes, tokens] at hwrites hwrites' ⊢
    simp [hwrites', hwrites]
  | base hbase h ih => exact ih hcalls
  | exponentiation hbase ht hexponent ihbase ihexponent =>
    obtain ⟨symbol, hsymbol, rfl⟩ := exists_of_isOperatorAmong ht
    obtain rfl : symbol = "^" := List.mem_singleton.1 hsymbol
    obtain ⟨read, written, rfl, hwrites, hkeeps⟩ := ihbase hcalls
    obtain ⟨read', written', rfl, hwrites', hkeeps'⟩ :=
      ihexponent (callsOpen_tail (callsOpen_of_append hcalls))
    refine ⟨read ++ ⟨.operator, "^"⟩ :: read', written ++ ⟨.operator, "^"⟩ :: written',
      by simp, ?_, hkeeps.append (hkeeps'.cons _)⟩
    simp only [Part.Writes] at hwrites hwrites' ⊢
    rw [tokens, hwrites, hwrites']
  | number text us => exact ⟨[_], _, rfl, rfl, .refl _⟩
  | reference name us => exact ⟨[_], _, rfl, rfl, .refl _⟩
  | constant name us => exact ⟨[_], _, rfl, rfl, .refl _⟩
  | negation ht h ih =>
    obtain ⟨symbol, hsymbol, rfl⟩ := exists_of_isOperatorAmong ht
    obtain rfl : symbol = "-" := List.mem_singleton.1 hsymbol
    obtain ⟨read, written, rfl, hwrites, hkeeps⟩ := ih (callsOpen_tail hcalls)
    refine ⟨⟨.operator, "-"⟩ :: read, ⟨.operator, "-"⟩ :: written, rfl, ?_, hkeeps.cons _⟩
    simp only [Part.Writes] at hwrites ⊢
    rw [tokens, hwrites]
  | group hinner hclose ih =>
    obtain ⟨read, written, rfl, hwrites, hkeeps⟩ := ih (callsOpen_tail hcalls)
    obtain ⟨closing, rfl, hclosing⟩ := hclose.keepsNames
    refine ⟨.openParen :: (read ++ closing), .openParen :: (written ++ [.closeParen]), by simp, ?_,
      (hkeeps.append hclosing).cons _⟩
    simp only [Part.Writes] at hwrites ⊢
    rw [tokens, hwrites]
  | @call _ name _ _ _ _ hargs hclose ih =>
    obtain ⟨read, written, rfl, hwrites, hkeeps⟩ := ih (callsOpen_tail (callsOpen_tail hcalls))
    obtain ⟨closing, rfl, hclosing⟩ := hclose.keepsNames
    refine ⟨⟨.function, name⟩ :: .openParen :: (read ++ closing),
      ⟨.function, name⟩ :: .openParen :: (written ++ [.closeParen]), by simp, ?_,
      ((hkeeps.append hclosing).cons _).cons _⟩
    simp only [Part.Writes] at hwrites ⊢
    rw [tokens, hwrites]
  | name h =>
    -- Where calls are open, this rule never applies.
    obtain ⟨vs, rfl⟩ := exists_open_of_callsOpen rfl hcalls
    exact absurd rfl (h _ rfl)
  | missing => exact ⟨[], _, rfl, rfl, .added (by decide) (by decide)⟩
  | @stray kind _ _ hkind =>
    have hfunction : kind ≠ .function := by
      rintro rfl
      exact hkind (by decide)
    exact ⟨[_], _, rfl, rfl, .renamed hfunction⟩
  | noArguments => exact ⟨[], _, rfl, rfl, .refl _⟩
  | arguments ht hfirst hmore ihfirst ihmore =>
    obtain ⟨read, written, hread, hwrites, hkeeps⟩ := ihfirst hcalls
    rw [hread] at hcalls ⊢
    obtain ⟨read', written', rfl, hwrites', hkeeps'⟩ := ihmore (callsOpen_of_append hcalls)
    refine ⟨read ++ read', written ++ written', (List.append_assoc ..).symm, ?_,
      hkeeps.append hkeeps'⟩
    simp only [Part.Writes] at hwrites hwrites' ⊢
    rw [tokensOfArguments, hwrites, hwrites']
  | argumentsEnd => exact ⟨[], _, rfl, rfl, .refl _⟩
  | @nextArgument _ _ _ comma _ _ _ ht hnext hmore ihnext ihmore =>
    obtain ⟨read, written, rfl, hwrites, hkeeps⟩ := ihnext (callsOpen_tail hcalls)
    obtain ⟨read', written', rfl, hwrites', hkeeps'⟩ :=
      ihmore (callsOpen_of_append (callsOpen_tail hcalls))
    refine ⟨comma :: (read ++ read'), ⟨.comma, ","⟩ :: (written ++ written'), by simp, ?_,
      (KeepsNames.comma ht).append (hkeeps.append hkeeps')⟩
    simp only [Part.Writes] at hwrites hwrites' ⊢
    rw [tokensBehind, hwrites, hwrites']

end Expr

namespace Registry

variable (r : Registry) (text : String)

/-- The lexeme behind the name of a function is its parenthesis. -/
theorem exists_openParen_behind {i : Nat} {l : Lexeme} (hl : (r.lexemes text)[i]? = some l)
    (hkind : l.token.kind = .function) :
    ∃ l', (r.lexemes text)[i + 1]? = some l' ∧ l'.token = .openParen := by
  have htoken : (r.tokens text)[i]? = some l.token := by
    rw [tokens, Lexer.tokens, List.getElem?_map]
    exact congrArg _ hl
  have hopen := Token.getElem?_succ_of_callsOpen (Lexer.callsOpen_tokens _ text) htoken hkind
  rw [Lexer.tokens, List.getElem?_map, Option.map_eq_some_iff] at hopen
  exact hopen

/-- What the parser reads of a text keeps the names. -/
theorem keepsNames_of_parse {reading : Reading} {e : Expr}
    (h : Expr.parse reading (r.tokens text) = .ok e) :
    ∃ read rest, r.tokens text = read ++ rest ∧ KeepsNames read e.tokens := by
  rcases Expr.exists_parses h with ⟨hempty, rfl⟩ | ⟨rest, hparses, -⟩
  · exact ⟨[], [], hempty, .added (by decide) (by decide)⟩
  · obtain ⟨read, written, hread, rfl, hkeeps⟩ :=
      hparses.keepsNames (Lexer.callsOpen_tokens _ text)
    exact ⟨read, rest, hread, hkeeps⟩

/-- In the tokens of every text the name of a function stands before its parenthesis; where the name
of a constant or a node does, a character that is no white space is left unread between the two. So
whatever the parser makes of the tokens, it takes no name of a function for a reference. -/
theorem functionNames_stand (r : Registry) (text : String) :
    (∀ i l, (r.lexemes text)[i]? = some l → l.token.kind = .function →
      ∃ l', (r.lexemes text)[i + 1]? = some l' ∧ l'.token = .openParen) ∧
    (∀ i l l', (r.lexemes text)[i]? = some l → (r.lexemes text)[i + 1]? = some l' →
      l.token.kind = .constant ∨ l.token.kind = .reference → l'.token = .openParen →
      ∃ j c, l.start + l.length ≤ j ∧ j < l'.start ∧ text.toList[j]? = some c ∧
        Text.isBlank c = false) ∧
    ∀ reading e, Expr.parse reading (r.tokens text) = .ok e →
      ∃ read rest, r.tokens text = read ++ rest ∧ KeepsNames read e.tokens := by
  refine ⟨fun i l hl hkind => exists_openParen_behind r text hl hkind, ?_,
    fun reading e h => keepsNames_of_parse r text h⟩
  intro i l l' hl hl' hkind hopen
  have hmem : l ∈ r.lexemes text := List.mem_of_getElem? hl
  have hmem' : l' ∈ r.lexemes text := List.mem_of_getElem? hl'
  have hle : l.start + l.length ≤ l'.start := by
    obtain ⟨hi, hget⟩ := List.getElem?_eq_some_iff.1 hl
    obtain ⟨hi', hget'⟩ := List.getElem?_eq_some_iff.1 hl'
    have hapart := (r.isCut_lexemes text).1.apart
    have := List.pairwise_iff_getElem.1 hapart i (i + 1) hi hi' i.lt_succ_self
    rwa [hget, hget'] at this
  exact Lexer.exists_not_blank hmem hkind hmem' hopen hle

example : (Lexer.tokens (· == "pi") "f\u2003(x) + pi~(2)").map (·.kind) =
    [.function, .parenthesis, .reference, .parenthesis, .operator, .constant, .parenthesis, .number,
      .parenthesis] := by
  cbv

end Registry

end LiveSheet
