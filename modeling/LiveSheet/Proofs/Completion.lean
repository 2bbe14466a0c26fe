import LiveSheet.Completion
import LiveSheet.Proofs.LongestMatch
import LiveSheet.Registry.Standard
import Mathlib.Data.List.DropRight

/-!
# What a suggestion replaces

The name before the cursor is the longest one that ends there (`Completion.IsLongestName`), but a
line break directly before the cursor is passed over (`Completion.isLongestName_nameAtEnd`). A
suggestion that is taken stands for as many characters before the cursor as this name has. Nothing
else of the text changes, except that a function may bring a placeholder for its arguments, in
place of an empty call behind the cursor or where no call stands there (`Completion.Follows`,
`Completion.takes_of_le`).

So directly behind a line break the characters that are replaced are not those of the name: the line
break is taken for its last one (`Completion.complete_lineBreak`).
-/

namespace LiveSheet.Completion

open Decimal (isDigit)
open Lexer (IsName isNameChar isNameStart)

/-! ### The name before the cursor -/

/-- The longest name at the end of a text, or nothing if the text ends in no name. -/
structure IsLongestName (s name : List Char) : Prop where
  atEnd : name <:+ s
  isName : name = [] ∨ IsName name
  longest : ∀ other, IsName other → other <:+ s → other.length ≤ name.length

/-- A name consists of the characters that names go on with. -/
theorem isNameChar_of_isName {name : List Char} (h : IsName name) :
    ∀ c ∈ name, isNameChar c = true := by
  obtain ⟨hstart, hchars⟩ := h
  intro c hc
  rcases List.mem_cons.1 hc with rfl | hc
  · simp [isNameChar, hstart]
  · exact hchars c hc

/-- Of the name characters that a text ends in, those from the first one on that is no digit are the
longest name. -/
theorem isLongestName_dropWhile (s : List Char) :
    IsLongestName s ((s.rtakeWhile isNameChar).dropWhile isDigit) := by
  set run := s.rtakeWhile isNameChar with hrun
  have hsuffix : run.dropWhile isDigit <:+ run := List.dropWhile_suffix _
  constructor
  case atEnd => exact hsuffix.trans (List.rtakeWhile_suffix _ _)
  case isName =>
    cases hrest : run.dropWhile isDigit with
    | nil => exact .inl rfl
    | cons c cs =>
      have hchars : ∀ d ∈ c :: cs, isNameChar d = true := fun d hd =>
        List.mem_rtakeWhile_imp (hsuffix.subset (hrest ▸ hd))
      have hdigit : isDigit c = false := by
        have := List.head?_dropWhile_not isDigit run
        rwa [hrest] at this
      have hstart : isNameStart c = true := by
        simpa [isNameChar, hdigit] using hchars c List.mem_cons_self
      exact .inr ⟨hstart, fun d hd => hchars d (List.mem_cons_of_mem _ hd)⟩
  case longest =>
    intro other hname hother
    have hinRun : other <:+ run := by
      rw [← List.reverse_prefix, hrun, List.rtakeWhile, List.reverse_reverse]
      obtain ⟨back, hback⟩ := List.reverse_prefix.2 hother
      rw [← hback, List.takeWhile_append_of_pos fun c hc =>
        isNameChar_of_isName hname c (List.mem_reverse.1 hc)]
      exact List.prefix_append _ _
    -- A longer one would start among the digits that are left out.
    by_contra hlonger
    have hrest : run.dropWhile isDigit <:+ other :=
      List.suffix_of_suffix_length_le hsuffix hinRun (by omega)
    obtain ⟨front, hfront⟩ := hinRun
    obtain ⟨digits, hdigits⟩ := hrest
    have hparts : (front ++ digits) ++ run.dropWhile isDigit =
        run.takeWhile isDigit ++ run.dropWhile isDigit := by
      rw [List.takeWhile_append_dropWhile, List.append_assoc, hdigits, hfront]
    have hsplit : front ++ digits = run.takeWhile isDigit := List.append_cancel_right hparts
    obtain ⟨hstart, -⟩ := hname
    cases digits with
    | nil =>
      rw [List.nil_append] at hdigits
      exact hlonger (hdigits ▸ le_rfl)
    | cons d ds =>
      obtain ⟨rfl, -⟩ := List.cons.inj hdigits
      have hmem : d ∈ run.takeWhile isDigit := hsplit ▸ by simp
      have hdigit : isDigit d = true := List.mem_takeWhile_imp hmem
      rw [(Lexer.isNameStart_spec hstart).2.1] at hdigit
      cases hdigit

/-- The name at the end of a text is the longest one, where one line break may follow it. -/
theorem isLongestName_nameAtEnd (s : List Char) :
    (∀ front, s = front ++ ['\n'] → IsLongestName front (nameAtEnd s)) ∧
      (s.getLast? ≠ some '\n' → IsLongestName s (nameAtEnd s)) := by
  constructor
  · rintro front rfl
    have hname : nameAtEnd (front ++ ['\n']) =
        (front.rtakeWhile isNameChar).dropWhile isDigit := by
      simp [nameAtEnd, List.rtakeWhile]
    exact hname ▸ isLongestName_dropWhile front
  · intro hlast
    have hname : nameAtEnd s = (s.rtakeWhile isNameChar).dropWhile isDigit := by
      unfold nameAtEnd List.rtakeWhile
      split
      · next rest hreverse =>
        rw [← List.head?_reverse, hreverse] at hlast
        exact absurd rfl hlast
      · rfl
    exact hname ▸ isLongestName_dropWhile s

/-- The name at the end of a text is not longer than the text. -/
theorem length_nameAtEnd_le (s : List Char) : (nameAtEnd s).length ≤ s.length := by
  obtain ⟨hbreak, hnoBreak⟩ := isLongestName_nameAtEnd s
  by_cases hlast : s.getLast? = some '\n'
  · obtain ⟨front, hfront⟩ := List.getLast?_eq_some_iff.1 hlast
    have hle := (hbreak front hfront).atEnd.length_le
    have hlength : s.length = front.length + 1 := by rw [hfront, List.length_append]; rfl
    omega
  · exact (hnoBreak hlast).atEnd.length_le

/-! ### What stands behind the label -/

/-- Whether a text starts with a call without arguments, and what comes behind it. -/
def StartsWithEmptyCall (s rest : List Char) : Prop :=
  ∃ blanks, (∀ c ∈ blanks, Text.isBlank c = true) ∧ s = '(' :: (blanks ++ ')' :: rest)

/-- The rest behind an empty call is found exactly where there is such a call. -/
theorem afterEmptyCall?_eq_some_iff {s rest : List Char} :
    afterEmptyCall? s = some rest ↔ StartsWithEmptyCall s rest := by
  constructor
  · intro h
    unfold afterEmptyCall? at h
    split at h
    · next tail =>
      split at h
      · next rest' hdrop =>
        obtain rfl := Option.some.inj h
        refine ⟨tail.takeWhile Text.isBlank, fun c hc => List.mem_takeWhile_imp hc, ?_⟩
        rw [← hdrop, List.takeWhile_append_dropWhile]
      · cases h
    · cases h
  · rintro ⟨blanks, hblanks, rfl⟩
    have hdrop : (blanks ++ ')' :: rest).dropWhile Text.isBlank = ')' :: rest := by
      rw [List.dropWhile_append_of_pos hblanks, List.dropWhile_cons_of_neg (by decide)]
    simp only [afterEmptyCall?, hdrop]

/-- What stands behind the label of a suggestion that is taken before `behind`, and how far behind
the label the caret is. -/
inductive Follows (r : Registry) (s : Suggestion) (behind : List Char) : List Char → Nat → Prop
  /-- A constant or a node is its label and nothing else. -/
  | noFunction (h : s.kind ≠ .function) : Follows r s behind behind 0
  /-- A function gets a placeholder where no call stands. -/
  | inserted (h : s.kind = .function) (hopen : behind.head? ≠ some '(') :
      Follows r s behind (placeholder r s.label ++ behind) 1
  /-- The placeholder takes the place of a call without arguments. -/
  | replaced {rest : List Char} (h : s.kind = .function) (hcall : StartsWithEmptyCall behind rest) :
      Follows r s behind (placeholder r s.label ++ rest) 1
  /-- A call with arguments is left as it is. -/
  | kept (h : s.kind = .function) (hopen : behind.head? = some '(')
      (hcall : ∀ rest, ¬ StartsWithEmptyCall behind rest) : Follows r s behind behind 0

/-- There is a place for two arguments if the function takes more than one. -/
theorem placeholder_eq (r : Registry) (name : String) :
    placeholder r name = if ∃ rule, r.function? name = some rule ∧ 1 < rule.arity.least
      then "( , )".toList else "( )".toList := by
  unfold placeholder
  cases hrule : r.function? name with
  | none => simp
  | some rule =>
    by_cases hleast : 1 < rule.arity.least
    · rw [if_pos ⟨rule, rfl, hleast⟩]
      simp only [if_pos hleast]
      rfl
    · rw [if_neg fun ⟨_, hsome, hlt⟩ => hleast (Option.some.inj hsome ▸ hlt)]
      simp only [if_neg hleast]
      rfl

/-! ### Taking a suggestion -/

/-- A suggestion is taken between what is before the name and what is behind the cursor. -/
theorem exists_follows (r : Registry) {text : String} {cs : List Char} (hcs : text.toList = cs)
    {place : Nat} (hplace : place ≤ cs.length) (s : Suggestion) :
    ∃ tail offset, Follows r s (cs.drop place) tail offset ∧
      let start := place - (nameAtEnd (cs.take place)).length
      complete r text (some place) s =
        (String.ofList (cs.take start ++ s.label.toList ++ tail),
          ((start + s.label.length + offset : Nat) : Int)) := by
  have hname := (length_nameAtEnd_le (cs.take place)).trans (List.length_take_le _ _)
  obtain ⟨start, hstart⟩ : ∃ start, start = place - (nameAtEnd (cs.take place)).length := ⟨_, rfl⟩
  rw [← hstart]
  -- The label starts where the front ends, and what is behind the cursor where the label ends.
  have hbefore : Position.before cs place = cs.take place := by
    rw [Position.before, Position.clip_ofNat hplace]
  have hafter : Position.after cs place = cs.drop place := by
    rw [Position.after, Position.clip_ofNat hplace]
  have hplaces : (place : Int) - (nameAtEnd (cs.take place)).length = start := by omega
  have hfront : Position.before cs start = cs.take start := by
    rw [Position.before, Position.clip_ofNat (by omega)]
  have hcaret : (start : Int) + s.label.length = ((start + s.label.length : Nat) : Int) := by omega
  have hlength : (cs.take start ++ s.label.toList).length = start + s.label.length := by
    rw [List.length_append, List.length_take_of_le (by omega), String.length_toList]
  have hclip : Position.clip (cs.take start ++ s.label.toList ++ cs.drop place).length
      ((start + s.label.length : Nat) : Int) = (cs.take start ++ s.label.toList).length := by
    rw [hlength, Position.clip_ofNat (by rw [List.length_append, hlength]; omega)]
  have hhead : Position.before (cs.take start ++ s.label.toList ++ cs.drop place)
      ((start + s.label.length : Nat) : Int) = cs.take start ++ s.label.toList := by
    rw [Position.before, hclip, List.take_left]
  have htail : Position.after (cs.take start ++ s.label.toList ++ cs.drop place)
      ((start + s.label.length : Nat) : Int) = cs.drop place := by
    rw [Position.after, hclip, List.drop_left]
  unfold complete
  simp only [Option.getD_some, hcs, hbefore, hafter, hplaces, hfront, hcaret, hhead, htail]
  by_cases hkind : s.kind = .function
  · simp only [hkind]
    split
    · next tail hopen =>
      split
      · next rest hcall =>
        refine ⟨_, 1, .replaced hkind (afterEmptyCall?_eq_some_iff.1 hcall), ?_⟩
        rw [List.append_assoc (cs.take start ++ s.label.toList)]
        rfl
      · next hcall =>
        refine ⟨_, 0, .kept hkind (by rw [hopen]; rfl) fun rest hrest => ?_, rfl⟩
        rw [afterEmptyCall?_eq_some_iff.2 hrest] at hcall
        cases hcall
    · next hopen =>
      refine ⟨_, 1, .inserted hkind fun hhead => ?_, ?_⟩
      · obtain ⟨tail, htail⟩ := List.head?_eq_some_iff.1 hhead
        exact hopen tail htail
      · rw [List.append_assoc (cs.take start ++ s.label.toList)]
        rfl
  · refine ⟨_, 0, .noFunction hkind, ?_⟩
    split
    · next hfunction => exact absurd hfunction hkind
    · rfl

/-- What happens to a text when a suggestion is taken at a place in it. -/
structure Takes (r : Registry) (text : String) (place : Nat) (s : Suggestion) : Prop where
  /-- The name that is typed is the longest one that ends at the cursor. -/
  name : (text.toList.take place).getLast? ≠ some '\n' →
    IsLongestName (text.toList.take place) (nameBefore text (some place)).toList
  /-- But where a line break is directly before the cursor, it is the one before that. -/
  nameBeforeBreak : ∀ front, text.toList.take place = front ++ ['\n'] →
    IsLongestName front (nameBefore text (some place)).toList
  /-- The name is not longer than what is before the cursor. -/
  length_le : (nameBefore text (some place)).toList.length ≤ place
  /-- The placeholder has room for two arguments if the function takes more than one. -/
  placeholder : Completion.placeholder r s.label =
    if ∃ rule, r.function? s.label = some rule ∧ 1 < rule.arity.least then "( , )".toList
    else "( )".toList
  /-- The label stands for as many characters before the cursor as the name has. What is before
  them stays, and behind the label stands what was behind the cursor, perhaps with a placeholder. -/
  replaced : ∃ tail offset, Follows r s (text.toList.drop place) tail offset ∧
    let start := place - (nameBefore text (some place)).toList.length
    complete r text (some place) s =
      (String.ofList (text.toList.take start ++ s.label.toList ++ tail),
        ((start + s.label.length + offset : Nat) : Int))

/-- Wherever the cursor is in a text, also at its ends, any suggestion takes the place of the name
that is typed there: of the longest one that ends at the cursor, or of as many characters as the one
before a line break has that is directly before the cursor. -/
theorem takes_of_le (r : Registry) (text : String) {place : Nat}
    (hplace : place ≤ text.toList.length) (s : Suggestion) : Takes r text place s := by
  have hbefore : Position.before text.toList place = text.toList.take place := by
    rw [Position.before, Position.clip_ofNat hplace]
  have hname : (nameBefore text (some place)).toList = nameAtEnd (text.toList.take place) := by
    rw [← hbefore]
    exact String.toList_ofList
  obtain ⟨hbreak, hnoBreak⟩ := isLongestName_nameAtEnd (text.toList.take place)
  have hlength := (length_nameAtEnd_le (text.toList.take place)).trans (List.length_take_le _ _)
  have hfollows := exists_follows r rfl hplace s
  rw [← hname] at hbreak hnoBreak hlength hfollows
  exact ⟨hnoBreak, hbreak, hlength, placeholder_eq r s.label, hfollows⟩

/-- The name of a function is completed in front of an empty call. -/
theorem takes_squareRoot :
    6 ≤ "1 + sq(\t) * 2".toList.length ∧
      Takes .standard "1 + sq(\t) * 2" 6 ⟨"sqrt", .function⟩ ∧
        complete .standard "1 + sq(\t) * 2" (some 6) ⟨"sqrt", .function⟩ =
          ("1 + sqrt( ) * 2", 9) := by
  have hplace : 6 ≤ "1 + sq(\t) * 2".toList.length := by decide
  exact ⟨hplace, takes_of_le .standard "1 + sq(\t) * 2" hplace _, by decide +kernel⟩

/-- No name ends behind a line break, but one is taken to be typed there, and what is replaced are
the line break and the last letter before it. -/
theorem complete_lineBreak :
    IsLongestName "si\n".toList [] ∧ nameBefore "si\n" (some 3) = "si" ∧
      complete .standard "si\n" (some 3) ⟨"sin", .function⟩ = ("ssin( )", 5) := by
  refine ⟨⟨List.nil_suffix, .inl rfl, ?_⟩, by decide +kernel, by decide +kernel⟩
  intro other hname hother
  cases hlast : other.getLast? with
  | none => simp [List.getLast?_eq_none_iff.1 hlast]
  | some c =>
    obtain ⟨front, hfront⟩ := hother
    have hbreak : "si\n".toList.getLast? = some c := by
      rw [← hfront, List.getLast?_append, hlast, Option.some_or]
    obtain rfl := Option.some.inj hbreak
    exact absurd (isNameChar_of_isName hname _ (List.mem_of_getLast? hlast)) (by decide)

end LiveSheet.Completion
