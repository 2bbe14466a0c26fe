import LiveSheet.Decimal.Notation
import LiveSheet.Decimal.Numeral
import LiveSheet.Proofs.Shortest

/-!
# Numbers in text read back

The text of a number determines it in every style that can tell its special values apart
(`Style.format_injective`). What stands before the exponent is read as a numeral with as many places
as there are digits behind the point, and numeral and exponent together stand for the value of the
digits (`readMagnitude?_magnitude`), which rounds to no other number.
-/

namespace LiveSheet.Decimal

open Binary64

/-- What holds of each item of a list can be seen by going through it. -/
theorem forall_mem_of_all {α : Type} {p : α → Prop} [DecidablePred p] {as : List α}
    (h : as.all (fun a => decide (p a)) = true) : ∀ a ∈ as, p a := by
  simpa using h

/-! ### Digits -/

/-- The digits of a number are digits. -/
theorem isDigit_of_mem_digitChars {n : Nat} {c : Char} (h : c ∈ digitChars n) :
    isDigit c = true := by
  have hcore : c.isDigit = true := Nat.isDigit_of_mem_toDigits (by decide) (by decide) h
  simpa [isDigit, Char.isDigit, Char.le_def] using hcore

/-- Every number has a digit. -/
theorem digitChars_ne_nil (n : Nat) : digitChars n ≠ [] :=
  Nat.toDigits_ne_nil

/-- The digits of a numeral are read from left to right. -/
theorem digitsValue_eq (numeral : List Char) :
    digitsValue numeral = Nat.ofDigitChars 10 (numeral.filter isDigit) 0 := by
  rw [Nat.ofDigitChars_eq_foldl]
  rfl

/-- A numeral without point. -/
theorem digitsValue_of_digits {whole : List Char} (h : ∀ c ∈ whole, isDigit c = true) :
    digitsValue whole = Nat.ofDigitChars 10 whole 0 := by
  rw [digitsValue_eq, List.filter_eq_self.2 h]

/-- The point of a numeral does not count. -/
theorem digitsValue_point {whole fraction : List Char} (hwhole : ∀ c ∈ whole, isDigit c = true)
    (hfraction : ∀ c ∈ fraction, isDigit c = true) :
    digitsValue (whole ++ '.' :: fraction) = Nat.ofDigitChars 10 (whole ++ fraction) 0 := by
  have hpoint : isDigit '.' = false := by decide
  rw [digitsValue_eq, List.filter_append, List.filter_cons_of_neg (by simp [hpoint]),
    List.filter_eq_self.2 hwhole, List.filter_eq_self.2 hfraction]

/-- A number is read from its digits. -/
theorem ofDigitChars_digitChars (n : Nat) : Nat.ofDigitChars 10 (digitChars n) 0 = n :=
  Nat.ofDigitChars_toDigits (by decide) (by decide)

/-- Digits up to something else are taken from the front. -/
theorem takeWhile_digits {digits : List Char} (rest : List Char)
    (hdigits : ∀ c ∈ digits, isDigit c = true)
    (hrest : ∀ c ∈ rest.head?, isDigit c = false) :
    (digits ++ rest).takeWhile isDigit = digits ∧ (digits ++ rest).dropWhile isDigit = rest := by
  have hstop : rest.takeWhile isDigit = [] ∧ rest.dropWhile isDigit = rest := by
    cases rest with
    | nil => simp
    | cons c cs => simp [hrest c (by simp)]
  rw [List.takeWhile_append_of_pos hdigits, List.dropWhile_append_of_pos hdigits, hstop.1, hstop.2]
  simp

/-! ### Numerals -/

/-- The value of an unsigned numeral with its exponent. -/
def readMagnitude? (cs : List Char) : Option ℚ :=
  match takeNumber? cs with
  | none => none
  | some (numeral, rest) =>
    match takeExponent rest with
    | (exponent, []) => some ((digitsValue numeral : ℚ) * 10 ^ (exponent - places numeral))
    | _ => none

/-- Whether a number can end before a text: neither a digit nor a point comes next. -/
def EndsNumber (rest : List Char) : Prop :=
  ∀ c ∈ rest.head?, isDigit c = false ∧ c ≠ '.'

/-- Digits with a point and more digits are a numeral. -/
theorem takeNumber?_point {whole fraction : List Char} (rest : List Char) (hne : whole ≠ [])
    (hwhole : ∀ c ∈ whole, isDigit c = true) (hfraction : ∀ c ∈ fraction, isDigit c = true)
    (hrest : EndsNumber rest) :
    takeNumber? (whole ++ '.' :: fraction ++ rest) = some (whole ++ '.' :: fraction, rest) := by
  obtain ⟨htake, hdrop⟩ := takeWhile_digits ('.' :: (fraction ++ rest)) hwhole
    (by simp only [List.head?_cons, Option.mem_some_iff]; rintro c rfl; decide)
  obtain ⟨htake', hdrop'⟩ := takeWhile_digits rest hfraction fun c hc => (hrest c hc).1
  have hassoc : whole ++ '.' :: fraction ++ rest = whole ++ '.' :: (fraction ++ rest) := by simp
  unfold takeNumber?
  rw [hassoc, htake, hdrop]
  simp only [takePoint, htake', hdrop']

/-- Digits alone are a numeral. -/
theorem takeNumber?_whole {whole : List Char} (rest : List Char) (hne : whole ≠ [])
    (hwhole : ∀ c ∈ whole, isDigit c = true) (hrest : EndsNumber rest) :
    takeNumber? (whole ++ rest) = some (whole, rest) := by
  obtain ⟨htake, hdrop⟩ := takeWhile_digits rest hwhole fun c hc => (hrest c hc).1
  have hpoint : takePoint rest = ([], rest) := by
    unfold takePoint
    split
    · next cs => exact absurd rfl (hrest '.' (by simp)).2
    · rfl
  unfold takeNumber?
  rw [htake, hdrop, hpoint]
  simp

/-- The places of a numeral are the digits behind the point. -/
theorem places_point {whole fraction : List Char} (hwhole : ∀ c ∈ whole, isDigit c = true) :
    places (whole ++ '.' :: fraction) = fraction.length := by
  obtain ⟨-, hdrop⟩ := takeWhile_digits ('.' :: fraction) hwhole
    (by simp only [List.head?_cons, Option.mem_some_iff]; rintro c rfl; decide)
  unfold places
  rw [hdrop]
  simp

/-- A numeral without point has no places behind it. -/
theorem places_whole {whole : List Char} (hwhole : ∀ c ∈ whole, isDigit c = true) :
    places whole = 0 := by
  obtain ⟨-, hdrop⟩ := takeWhile_digits [] hwhole (by simp)
  unfold places
  rw [← List.append_nil whole, hdrop]
  rfl

/-- An exponent is read from its digits. -/
theorem takeExponent_exponentChars (width : Nat) (e : Int) :
    takeExponent ('e' :: exponentChars width e) = (e, []) := by
  have hdigits : ∀ c ∈ List.replicate (width - (digitChars e.natAbs).length) '0' ++
      digitChars e.natAbs, isDigit c = true := by
    intro c hc
    rcases List.mem_append.1 hc with hc | hc
    · rw [List.eq_of_mem_replicate hc]
      decide
    · exact isDigit_of_mem_digitChars hc
  obtain ⟨htake, hdrop⟩ := takeWhile_digits [] hdigits (by simp)
  rw [List.append_nil] at htake hdrop
  -- Zeros in front of the digits do not count.
  have hvalue : digitsValue (List.replicate (width - (digitChars e.natAbs).length) '0' ++
      digitChars e.natAbs) = e.natAbs := by
    rw [digitsValue_of_digits hdigits, Nat.ofDigitChars_append, Nat.ofDigitChars_replicate_zero,
      Nat.mul_zero, ofDigitChars_digitChars]
  have hne : (List.replicate (width - (digitChars e.natAbs).length) '0' ++
      digitChars e.natAbs).isEmpty = false := by
    simp [digitChars_ne_nil]
  unfold takeExponent exponentChars
  by_cases he : e < 0
  · simp only [if_pos he, takeSign, List.cons_append, htake, hdrop, hne, hvalue, beq_self_eq_true,
      Bool.true_or, if_true, Bool.false_eq_true, if_false]
    rw [Int.ofNat_natAbs_of_nonpos he.le]
    simp
  · simp only [if_neg he, takeSign, List.cons_append, htake, hdrop, hne, hvalue, beq_self_eq_true,
      Bool.true_or, if_true, Bool.false_eq_true, if_false]
    rw [Int.natAbs_of_nonneg (by omega)]

/-! ### Magnitudes -/

/-- The value of a numeral with point and perhaps an exponent behind it. -/
theorem readMagnitude?_point {whole fraction : List Char} (rest : List Char) {exponent : Int}
    (hne : whole ≠ []) (hwhole : ∀ c ∈ whole, isDigit c = true)
    (hfraction : ∀ c ∈ fraction, isDigit c = true)
    (hrest : EndsNumber rest) (hexponent : takeExponent rest = (exponent, [])) :
    readMagnitude? (whole ++ '.' :: fraction ++ rest) =
      some (((Nat.ofDigitChars 10 (whole ++ fraction) 0 : Nat) : ℚ) *
        10 ^ (exponent - fraction.length)) := by
  unfold readMagnitude?
  rw [takeNumber?_point rest hne hwhole hfraction hrest]
  simp only [hexponent, digitsValue_point hwhole hfraction, places_point hwhole]

/-- The value of a numeral without point and perhaps an exponent behind it. -/
theorem readMagnitude?_whole {whole : List Char} (rest : List Char) {exponent : Int}
    (hne : whole ≠ []) (hwhole : ∀ c ∈ whole, isDigit c = true) (hrest : EndsNumber rest)
    (hexponent : takeExponent rest = (exponent, [])) :
    readMagnitude? (whole ++ rest) =
      some (((Nat.ofDigitChars 10 whole 0 : Nat) : ℚ) * 10 ^ exponent) := by
  unfold readMagnitude?
  rw [takeNumber?_whole rest hne hwhole hrest]
  simp only [hexponent, digitsValue_of_digits hwhole, places_whole hwhole]
  simp

/-- Padding zeros are digits. -/
theorem isDigit_of_mem_zeros {n : Nat} {c : Char} (hc : c ∈ List.replicate n '0') :
    isDigit c = true := by
  rw [List.eq_of_mem_replicate hc]
  decide

/-- A number ends where the text does. -/
theorem endsNumber_nil : EndsNumber [] := by simp [EndsNumber]

/-- Digits behind the point and behind some zeros. -/
theorem readMagnitude?_zeros {ds : List Char} (hdigits : ∀ c ∈ ds, isDigit c = true) (n : Nat) :
    readMagnitude? ('0' :: '.' :: List.replicate n '0' ++ ds) =
      some ((Nat.ofDigitChars 10 ds 0 : ℚ) * 10 ^ (-((n + ds.length : Nat) : Int))) := by
  have hfraction : ∀ c ∈ List.replicate n '0' ++ ds, isDigit c = true := by
    intro c hc
    rcases List.mem_append.1 hc with hc | hc
    · exact isDigit_of_mem_zeros hc
    · exact hdigits c hc
  have hread := readMagnitude?_point [] (List.cons_ne_nil '0' [])
    (List.forall_mem_singleton.2 (by decide)) hfraction endsNumber_nil rfl
  rw [List.append_nil] at hread
  refine hread.trans ?_
  have hzero : Nat.ofDigitChars 10 ['0'] 0 = 0 := by decide
  rw [Nat.ofDigitChars_append, Nat.ofDigitChars_append, Nat.ofDigitChars_replicate_zero, hzero,
    Nat.mul_zero, List.length_append, List.length_replicate, zero_sub]

/-- Digits in front of the point, with a zero behind it or without the point. -/
theorem readMagnitude?_integral (keepsFraction : Bool) {whole : List Char} (hne : whole ≠ [])
    (hwhole : ∀ c ∈ whole, isDigit c = true) :
    readMagnitude? (if keepsFraction = true then whole ++ ['.', '0'] else whole) =
      some (Nat.ofDigitChars 10 whole 0 : ℚ) := by
  split
  · have hread := readMagnitude?_point [] hne hwhole
      (List.forall_mem_singleton.2 (by decide : isDigit '0' = true)) endsNumber_nil rfl
    rw [List.append_nil] at hread
    refine hread.trans ?_
    have hten : ∀ n : Nat, Nat.ofDigitChars 10 ['0'] n = 10 * n := by
      intro n
      simp [Nat.ofDigitChars_cons]
    rw [Nat.ofDigitChars_append, hten]
    push_cast
    simp
    ring
  · have hread := readMagnitude?_whole [] hne hwhole endsNumber_nil rfl
    rw [List.append_nil] at hread
    refine hread.trans ?_
    simp

/-- Digits with the point among them. -/
theorem readMagnitude?_within {ds : List Char} (hdigits : ∀ c ∈ ds, isDigit c = true) {n : Nat}
    (hpos : 0 < n) (hlt : n < ds.length) :
    readMagnitude? (ds.take n ++ '.' :: ds.drop n) =
      some ((Nat.ofDigitChars 10 ds 0 : ℚ) * 10 ^ ((n : Int) - ds.length)) := by
  have hne : ds.take n ≠ [] := by
    intro hnil
    rcases List.take_eq_nil_iff.1 hnil with h | rfl
    · omega
    · simp at hlt
  have hfraction : ∀ c ∈ ds.drop n, isDigit c = true :=
    fun c hc => hdigits c (List.mem_of_mem_drop hc)
  have hread := readMagnitude?_point [] hne (fun c hc => hdigits c (List.mem_of_mem_take hc))
    hfraction endsNumber_nil rfl
  rw [List.append_nil] at hread
  refine hread.trans ?_
  rw [List.take_append_drop, List.length_drop]
  congr 2
  congr 1
  omega

/-- Digits with the point in its place stand for their value. -/
theorem readMagnitude?_positionalChars (keepsFraction : Bool) {digits : Nat} {exponent : Int} :
    readMagnitude? (positionalChars keepsFraction (digitChars digits) exponent) =
      some ((digits : ℚ) * 10 ^ (exponent + 1 - digitCount digits)) := by
  set ds := digitChars digits with hds
  have hdigits : ∀ c ∈ ds, isDigit c = true := fun c hc => isDigit_of_mem_digitChars hc
  have hvalue : Nat.ofDigitChars 10 ds 0 = digits := ofDigitChars_digitChars digits
  have hcount : digitCount digits = ds.length := rfl
  have hpos : 0 < ds.length := List.length_pos_iff.2 (digitChars_ne_nil digits)
  unfold positionalChars
  by_cases hexponent : exponent < 0
  · rw [if_pos hexponent, readMagnitude?_zeros hdigits, hvalue, hcount]
    congr 3
    push_cast
    omega
  · obtain ⟨k, rfl⟩ := Int.eq_ofNat_of_zero_le (show 0 ≤ exponent by omega)
    rw [if_neg hexponent]
    simp only [Int.toNat_natCast]
    split
    · next hdrop =>
      -- The point stands behind all the digits, and perhaps behind some zeros.
      have hle : ds.length ≤ k + 1 := List.drop_eq_nil_iff.1 hdrop
      rw [List.take_of_length_le hle, readMagnitude?_integral keepsFraction
        (List.append_ne_nil_of_left_ne_nil (digitChars_ne_nil digits) _)]
      · rw [Nat.ofDigitChars_append, hvalue, Nat.ofDigitChars_replicate_zero, hcount,
          show (k : Int) + 1 - ds.length = ((k + 1 - ds.length : Nat) : Int) by omega, zpow_natCast]
        push_cast
        ring_nf
      · intro c hc
        rcases List.mem_append.1 hc with hc | hc
        · exact hdigits c hc
        · exact isDigit_of_mem_zeros hc
    · next hdrop =>
      -- The point stands between two digits.
      have hlt : k + 1 < ds.length := by
        by_contra hle
        exact hdrop (List.drop_eq_nil_iff.2 (by omega))
      rw [show k + 1 - ds.length = 0 by omega, List.replicate_zero, List.append_nil,
        readMagnitude?_within hdigits (Nat.succ_pos k) hlt, hvalue, hcount]
      push_cast
      rfl

/-- The text of a magnitude stands for the value of its digits. -/
theorem readMagnitude?_magnitude (style : Style) (d : Expansion) :
    readMagnitude? (style.magnitude d) = some d.value := by
  have hscale : d.exponent + 1 - digitCount d.digits = d.scale := by
    unfold Expansion.exponent
    omega
  unfold Style.magnitude
  simp only
  split
  · rw [readMagnitude?_positionalChars, hscale]
    rfl
  · have hdigits : ∀ c ∈ digitChars d.digits, isDigit c = true :=
      fun c hc => isDigit_of_mem_digitChars hc
    have hend : EndsNumber ('e' :: exponentChars style.exponentWidth d.exponent) := by
      intro c hc
      obtain rfl : 'e' = c := by simpa using hc
      decide
    have hexponent := takeExponent_exponentChars style.exponentWidth d.exponent
    have hvalue := ofDigitChars_digitChars d.digits
    have hcount : digitCount d.digits = (digitChars d.digits).length := rfl
    -- A point is written only if there is more than one digit.
    match hds : digitChars d.digits with
    | [] => exact absurd hds (digitChars_ne_nil d.digits)
    | [c] =>
      rw [hds] at hdigits hvalue hcount
      refine (readMagnitude?_whole _ (List.cons_ne_nil c []) hdigits hend hexponent).trans ?_
      rw [hvalue]
      unfold Expansion.value
      simp [← hscale, hcount]
    | c :: c' :: cs =>
      rw [hds] at hdigits hvalue hcount
      have hhead : ∀ x ∈ [c], isDigit x = true := fun x hx => hdigits x (by simp_all)
      have htail : ∀ x ∈ c' :: cs, isDigit x = true :=
        fun x hx => hdigits x (List.mem_cons_of_mem c hx)
      refine (readMagnitude?_point _ (List.cons_ne_nil c []) hhead htail hend hexponent).trans ?_
      rw [List.singleton_append, hvalue]
      unfold Expansion.value
      congr 2
      rw [← hscale, hcount]
      simp only [List.length_cons]
      congr 1
      push_cast
      ring

/-! ### Texts of numbers -/

/-- The sign that a text shows, if zero has one. -/
def signOf : Decoded → Bool
  | .notANumber => false
  | .infinite negative => negative
  | .finite negative _ _ => negative

/-- What stands behind the sign. -/
def Style.bodyOf (style : Style) : Decoded → List Char
  | .notANumber => style.notANumber.toList
  | .infinite _ => style.infinity.toList
  | .finite _ m e =>
    if m = 0 then positionalChars style.keepsFraction (digitChars 0) 0
    else style.magnitude (shortest m e)

/-- A style in which every number can be told from the others: zero has a sign, and the words for
the special values are different, are no numerals, and start with no sign. -/
structure Style.Legible (style : Style) : Prop where
  signedZero : style.signedZero = true
  differ : style.infinity ≠ style.notANumber
  infinity : readMagnitude? style.infinity.toList = none ∧ style.infinity.toList.head? ≠ some '-'
  notANumber :
    readMagnitude? style.notANumber.toList = none ∧ style.notANumber.toList.head? ≠ some '-'

/-- The text of a number is its sign and the text of its magnitude. -/
theorem Style.toList_format {style : Style} (h : style.Legible) (x : Float) :
    (style.format x).toList =
      (if signOf (decode x) then ['-'] else []) ++ style.bodyOf (decode x) := by
  have hzero : digitChars 0 = ['0'] := by decide
  unfold Style.format signOf Style.bodyOf
  cases decode x with
  | notANumber => simp
  | infinite negative => cases negative <;> simp
  | finite negative m e =>
    by_cases hm : m = 0
    · simp [hm, h.signedZero, hzero]
    · simp [hm]

/-- A numeral has no sign. -/
theorem head?_ne_of_readMagnitude? {cs : List Char} {q : ℚ} (h : readMagnitude? cs = some q) :
    cs.head? ≠ some '-' := by
  intro hhead
  obtain ⟨rest, rfl⟩ : ∃ rest, cs = '-' :: rest := by
    cases cs with
    | nil => cases hhead
    | cons c rest => exact ⟨rest, by rw [Option.some.inj hhead]⟩
  have hnone : takeNumber? ('-' :: rest) = none := by
    unfold takeNumber?
    rw [List.takeWhile_cons_of_neg (by decide)]
    rfl
  rw [readMagnitude?, hnone] at h
  cases h

/-- The digits of zero. -/
theorem readMagnitude?_zero (keepsFraction : Bool) :
    readMagnitude? (positionalChars keepsFraction (digitChars 0) 0) = some 0 := by
  rw [readMagnitude?_positionalChars]
  simp

/-- The value of a number without its sign, which its digits stand for; a word stands for none. -/
def magnitudeOf? : Decoded → Option ℚ
  | .finite _ m e => some (if m = 0 then 0 else (shortest m e).value)
  | _ => none

/-- The text of a magnitude is read as that magnitude. -/
theorem Style.readMagnitude?_bodyOf {style : Style} (h : style.Legible) (d : Decoded) :
    readMagnitude? (style.bodyOf d) = magnitudeOf? d := by
  cases d with
  | notANumber => exact h.notANumber.1
  | infinite negative => exact h.infinity.1
  | finite negative m e =>
    unfold bodyOf magnitudeOf?
    by_cases hm : m = 0
    · simp only [if_pos hm]
      exact readMagnitude?_zero style.keepsFraction
    · simp only [if_neg hm]
      exact readMagnitude?_magnitude style (shortest m e)

/-- No magnitude begins with a minus sign. -/
theorem Style.head?_bodyOf {style : Style} (h : style.Legible) (d : Decoded) :
    (style.bodyOf d).head? ≠ some '-' := by
  cases d with
  | notANumber => exact h.notANumber.2
  | infinite negative => exact h.infinity.2
  | finite negative m e =>
    exact head?_ne_of_readMagnitude? (style.readMagnitude?_bodyOf h (.finite negative m e))

/-- The value determines mantissa and exponent. -/
theorem eq_of_magnitudeOf?_eq {m m' : Nat} {e e' : Int} (hn : Normalized m e)
    (hn' : Normalized m' e')
    (h : (if m = 0 then 0 else (shortest m e).value) =
      if m' = 0 then 0 else (shortest m' e').value) : m = m' ∧ e = e' := by
  have hround : ∀ {n : Nat} (k : Int), n ≠ 0 → Rounds n k (shortest n k).value :=
    fun k hn => rounds_shortest k (Nat.pos_of_ne_zero hn)
  by_cases hm : m = 0
  · by_cases hm' : m' = 0
    · have hleast := hn.least_le
      have hleast' := hn'.least_le
      have hfull := hn.full
      have hfull' := hn'.full
      omega
    · rw [if_pos hm, if_neg hm'] at h
      exact absurd h.symm ((hround e' hm').pos (Nat.pos_of_ne_zero hm')).ne'
  · by_cases hm' : m' = 0
    · rw [if_neg hm, if_pos hm'] at h
      exact absurd h ((hround e hm).pos (Nat.pos_of_ne_zero hm)).ne'
    · rw [if_neg hm, if_neg hm'] at h
      exact (hround e hm).unique hn hn' (h ▸ hround e' hm')

/-- What stands behind the sign determines the number but for its sign. -/
theorem Style.decode_eq_of_bodyOf_eq {style : Style} (h : style.Legible) {x y : Float}
    (hsign : signOf (decode x) = signOf (decode y))
    (hbody : style.bodyOf (decode x) = style.bodyOf (decode y)) : decode x = decode y := by
  have hread : magnitudeOf? (decode x) = magnitudeOf? (decode y) := by
    rw [← style.readMagnitude?_bodyOf h, ← style.readMagnitude?_bodyOf h, hbody]
  -- A word is no numeral, so both are words or both are numerals.
  cases hx : decode x with
  | notANumber =>
    cases hy : decode y with
    | notANumber => rfl
    | infinite negative =>
      rw [hx, hy] at hbody
      exact absurd (String.toList_inj.1 hbody).symm h.differ
    | finite negative m e =>
      rw [hx, hy] at hread
      cases hread
  | infinite negative =>
    cases hy : decode y with
    | notANumber =>
      rw [hx, hy] at hbody
      exact absurd (String.toList_inj.1 hbody) h.differ
    | infinite negative' =>
      rw [hx, hy] at hsign
      exact congrArg Decoded.infinite hsign
    | finite negative' m e =>
      rw [hx, hy] at hread
      cases hread
  | finite negative m e =>
    cases hy : decode y with
    | notANumber =>
      rw [hx, hy] at hread
      cases hread
    | infinite negative' =>
      rw [hx, hy] at hread
      cases hread
    | finite negative' m' e' =>
      rw [hx, hy] at hread hsign
      obtain rfl : negative = negative' := hsign
      obtain ⟨rfl, rfl⟩ := eq_of_magnitudeOf?_eq (normalized_of_decode hx) (normalized_of_decode hy)
        (Option.some.inj hread)
      rfl

/-- The text of a number determines it. -/
theorem Style.format_injective {style : Style} (h : style.Legible) {x y : Float}
    (htext : style.format x = style.format y) : x = y := by
  have hchars := congrArg String.toList htext
  rw [toList_format h, toList_format h] at hchars
  have hx := head?_bodyOf h (decode x)
  have hy := head?_bodyOf h (decode y)
  have hsplit : signOf (decode x) = signOf (decode y) ∧
      style.bodyOf (decode x) = style.bodyOf (decode y) := by
    cases hsx : signOf (decode x) <;> cases hsy : signOf (decode y) <;> simp [hsx, hsy] at hchars
    · exact ⟨rfl, hchars⟩
    · exact absurd (by simp [hchars]) hx
    · exact absurd (by simp [← hchars]) hy
    · exact ⟨rfl, hchars⟩
  exact decode_injective (decode_eq_of_bodyOf_eq h hsplit.1 hsplit.2)

/-! ### Characters of numbers -/

/-- The characters that numerals are written with. -/
def isNumeralChar (c : Char) : Bool :=
  isDigit c || c ∈ ['-', '+', '.', 'e']

/-- Digits occur in numerals. -/
theorem isNumeralChar_of_mem_digitChars {n : Nat} {c : Char} (h : c ∈ digitChars n) :
    isNumeralChar c = true := by
  unfold isNumeralChar
  rw [isDigit_of_mem_digitChars h, Bool.true_or]

/-- Padding zeros occur in numerals. -/
theorem isNumeralChar_of_mem_zeros {n : Nat} {c : Char} (h : c ∈ List.replicate n '0') :
    isNumeralChar c = true := by
  rw [List.eq_of_mem_replicate h]
  decide

/-- The characters of a number without exponent occur in numerals. -/
theorem isNumeralChar_of_mem_positionalChars {keepsFraction : Bool} {n : Nat} {exponent : Int}
    {c : Char} (h : c ∈ positionalChars keepsFraction (digitChars n) exponent) :
    isNumeralChar c = true := by
  have hdigit : ∀ {c : Char}, c ∈ digitChars n → isNumeralChar c = true :=
    isNumeralChar_of_mem_digitChars
  have hwhole : ∀ k, ∀ c ∈ (digitChars n).take k ++ List.replicate (k - (digitChars n).length) '0',
      isNumeralChar c = true := by
    intro k c hc
    rcases List.mem_append.1 hc with hc | hc
    · exact hdigit (List.mem_of_mem_take hc)
    · exact isNumeralChar_of_mem_zeros hc
  -- The point is in front of all digits, behind them or between two of them.
  unfold positionalChars at h
  split at h
  · simp only [List.cons_append, List.mem_cons, List.mem_append] at h
    rcases h with rfl | rfl | h | h
    · decide
    · decide
    · exact isNumeralChar_of_mem_zeros h
    · exact hdigit h
  · simp only at h
    split at h
    · split at h
      · rcases List.mem_append.1 h with h | h
        · exact hwhole _ c h
        · have : ∀ c ∈ ['.', '0'], isNumeralChar c = true := forall_mem_of_all (by decide)
          exact this c h
      · exact hwhole _ c h
    · rcases List.mem_append.1 h with h | h
      · exact hwhole _ c h
      · rcases List.mem_cons.1 h with rfl | h
        · decide
        · exact hdigit (List.mem_of_mem_drop h)

/-- The characters in front of an exponent occur in numerals. -/
theorem isNumeralChar_of_mem_mantissaChars {ds : List Char}
    (hds : ∀ c ∈ ds, isNumeralChar c = true) {c : Char} (h : c ∈ mantissaChars ds) :
    isNumeralChar c = true := by
  unfold mantissaChars at h
  split at h
  · exact absurd h (by simp)
  · exact hds c h
  · rcases List.mem_cons.1 h with rfl | h
    · exact hds c (by simp)
    · rcases List.mem_cons.1 h with rfl | h
      · decide
      · exact hds c (List.mem_cons_of_mem _ h)

/-- The characters of an exponent occur in numerals. -/
theorem isNumeralChar_of_mem_exponentChars {width : Nat} {e : Int} {c : Char}
    (h : c ∈ exponentChars width e) : isNumeralChar c = true := by
  unfold exponentChars at h
  simp only [List.cons_append, List.mem_cons, List.mem_append] at h
  rcases h with rfl | h | h
  · split <;> decide
  · exact isNumeralChar_of_mem_zeros h
  · exact isNumeralChar_of_mem_digitChars h

/-- The text of a magnitude has no other characters. -/
theorem isNumeralChar_of_mem_magnitude {style : Style} {d : Expansion} {c : Char}
    (h : c ∈ style.magnitude d) : isNumeralChar c = true := by
  unfold Style.magnitude at h
  simp only at h
  split at h
  · exact isNumeralChar_of_mem_positionalChars h
  · rcases List.mem_append.1 h with h | h
    · exact isNumeralChar_of_mem_mantissaChars (fun c hc => isNumeralChar_of_mem_digitChars hc) h
    · rcases List.mem_cons.1 h with rfl | h
      · decide
      · exact isNumeralChar_of_mem_exponentChars h

/-- A number is written in characters of numerals and of the words for special values. -/
theorem Style.mem_format {style : Style} {x : Float} {c : Char}
    (hc : c ∈ (style.format x).toList) :
    isNumeralChar c = true ∨ c ∈ style.infinity.toList ∨ c ∈ style.notANumber.toList := by
  have hsign : ∀ negative : Bool, c ∈ (if negative then ['-'] else []) →
      isNumeralChar c = true := by
    intro negative hc
    cases negative with
    | false => cases hc
    | true =>
      obtain rfl := List.mem_singleton.1 hc
      decide
  -- There is a word for what is no number and one for the infinities; zero and all others are
  -- numerals.
  unfold format at hc
  split at hc
  · exact .inr (.inr hc)
  · split at hc
    · rw [String.toList_append, List.mem_append] at hc
      exact hc.elim (fun hc => .inl (hsign true hc)) fun hc => .inr (.inl hc)
    · exact .inr (.inl hc)
  · split at hc
    all_goals
      rw [String.toList_ofList] at hc
      rcases List.mem_append.1 hc with hc | hc
    · exact .inl (hsign _ hc)
    · exact .inl (isNumeralChar_of_mem_positionalChars (n := 0) hc)
    · exact .inl (hsign _ hc)
    · exact .inl (isNumeralChar_of_mem_magnitude hc)

end LiveSheet.Decimal
