import LiveSheet.Latex.Display
import LiveSheet.Proofs.Bits
import LiveSheet.Proofs.Magnitude

/-!
# How numbers are shown

A finite number is shown as a numeral with few digits (`IsPositional`) or as a mantissa times a
power of ten (`IsPowerForm`), and which of the two depends on its size and on the count of decimals
of its shortest digits (`isLeast_decimals`) alone: see `displays`. The exception are the numbers
with a single digit whose point is not set in its place. A digit with an exponent
(`IsDigitWithExponent`) has neither a long whole part nor a fraction, so it is shown as it is.
-/

namespace LiveSheet

namespace Decimal

open Binary64

/-- The sign of a number, which only negative ones show. -/
def signChars (negative : Bool) : List Char :=
  if negative then ['-'] else []

/-- Decimals with the point in front of them, if there are any. -/
def pointed (fraction : List Char) : List Char :=
  if fraction = [] then [] else '.' :: fraction

/-- The shortest digits of a finite number, also of zero. -/
def digitsOf (m : Nat) (e : Int) : Expansion :=
  if m = 0 then ⟨0, 0⟩ else shortest m e

/-- How many decimals the digits have. -/
def Expansion.decimals (d : Expansion) : Nat :=
  (-d.scale).toNat

/-! ### Shapes of texts -/

/-- A numeral with the point in its place: a sign if negative, at least one and at most
`wholeDigits` digits, and no more than `fractionDigits` decimals. -/
def IsPositional (wholeDigits fractionDigits : Nat) (text : String) : Prop :=
  ∃ negative whole fraction,
    text = String.ofList (signChars negative ++ whole ++ pointed fraction) ∧
      (∀ c ∈ whole, isDigit c = true) ∧ 1 ≤ whole.length ∧ whole.length ≤ wholeDigits ∧
        (∀ c ∈ fraction, isDigit c = true) ∧ fraction.length ≤ fractionDigits

/-- The sign and digits of an exponent. -/
def IsExponent (exponent : List Char) : Prop :=
  ∃ sign digits, exponent = sign :: digits ∧ (sign = '+' ∨ sign = '-') ∧ digits ≠ [] ∧
    ∀ c ∈ digits, isDigit c = true

/-- A mantissa with one digit and `places` decimals, times a power of ten with a signed exponent. -/
def IsPowerForm (places : Nat) (text : String) : Prop :=
  ∃ negative lead fraction exponent,
    text = String.ofList (signChars negative ++ lead :: '.' :: fraction) ++ " \\times 10^" ++
        Latex.braced (String.ofList exponent) ∧
      isDigit lead = true ∧ (∀ c ∈ fraction, isDigit c = true) ∧ fraction.length = places ∧
        IsExponent exponent

/-- A single digit with a signed exponent behind an `e`. -/
def IsDigitWithExponent (text : String) : Prop :=
  ∃ negative digit exponent, text = String.ofList (signChars negative ++ digit :: 'e' :: exponent) ∧
    isDigit digit = true ∧ IsExponent exponent

/-- A digit with an exponent is neither of the other two. -/
theorem IsDigitWithExponent.not_isPositional {text : String} (h : IsDigitWithExponent text)
    (wholeDigits fractionDigits : Nat) : ¬ IsPositional wholeDigits fractionDigits text := by
  obtain ⟨negative, digit, exponent, rfl, -, -⟩ := h
  rintro ⟨negative', whole, fraction, htext, hwhole, -, -, hfraction, -⟩
  have hmem : 'e' ∈ signChars negative' ++ whole ++ pointed fraction := by
    rw [← String.ofList_inj.1 htext]
    simp
  simp only [List.mem_append] at hmem
  rcases hmem with (hmem | hmem) | hmem
  · exact absurd hmem (by cases negative' <;> decide)
  · exact absurd (hwhole _ hmem) (by decide)
  · unfold pointed at hmem
    split at hmem
    · cases hmem
    · rcases List.mem_cons.1 hmem with hpoint | hmem
      · exact absurd hpoint (by decide)
      · exact absurd (hfraction _ hmem) (by decide)

/-- A digit with an exponent is no power form. -/
theorem IsDigitWithExponent.not_isPowerForm {text : String} (h : IsDigitWithExponent text)
    (places : Nat) : ¬ IsPowerForm places text := by
  obtain ⟨negative, digit, exponent, rfl, hdigit, sign, digits, rfl, hsign, -, hdigits⟩ := h
  rintro ⟨negative', lead, fraction, exponent', htext, -⟩
  have hmem : '\\' ∈ signChars negative ++ digit :: 'e' :: sign :: digits := by
    rw [← String.toList_ofList (l := signChars negative ++ digit :: 'e' :: sign :: digits), htext]
    simp
  simp only [List.mem_append, List.mem_cons] at hmem
  rcases hmem with hmem | rfl | hmem | rfl | hmem
  · exact absurd hmem (by cases negative <;> decide)
  · exact absurd hdigit (by decide)
  · exact absurd hmem (by decide)
  · exact absurd hsign (by decide)
  · exact absurd (hdigits _ hmem) (by decide)

/-- The characters of an exponent are those of one. -/
theorem isExponent_exponentChars (width : Nat) (e : Int) : IsExponent (exponentChars width e) := by
  refine ⟨_, _, rfl, ?_, ?_, ?_⟩
  · split
    · exact .inr rfl
    · exact .inl rfl
  · exact List.append_ne_nil_of_right_ne_nil _ (digitChars_ne_nil _)
  · intro c hc
    rcases List.mem_append.1 hc with hc | hc
    · exact isDigit_of_mem_zeros hc
    · exact isDigit_of_mem_digitChars hc

/-! ### Digits with a point -/

/-- What stands in front of the point and behind it, if the point is in its place. -/
theorem exists_positionalChars (n : Nat) (exponent : Int) :
    ∃ whole fraction, positionalChars false (digitChars n) exponent = whole ++ pointed fraction ∧
      (∀ c ∈ whole, isDigit c = true) ∧ (∀ c ∈ fraction, isDigit c = true) ∧
        whole.length = exponent.toNat + 1 ∧
          fraction.length = ((digitCount n : Int) - 1 - exponent).toNat := by
  have hdigits : ∀ c ∈ digitChars n, isDigit c = true := fun c hc => isDigit_of_mem_digitChars hc
  have hcount : digitCount n = (digitChars n).length := rfl
  have hpos := digitCount_pos n
  unfold positionalChars
  by_cases hexponent : exponent < 0
  · -- In front of the point there is a zero, and behind it there may be more of them.
    refine ⟨['0'], List.replicate (-exponent - 1).toNat '0' ++ digitChars n, ?_, ?_, ?_, ?_, ?_⟩
    · rw [if_pos hexponent, pointed,
        if_neg (List.append_ne_nil_of_right_ne_nil _ (digitChars_ne_nil n))]
      rfl
    · exact forall_mem_of_all (by decide)
    · intro c hc
      rcases List.mem_append.1 hc with hc | hc
      · exact isDigit_of_mem_zeros hc
      · exact hdigits c hc
    · rw [List.length_singleton]
      omega
    · rw [List.length_append, List.length_replicate, ← hcount]
      omega
  · -- The point stands between two digits, or behind them all and perhaps some zeros.
    rw [if_neg hexponent]
    refine ⟨(digitChars n).take (exponent.toNat + 1) ++
      List.replicate (exponent.toNat + 1 - (digitChars n).length) '0',
      (digitChars n).drop (exponent.toNat + 1), ?_, ?_,
        fun c hc => hdigits c (List.mem_of_mem_drop hc), ?_, ?_⟩
    · simp only [Bool.false_eq_true, if_false]
      split
      · next hnone => rw [hnone, pointed, if_pos rfl, List.append_nil]
      · next hsome => rw [pointed, if_neg hsome]
    · intro c hc
      rcases List.mem_append.1 hc with hc | hc
      · exact hdigits c (List.mem_of_mem_take hc)
      · exact isDigit_of_mem_zeros hc
    · rw [List.length_append, List.length_take, List.length_replicate]
      omega
    · rw [List.length_drop, ← hcount]
      omega

/-- The decimals of a numeral are what stands behind its point. -/
theorem fractionChars_pointed {front : List Char} (h : ∀ c ∈ front, c ≠ '.')
    (fraction : List Char) : Latex.fractionChars (front ++ pointed fraction) = fraction := by
  unfold Latex.fractionChars
  rw [List.dropWhile_append_of_pos (by simpa using h)]
  unfold pointed
  split
  · next hnil => rw [hnil]; rfl
  · rfl

/-- A digit is no point. -/
theorem ne_point_of_isDigit {c : Char} (h : isDigit c = true) : c ≠ '.' := by
  rintro rfl
  exact absurd h (by decide)

/-- Neither is a sign. -/
theorem ne_point_of_mem_signChars {negative : Bool} {c : Char} (h : c ∈ signChars negative) :
    c ≠ '.' := by
  cases negative with
  | false => cases h
  | true =>
    obtain rfl := List.mem_singleton.1 h
    decide

/-! ### The digits of a number -/

section

variable {x : Float} {negative : Bool} {m : Nat} {e : Int}

/-- The number 0 has the digit 0. -/
theorem digitsOf_zero (e : Int) : digitsOf 0 e = ⟨0, 0⟩ :=
  if_pos rfl

/-- Other numbers have their shortest digits. -/
theorem digitsOf_of_pos (hm : 0 < m) : digitsOf m e = shortest m e :=
  if_neg hm.ne'

/-- The count of decimals is the least power of ten that makes the digits a whole number. -/
theorem isLeast_decimals (hn : Normalized m e) :
    IsLeast {k : Nat | ∃ n : Nat, (digitsOf m e).value * 10 ^ k = n} (digitsOf m e).decimals := by
  have hten : (10 : ℚ) ≠ 0 := by norm_num
  have hmod : (digitsOf m e).scale < 0 → (digitsOf m e).digits % 10 ≠ 0 := by
    rcases Nat.eq_zero_or_pos m with rfl | hm
    · rw [digitsOf_zero]
      exact fun h => absurd h (by decide)
    · rw [digitsOf_of_pos hm]
      exact fun _ => (mod_shortest hn hm).2
  have hvalue : ∀ k : Nat, (digitsOf m e).value * 10 ^ k =
      (digitsOf m e).digits * 10 ^ ((digitsOf m e).scale + k) := by
    intro k
    rw [Expansion.value, mul_assoc, zpow_add₀ hten, zpow_natCast]
  constructor
  · refine ⟨(digitsOf m e).digits *
      10 ^ ((digitsOf m e).scale + (digitsOf m e).decimals).toNat, ?_⟩
    have hnonneg : 0 ≤ (digitsOf m e).scale + (digitsOf m e).decimals := by
      unfold Expansion.decimals
      omega
    rw [hvalue]
    push_cast
    rw [← zpow_natCast, Int.toNat_of_nonneg hnonneg]
  · rintro k ⟨n, hk⟩
    by_contra hlt
    -- The last digit would be a zero.
    obtain ⟨j, hj⟩ : ∃ j : Nat, (digitsOf m e).scale + k = -((j + 1 : Nat) : Int) :=
      ⟨((digitsOf m e).decimals - k) - 1, by unfold Expansion.decimals at hlt ⊢; omega⟩
    rw [hvalue, hj, zpow_neg, zpow_natCast, ← div_eq_mul_inv,
      div_eq_iff (pow_ne_zero _ hten)] at hk
    have hdigits : (digitsOf m e).digits = n * 10 ^ (j + 1) := by exact_mod_cast hk
    refine hmod (by omega) ?_
    rw [hdigits, pow_succ, ← mul_assoc, Nat.mul_mod_left]

/-- A number is shown with its shortest digits, and with its sign unless it is zero. -/
theorem toList_display (h : decode x = .finite negative m e) :
    (display.format x).toList =
      signChars (negative && m != 0) ++ display.magnitude (digitsOf m e) := by
  unfold Style.format
  rw [h]
  by_cases hm : m = 0
  · have hzero : display.magnitude ⟨0, 0⟩ = positionalChars false ['0'] 0 := by decide
    have hfraction : display.keepsFraction = false := rfl
    have hsign : display.signedZero = false := rfl
    simp [hm, digitsOf, signChars, hzero, hfraction, hsign]
  · simp [hm, digitsOf, signChars]

/-- Digits with the point in its place. -/
theorem exists_toList_display (h : decode x = .finite negative m e)
    (hlow : -6 ≤ (digitsOf m e).exponent) (hhigh : (digitsOf m e).exponent < 21) :
    ∃ whole fraction, (display.format x).toList =
        signChars (negative && m != 0) ++ whole ++ pointed fraction ∧
      (∀ c ∈ whole, isDigit c = true) ∧ (∀ c ∈ fraction, isDigit c = true) ∧
        whole.length = (digitsOf m e).exponent.toNat + 1 ∧
          fraction.length = (digitsOf m e).decimals := by
  obtain ⟨whole, fraction, htext, hwhole, hfraction, hlength, hdecimals⟩ :=
    exists_positionalChars (digitsOf m e).digits (digitsOf m e).exponent
  refine ⟨whole, fraction, ?_, hwhole, hfraction, hlength, ?_⟩
  · rw [toList_display h, Style.magnitude, if_pos ⟨hlow, hhigh⟩, List.append_assoc]
    exact congrArg _ htext
  · rw [hdecimals, Expansion.decimals, Expansion.exponent]
    congr 1
    omega

/-- Digits with an exponent. -/
theorem toList_display_exponent (h : decode x = .finite negative m e)
    (hout : (digitsOf m e).exponent < -6 ∨ 21 ≤ (digitsOf m e).exponent) :
    (display.format x).toList = signChars (negative && m != 0) ++
      (mantissaChars (digitChars (digitsOf m e).digits) ++
        'e' :: exponentChars 1 (digitsOf m e).exponent) := by
  rw [toList_display h, Style.magnitude, if_neg]
  · rfl
  · rintro ⟨hlow, hhigh⟩
    have hlow' : -6 ≤ (digitsOf m e).exponent := hlow
    have hhigh' : (digitsOf m e).exponent < 21 := hhigh
    omega

/-- A single digit with an exponent. -/
theorem exists_toList_display_digit (h : decode x = .finite negative m e)
    (hout : (digitsOf m e).exponent < -6 ∨ 21 ≤ (digitsOf m e).exponent)
    (hdigits : (digitsOf m e).digits < 10) :
    ∃ digit, (display.format x).toList = signChars (negative && m != 0) ++
      digit :: 'e' :: exponentChars 1 (digitsOf m e).exponent ∧ isDigit digit = true := by
  have hcount : digitCount (digitsOf m e).digits = 1 := by
    have hle := (digitCount_le_iff (by decide)).2 (show (digitsOf m e).digits < 10 ^ 1 from hdigits)
    have := digitCount_pos (digitsOf m e).digits
    omega
  obtain ⟨digit, hdigit⟩ := List.length_eq_one_iff.1 hcount
  refine ⟨digit, ?_, isDigit_of_mem_digitChars (hdigit ▸ List.mem_singleton_self digit)⟩
  rw [toList_display_exponent h hout, hdigit]
  rfl

/-! ### The length of the fraction -/

/-- With the point in its place the fraction is the decimals. -/
theorem length_fraction (h : decode x = .finite negative m e)
    (hlow : -6 ≤ (digitsOf m e).exponent) (hhigh : (digitsOf m e).exponent < 21) :
    (Latex.fractionChars (display.format x).toList).length = (digitsOf m e).decimals := by
  obtain ⟨whole, fraction, htext, hwhole, -, -, hdecimals⟩ := exists_toList_display h hlow hhigh
  rw [htext, fractionChars_pointed, hdecimals]
  intro c hc
  rcases List.mem_append.1 hc with hc | hc
  · exact ne_point_of_mem_signChars hc
  · exact ne_point_of_isDigit (hwhole c hc)

/-- With an exponent the fraction is long as soon as there are two digits: the exponent counts. -/
theorem lt_length_fraction (h : decode x = .finite negative m e)
    (hout : (digitsOf m e).exponent < -6 ∨ 21 ≤ (digitsOf m e).exponent)
    (hdigits : 10 ≤ (digitsOf m e).digits) :
    3 < (Latex.fractionChars (display.format x).toList).length := by
  have hcount : 1 < digitCount (digitsOf m e).digits := by
    by_contra hnot
    have := (digitCount_le_iff (by decide : 0 < 1)).1 (not_lt.1 hnot)
    omega
  obtain ⟨sign, digits, hexponent, -, hne, -⟩ := isExponent_exponentChars 1 (digitsOf m e).exponent
  have hpos := List.length_pos_iff.2 hne
  rw [toList_display_exponent h hout, hexponent]
  match hds : digitChars (digitsOf m e).digits with
  | [] => exact absurd hds (digitChars_ne_nil _)
  | [c] =>
    rw [digitCount, hds, List.length_singleton] at hcount
    omega
  | c :: c' :: cs =>
    have hfront : ∀ a ∈ signChars (negative && m != 0) ++ [c], a ≠ '.' := by
      intro a ha
      rcases List.mem_append.1 ha with ha | ha
      · exact ne_point_of_mem_signChars ha
      · obtain rfl := List.mem_singleton.1 ha
        exact ne_point_of_isDigit (isDigit_of_mem_digitChars (hds ▸ List.mem_cons_self))
    -- The point stands behind the first digit, and the exponent is part of what follows it.
    have htext : signChars (negative && m != 0) ++
        (mantissaChars (c :: c' :: cs) ++ 'e' :: sign :: digits) =
          signChars (negative && m != 0) ++ [c] ++ pointed (c' :: cs ++ 'e' :: sign :: digits) := by
      simp [mantissaChars, pointed]
    rw [htext, fractionChars_pointed hfront]
    simp only [List.length_append, List.length_cons]
    omega

/-- With an exponent and a single digit there is no fraction. -/
theorem length_fraction_digit (h : decode x = .finite negative m e)
    (hout : (digitsOf m e).exponent < -6 ∨ 21 ≤ (digitsOf m e).exponent)
    (hdigits : (digitsOf m e).digits < 10) :
    (Latex.fractionChars (display.format x).toList).length = 0 := by
  obtain ⟨digit, htext, hdigit⟩ := exists_toList_display_digit h hout hdigits
  obtain ⟨sign, digits, hexponent, hsign, -, hall⟩ :=
    isExponent_exponentChars 1 (digitsOf m e).exponent
  have hpoint : ∀ c ∈ (display.format x).toList, c ≠ '.' := by
    rw [htext, hexponent]
    intro c hc
    simp only [List.mem_append, List.mem_cons] at hc
    rcases hc with hc | rfl | rfl | rfl | hc
    · exact ne_point_of_mem_signChars hc
    · exact ne_point_of_isDigit hdigit
    · decide
    · rcases hsign with rfl | rfl <;> decide
    · exact ne_point_of_isDigit (hall c hc)
  have hnone := fractionChars_pointed hpoint []
  rw [pointed, if_pos rfl, List.append_nil] at hnone
  rw [hnone, List.length_nil]

end

/-! ### The length of the whole part -/

/-- A fraction takes one character more with its point. -/
theorem length_pointed (fraction : List Char) :
    (pointed fraction).length = if fraction = [] then 0 else fraction.length + 1 := by
  unfold pointed
  split <;> rfl

/-- The leading digit has six places or more behind it from a million on. -/
theorem six_le_exponent_iff {m : Nat} {e : Int} (hn : Normalized m e) :
    6 ≤ (digitsOf m e).exponent ↔ (10 : ℚ) ^ 6 ≤ m * 2 ^ e := by
  rcases Nat.eq_zero_or_pos m with rfl | hm
  · rw [digitsOf_zero, Nat.cast_zero, zero_mul]
    exact ⟨fun h => absurd h (by decide), fun h => absurd h (by norm_num)⟩
  · rw [digitsOf_of_pos hm]
    refine ⟨fun hle => ?_, fun hle => le_exponent_shortest hn hm hle⟩
    by_contra hnot
    have := exponent_shortest_lt hn hm (show 6 ≤ 15 by decide) (not_le.1 hnot)
    omega

/-- The leading digit of a whole number is not behind the point, and if there are few places its
digits do not go on there. -/
theorem digitsOf_whole {m : Nat} {e : Int} (hn : Normalized m e) {n : Nat}
    (hvalue : (m : ℚ) * 2 ^ e = n) :
    0 ≤ (digitsOf m e).exponent ∧ (n < 10 ^ 6 → (digitsOf m e).decimals = 0) := by
  rcases Nat.eq_zero_or_pos m with rfl | hm
  · rw [digitsOf_zero]
    exact ⟨by decide, fun _ => rfl⟩
  · have hpos : (0 : ℚ) < n := by
      rw [← hvalue]
      positivity
    rw [digitsOf_of_pos hm]
    refine ⟨le_exponent_shortest hn hm ?_, fun hlt => ?_⟩
    · rw [hvalue, zpow_zero]
      exact_mod_cast hpos
    · have hcount := (digitCount_le_iff (by decide)).2 hlt
      have hscale : 0 ≤ (shortest m e).scale :=
        le_scale_shortest hn hm (show digitCount n ≤ 17 by omega)
          (by rw [hvalue, zpow_zero, mul_one])
      unfold Expansion.decimals
      omega

/-- A whole number is shown with more than six characters from a million on. -/
theorem lt_length_display_iff {y : Float} {m : Nat} {e : Int} (h : decode y = .finite false m e)
    {n : Nat} (hvalue : (m : ℚ) * 2 ^ e = n) (hhigh : (digitsOf m e).exponent < 21) :
    6 < (display.format y).length ↔ 10 ^ 6 ≤ n := by
  obtain ⟨hlow, hnone⟩ := digitsOf_whole (normalized_of_decode h) hvalue
  have hiff : 6 ≤ (digitsOf m e).exponent ↔ 10 ^ 6 ≤ n := by
    rw [six_le_exponent_iff (normalized_of_decode h), hvalue]
    exact_mod_cast Iff.rfl
  obtain ⟨whole, fraction, htext, -, -, hwhole, hfraction⟩ :=
    exists_toList_display h (by omega) hhigh
  have hlength : (display.format y).length = whole.length + (pointed fraction).length := by
    rw [← String.length_toList, htext]
    simp [signChars]
  rw [← hiff, hlength, hwhole]
  rcases Nat.lt_or_ge n (10 ^ 6) with hlt | hge
  · have hnil : fraction = [] := List.length_eq_zero_iff.1 (hfraction.trans (hnone hlt))
    rw [length_pointed, if_pos hnil]
    omega
  · have := hiff.2 hge
    omega

section

variable {x : Float} {negative : Bool} {m : Nat} {e : Int}

/-- The number itself, if all its places are in front of the point. -/
theorem floor_abs_of_nonneg (h : decode x = .finite negative m e) (he : 0 ≤ e) :
    floor x.abs = x.abs := by
  unfold floor
  rw [decode_abs h]
  exact if_pos he

/-- The point of a number that is small is in its place. -/
theorem exponent_digitsOf_lt (hn : Normalized m e) (hlt : (m : ℚ) * 2 ^ e < 2 ^ 53) :
    (digitsOf m e).exponent < 21 := by
  rcases Nat.eq_zero_or_pos m with rfl | hm
  · rw [digitsOf_zero]
    decide
  · have hpow : (2 : ℚ) ^ 53 < 10 ^ (20 : Int) := by norm_num
    have := exponent_shortest_le hn hm (hlt.trans hpow)
    rw [digitsOf_of_pos hm]
    omega

/-- The whole part is shown with more than six characters from a million on, as long as the point
is in its place. -/
theorem lt_length_whole_iff (h : decode x = .finite negative m e)
    (hhigh : (digitsOf m e).exponent < 21) :
    6 < (display.format (floor x.abs)).length ↔ (10 : ℚ) ^ 6 ≤ m * 2 ^ e := by
  rcases Int.lt_or_le e 0 with he | he
  · -- The whole part is a binary64 number of its own, and a million is not lost with the fraction.
    obtain ⟨j, rfl⟩ : ∃ j : Nat, e = -j := ⟨e.natAbs, by omega⟩
    obtain ⟨n, k, hfloor, hvalue⟩ := exists_decode_floor (decode_abs h) he
    rw [neg_neg, Int.toNat_natCast] at hvalue
    have hsmall : (n : ℚ) * 2 ^ k < 2 ^ 53 := by
      have := (Nat.div_le_self m (2 ^ j)).trans_lt (normalized_of_decode h).mantissa_lt
      rw [hvalue]
      exact_mod_cast this
    have hsplit : (m : ℚ) * 2 ^ (-(j : Int)) = m / 2 ^ j := by
      rw [zpow_neg, zpow_natCast, div_eq_mul_inv]
    rw [lt_length_display_iff hfloor hvalue
      (exponent_digitsOf_lt (normalized_of_decode hfloor) hsmall),
      Nat.le_div_iff_mul_le (by positivity), hsplit, le_div_iff₀ (by positivity)]
    exact_mod_cast Iff.rfl
  · obtain ⟨j, rfl⟩ := Int.eq_ofNat_of_zero_le he
    have hvalue : (m : ℚ) * 2 ^ (j : Int) = (m * 2 ^ j : Nat) := by
      rw [zpow_natCast]
      push_cast
      rfl
    rw [floor_abs_of_nonneg h he, lt_length_display_iff (decode_abs h) hvalue hhigh, hvalue]
    exact_mod_cast Iff.rfl

/-- The exponent of a finite number has no more than three digits: `2^1024 ≤ 8^342 < 10^342`. -/
theorem exponent_digitsOf_lt_thousand (h : decode x = .finite negative m e) :
    (digitsOf m e).exponent < 1000 := by
  rcases Nat.eq_zero_or_pos m with rfl | hm
  · rw [digitsOf_zero]
    decide
  · have hmantissa : (m : ℚ) < 2 ^ (53 : Int) := by
      exact_mod_cast (normalized_of_decode h).mantissa_lt
    have hexponent := le_of_decode h
    have htwo : (2 : ℚ) ≠ 0 := by norm_num
    have hlt : (m : ℚ) * 2 ^ e < 10 ^ (342 : Int) := by
      calc (m : ℚ) * 2 ^ e < 2 ^ (53 : Int) * 2 ^ e := by gcongr
        _ = 2 ^ (53 + e) := (zpow_add₀ htwo _ _).symm
        _ ≤ 2 ^ ((3 : Int) * 342) := zpow_le_zpow_right₀ (by norm_num) (by omega)
        _ = (2 ^ (3 : Int)) ^ (342 : Int) := zpow_mul _ _ _
        _ ≤ 10 ^ (342 : Int) := zpow_le_zpow_left₀ (by norm_num) (by norm_num) (by norm_num)
    have := exponent_shortest_le (normalized_of_decode h) hm hlt
    rw [digitsOf_of_pos hm]
    omega

/-- A digit with an exponent is short, whatever the number is. -/
theorem length_whole_digit (h : decode x = .finite negative m e)
    (hhigh : 21 ≤ (digitsOf m e).exponent) (hdigits : (digitsOf m e).digits < 10) :
    (display.format (floor x.abs)).length ≤ 6 := by
  -- The number is whole, so the text of its whole part is its own.
  have he : 0 ≤ e := by
    by_contra hneg
    have hmantissa : (m : ℚ) < 2 ^ 53 := by exact_mod_cast (normalized_of_decode h).mantissa_lt
    have hone : (2 : ℚ) ^ e ≤ 1 := zpow_le_one_of_nonpos₀ (by norm_num) (by omega)
    have hsmall : (m : ℚ) * 2 ^ e < 2 ^ 53 := by
      calc (m : ℚ) * 2 ^ e ≤ m * 1 := by gcongr
        _ < 2 ^ 53 := by rwa [mul_one]
    have := exponent_digitsOf_lt (normalized_of_decode h) hsmall
    omega
  obtain ⟨digit, htext, -⟩ := exists_toList_display_digit (decode_abs h) (.inr hhigh) hdigits
  have hcount : digitCount (digitsOf m e).exponent.natAbs ≤ 3 := by
    have := exponent_digitsOf_lt_thousand h
    exact (digitCount_le_iff (by decide)).2 (by omega)
  have hpos := digitCount_pos (digitsOf m e).exponent.natAbs
  rw [floor_abs_of_nonneg h he, ← String.length_toList, htext]
  simp only [signChars, exponentChars, Bool.false_and, Bool.false_eq_true, if_false,
    List.length_append, List.length_cons, List.length_replicate, List.length_nil]
  unfold digitCount at hcount hpos
  omega

end

/-! ### Mantissas -/

/-- A mantissa times a power of ten has all the decimals that are asked for. -/
theorem isPowerForm_timesPowerOfTen {places : Nat} (hplaces : 0 < places) (negative : Bool)
    (m : Nat) (e : Int) : IsPowerForm places (Latex.timesPowerOfTen places negative m e) := by
  obtain ⟨padded, hpadded⟩ : ∃ padded, padded = digitChars (significant places m e).digits ++
    List.replicate (places + 1 - (digitChars (significant places m e).digits).length) '0' :=
    ⟨_, rfl⟩
  have hcount : (digitChars (significant places m e).digits).length ≤ places + 1 :=
    digitCount_significant_le places m e
  have hlength : padded.length = places + 1 := by
    rw [hpadded, List.length_append, List.length_replicate]
    omega
  have hdigits : ∀ c ∈ padded, isDigit c = true := by
    rw [hpadded]
    intro c hc
    rcases List.mem_append.1 hc with hc | hc
    · exact isDigit_of_mem_digitChars hc
    · exact isDigit_of_mem_zeros hc
  have htext : Latex.timesPowerOfTen places negative m e =
      String.ofList (signChars negative ++ mantissaChars padded) ++ " \\times 10^" ++
        Latex.braced (String.ofList
          (exponentChars 1 (if m = 0 then 0 else (significant places m e).exponent))) := by
    rw [hpadded]
    rfl
  -- The first digit stands in front of the point.
  match padded, hlength with
  | [], hlength => cases hlength
  | [c], hlength =>
    rw [List.length_singleton] at hlength
    omega
  | lead :: c :: fraction, hlength =>
    refine ⟨negative, lead, c :: fraction, _, htext, hdigits lead List.mem_cons_self,
      fun a ha => hdigits a (List.mem_cons_of_mem lead ha), ?_, isExponent_exponentChars 1 _⟩
    rw [List.length_cons] at hlength
    omega

end Decimal

/-! ### The form of a number -/

namespace Latex

open Binary64 Decimal

/-- A single digit whose point is not set in its place. -/
def IsRoundBeyondPoint (m : Nat) (e : Int) : Prop :=
  (digitsOf m e).digits < 10 ∧ ((digitsOf m e).exponent < -6 ∨ 21 ≤ (digitsOf m e).exponent)

/-- The conditions are comparisons of numbers. -/
instance (m : Nat) (e : Int) : Decidable (IsRoundBeyondPoint m e) :=
  inferInstanceAs (Decidable (_ ∧ _))

section

variable {x : Float} {negative : Bool} {m : Nat} {e : Int}

/-- A finite number is shown in one of two ways. -/
theorem displayNumber_eq (h : decode x = .finite negative m e) :
    displayNumber {} x = .ok (
      if 6 < (display.format (floor x.abs)).length ∨
        3 < (fractionChars (display.format x).toList).length
      then timesPowerOfTen 4 negative m e else display.format x) := by
  have hmantissa : ¬ (4 : Int) < 0 := by decide
  unfold displayNumber
  rw [h]
  simp only [Bool.or_eq_true, decide_eq_true_eq, if_neg hmantissa, Nat.ofNat_lt_cast]
  split <;> rfl

/-- A single digit whose point is not set in its place has an exponent, and no long part. -/
theorem displayValue_digit (h : decode x = .finite negative m e) (hround : IsRoundBeyondPoint m e) :
    displayValue {} (.float x) = .ok (display.format x) ∧
      IsDigitWithExponent (display.format x) := by
  obtain ⟨hdigits, hout⟩ := hround
  have hwhole : (display.format (floor x.abs)).length ≤ 6 := by
    rcases hout with hlow | hhigh
    · by_contra hlong
      have := (six_le_exponent_iff (normalized_of_decode h)).2
        ((lt_length_whole_iff h (by omega)).1 (not_le.1 hlong))
      omega
    · exact length_whole_digit h hhigh hdigits
  have hfraction := length_fraction_digit h hout hdigits
  constructor
  · have hshown : displayValue {} (.float x) = _ := displayNumber_eq h
    rw [hshown, if_neg (by omega)]
  · obtain ⟨digit, htext, hdigit⟩ := exists_toList_display_digit h hout hdigits
    refine ⟨negative && m != 0, digit, exponentChars 1 (digitsOf m e).exponent, ?_, hdigit,
      isExponent_exponentChars 1 _⟩
    rw [← htext, String.ofList_toList]

/-- Any other number with a long part is shown times a power of ten. -/
theorem displayValue_power (h : decode x = .finite negative m e) (hround : ¬ IsRoundBeyondPoint m e)
    (hlong : (10 : ℚ) ^ 6 ≤ m * 2 ^ e ∨ 3 < (digitsOf m e).decimals) :
    displayValue {} (.float x) = .ok (timesPowerOfTen 4 negative m e) := by
  have hshown : displayValue {} (.float x) = _ := displayNumber_eq h
  rw [hshown, if_pos]
  by_cases hout : (digitsOf m e).exponent < -6 ∨ 21 ≤ (digitsOf m e).exponent
  · -- There is a point in the mantissa, and all that stands behind it counts.
    right
    refine lt_length_fraction h hout ?_
    by_contra hdigits
    exact hround ⟨by omega, hout⟩
  · rcases hlong with hlong | hlong
    · exact .inl ((lt_length_whole_iff h (by omega)).2 hlong)
    · right
      rw [length_fraction h (by omega) (by omega)]
      exact hlong

/-- Without a long part the point is in its place. -/
theorem displayValue_positional (h : decode x = .finite negative m e)
    (hround : ¬ IsRoundBeyondPoint m e)
    (hshort : ¬ ((10 : ℚ) ^ 6 ≤ m * 2 ^ e ∨ 3 < (digitsOf m e).decimals)) :
    displayValue {} (.float x) = .ok (display.format x) ∧ IsPositional 6 3 (display.format x) := by
  obtain ⟨hsmall, hdecimals⟩ := not_or.1 hshort
  have hhigh := (six_le_exponent_iff (normalized_of_decode h)).not.2 hsmall
  -- A digit that far behind the point is a decimal, unless it is the only one.
  have hlow : -6 ≤ (digitsOf m e).exponent := by
    by_contra hlow
    have hdigits : 10 ≤ (digitsOf m e).digits := by
      by_contra hdigits
      exact hround ⟨by omega, .inl (by omega)⟩
    have hpos := digitCount_pos (digitsOf m e).digits
    unfold Expansion.decimals at hdecimals
    unfold Expansion.exponent at hlow
    omega
  constructor
  · have hshown : displayValue {} (.float x) = _ := displayNumber_eq h
    have hwhole := (lt_length_whole_iff h (by omega)).not.2 hsmall
    have hfraction := length_fraction h hlow (by omega)
    rw [hshown, if_neg (by omega)]
  · obtain ⟨whole, fraction, htext, hwhole, hfraction, hlength, hcount⟩ :=
      exists_toList_display h hlow (by omega)
    refine ⟨negative && m != 0, whole, fraction, ?_, hwhole, by omega, by omega, hfraction,
      by omega⟩
    rw [← htext, String.ofList_toList]

/-- A number is shown times a power of ten from a million on, and if its shortest digits have more
than three decimals; otherwise it is shown with the point in its place, with at most six digits in
front of it. But a single digit whose point is not set in its place is shown with an exponent. -/
theorem displays (h : decode x = .finite negative m e) :
    (IsRoundBeyondPoint m e →
      displayValue {} (.float x) = .ok (display.format x) ∧
        IsDigitWithExponent (display.format x)) ∧
    (¬ IsRoundBeyondPoint m e → (10 : ℚ) ^ 6 ≤ m * 2 ^ e ∨ 3 < (digitsOf m e).decimals →
      displayValue {} (.float x) = .ok (timesPowerOfTen 4 negative m e) ∧
        IsPowerForm 4 (timesPowerOfTen 4 negative m e)) ∧
    (¬ IsRoundBeyondPoint m e → ¬ ((10 : ℚ) ^ 6 ≤ m * 2 ^ e ∨ 3 < (digitsOf m e).decimals) →
      displayValue {} (.float x) = .ok (display.format x) ∧
        IsPositional 6 3 (display.format x)) :=
  ⟨displayValue_digit h,
    fun hround hlong => ⟨displayValue_power h hround hlong,
      isPowerForm_timesPowerOfTen (by decide) negative m e⟩,
    displayValue_positional h⟩

end

/-- More than a million, with two decimals. -/
theorem displays_quarter :
    decode 1234567.25 = .finite false 5302425963462656 (-32) ∧
      displayValue {} (.float 1234567.25) =
        .ok (timesPowerOfTen 4 false 5302425963462656 (-32)) ∧
      IsPowerForm 4 (timesPowerOfTen 4 false 5302425963462656 (-32)) ∧
      timesPowerOfTen 4 false 5302425963462656 (-32) = "1.2346 \\times 10^\x7b+6\x7d" := by
  have hdecode : decode 1234567.25 = .finite false 5302425963462656 (-32) := by decide +kernel
  obtain ⟨-, hpower, -⟩ := displays hdecode
  obtain ⟨hshown, hform⟩ := hpower (by decide +kernel) (.inl (by norm_num))
  exact ⟨hdecode, hshown, hform, by decide +kernel⟩

/-- A one with 21 zeros is shown with an exponent, which is neither of the other two forms. -/
theorem displayValue_oneWithZeros :
    displayValue {} (.float 1e21) = .ok "1e+21" ∧ ¬ IsPositional 6 3 "1e+21" ∧
      ¬ IsPowerForm 4 "1e+21" := by
  have hform : IsDigitWithExponent "1e+21" :=
    ⟨false, '1', ['+', '2', '1'], by decide, by decide, '+', ['2', '1'], rfl, .inl rfl, by decide,
      forall_mem_of_all (by decide)⟩
  exact ⟨by decide +kernel, hform.not_isPositional 6 3, hform.not_isPowerForm 4⟩

end Latex

end LiveSheet
