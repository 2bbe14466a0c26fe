import LiveSheet.Proofs.Bits
import LiveSheet.Proofs.Rounding

/-!
# Mantissas and what is missing from them

Lean computes with binary64 numbers by a mantissa of which only as many digits are kept as are
needed, and two more bits that say how much is missing. `Brackets` is what these say of the exact
number, and shifting keeps it. So the number is rounded to the nearest binary64 number at the end
(`holds_roundWithAccuracy`), but for those that are out of range, which are not cut off yet.
-/

namespace LiveSheet.Binary64

open Float.Model (UnpackedFloat Format totalExponent)
open Float.Model.UnpackedFloat (Sign Accuracy ExtendedMantissa roundWithAccuracy shiftToExponent
  shiftToTargetExponent)

/-! ### Residual bits -/

/-- How many halves of a unit there are in a mantissa with its round bit. -/
def halves (em : ExtendedMantissa) : ℕ :=
  2 * em.mantissa + em.roundBit.toNat

/-- Whether a mantissa with its residual bits is that of a number: the round bit is the digit behind
the mantissa, and the sticky bit says if there is another one behind it. -/
structure Brackets (em : ExtendedMantissa) (y : ℝ) : Prop where
  le : (halves em : ℝ) ≤ 2 * y
  lt : 2 * y < halves em + 1
  sticky : em.stickyBit = false ↔ 2 * y = halves em

/-- The mantissa is the whole part of the number. -/
theorem Brackets.floor {em : ExtendedMantissa} {y : ℝ} (h : Brackets em y) :
    ⌊y⌋ = em.mantissa := by
  have hround := em.roundBit.toNat_le
  have hle := h.le
  have hlt := h.lt
  have hbit : ((em.roundBit.toNat : ℕ) : ℝ) ≤ 1 := by exact_mod_cast hround
  have hbit' : (0 : ℝ) ≤ (em.roundBit.toNat : ℕ) := Nat.cast_nonneg _
  unfold halves at hle hlt
  push_cast at hle hlt
  apply Int.floor_eq_iff.2
  push_cast
  constructor <;> linarith

/-- One digit less: the last digit of the mantissa becomes the round bit. -/
theorem Brackets.shiftRightOne {em : ExtendedMantissa} {y : ℝ} (h : Brackets em y) :
    Brackets em.shiftRightOne (y / 2) := by
  have hhalves : halves em.shiftRightOne = em.mantissa := by
    unfold halves ExtendedMantissa.shiftRightOne
    rcases Nat.mod_two_eq_zero_or_one em.mantissa with hdigit | hdigit <;> simp [hdigit] <;> omega
  have hfloor := Int.floor_eq_iff.1 h.floor
  have hwhole : em.shiftRightOne.stickyBit = false ↔ y = em.mantissa := by
    have hsticky := h.sticky
    unfold halves at hsticky
    unfold ExtendedMantissa.shiftRightOne
    cases hround : em.roundBit with
    | false =>
      rw [hround] at hsticky
      simp only [Bool.false_or, hsticky, Bool.toNat_false, add_zero]
      push_cast
      constructor <;> intro heq <;> linarith
    | true =>
      have hle := h.le
      unfold halves at hle
      rw [hround, Bool.toNat_true] at hle
      push_cast at hle
      simp only [Bool.true_or]
      constructor
      · intro heq
        cases heq
      · intro heq
        exfalso
        linarith
  constructor
  · rw [hhalves]
    push_cast at hfloor
    linarith [hfloor.1]
  · rw [hhalves]
    push_cast at hfloor
    linarith [hfloor.2]
  · rw [hhalves, hwhole, mul_div_cancel₀ _ two_ne_zero]

/-- Any number of digits less. -/
theorem Brackets.shiftRight {em : ExtendedMantissa} {y : ℝ} (h : Brackets em y) (n : ℕ) :
    Brackets (em >>> n) (y / 2 ^ n) := by
  change Brackets (n.repeat ExtendedMantissa.shiftRightOne em) _
  induction n with
  | zero => simpa [Nat.repeat] using h
  | succ n ih =>
    rw [Nat.repeat, pow_succ, ← div_div]
    exact ih.shiftRightOne

/-- The residual bits suffice to round the number. -/
theorem Brackets.roundedMantissa {em : ExtendedMantissa} {y : ℝ} (h : Brackets em y) :
    (em.roundedMantissa : ℤ) = roundEven y := by
  obtain ⟨m, roundBit, stickyBit⟩ := em
  have hfloor : ⌊y⌋ = m := h.floor
  have hle := h.le
  have hlt := h.lt
  have hsticky := h.sticky
  unfold halves at hle hlt hsticky
  unfold roundEven
  rw [hfloor]
  cases roundBit <;> cases stickyBit <;>
    simp only [ExtendedMantissa.roundedMantissa, ExtendedMantissa.accuracy,
      Accuracy.roundToNearestEven, Bool.toNat_false, Bool.toNat_true, add_zero, true_iff,
      Bool.true_eq_false, false_iff] at hle hlt hsticky ⊢ <;>
    push_cast at hle hlt hsticky ⊢
  · rw [if_pos (by linarith)]
  · rw [if_pos (by linarith)]
  · rw [if_neg (by linarith), if_neg (by linarith)]
  · have hne := lt_of_le_of_ne hle (Ne.symm hsticky)
    rw [if_neg (by linarith), if_pos (by linarith)]

/-- A number with nothing behind its mantissa. -/
theorem brackets_exact (m : ℕ) : Brackets (.ofMantissaAndAccuracy m .exact) m := by
  constructor <;> simp [halves, ExtendedMantissa.ofMantissaAndAccuracy]

/-- A number with less than a half behind its mantissa. -/
theorem brackets_lt {m : ℕ} {y : ℝ} (hgt : m < y) (hlt : 2 * (y - m) < 1) :
    Brackets (.ofMantissaAndAccuracy m (.inexact .lt)) y := by
  constructor <;> simp only [halves, ExtendedMantissa.ofMantissaAndAccuracy, Bool.toNat_false,
    add_zero, Bool.true_eq_false, false_iff] <;> push_cast
  · linarith
  · linarith
  · intro heq
    linarith

/-- A number with a half behind its mantissa. -/
theorem brackets_eq {m : ℕ} {y : ℝ} (heq : 2 * (y - m) = 1) :
    Brackets (.ofMantissaAndAccuracy m (.inexact .eq)) y := by
  constructor <;> simp only [halves, ExtendedMantissa.ofMantissaAndAccuracy, Bool.toNat_true,
    true_iff] <;> push_cast
  · linarith
  · linarith
  · linarith

/-- A number with more than a half behind its mantissa. -/
theorem brackets_gt {m : ℕ} {y : ℝ} (hgt : 1 < 2 * (y - m)) (hlt : y - m < 1) :
    Brackets (.ofMantissaAndAccuracy m (.inexact .gt)) y := by
  constructor <;> simp only [halves, ExtendedMantissa.ofMantissaAndAccuracy, Bool.toNat_true,
    Bool.true_eq_false, false_iff] <;> push_cast
  · linarith
  · linarith
  · intro heq
    linarith

/-! ### Rounded mantissas -/

/-- A number with the given sign. -/
def signed (s : Sign) (x : ℝ) : ℝ :=
  match s with
  | .negative => -x
  | .positive => x

/-- Whether an unpacked number is a normalized one of the given value. -/
inductive Holds : UnpackedFloat → ℝ → Prop
  | zero (s : Sign) : Holds (.zero s) 0
  | finite (s : Sign) {m : ℕ} {e : ℤ} (hm : 0 < m) (h : Normalized m e) :
      Holds (.finite s m e hm) (signed s (m * 2 ^ e))

/-- The first digit of a number is worth no more than the number. -/
theorem two_pow_log2_le {m : ℕ} (hm : 0 < m) : (2 : ℝ) ^ m.log2 ≤ m := by
  exact_mod_cast Nat.log2_self_le hm.ne'

/-- And the place before it is worth more. -/
theorem add_one_le_two_pow_log2 (m : ℕ) : (m : ℝ) + 1 ≤ 2 ^ (m.log2 + 1) := by
  exact_mod_cast (Nat.lt_log2_self : m < 2 ^ (m.log2 + 1))

/-- The place of the first digit is that of the mantissa, as long as it is not 0. -/
theorem lastPlace_of_brackets {m : ℕ} (hm : 0 < m) {e : ℤ} {x : ℝ} (hle : m ≤ x / 2 ^ e)
    (hlt : x / 2 ^ e < m + 1) : 0 < x ∧ lastPlace x = m.log2 + e - 52 := by
  have hunit : (0 : ℝ) < 2 ^ e := by positivity
  have hpos : 0 < x := by
    have hquotient : 0 < x / 2 ^ e := lt_of_lt_of_le (by exact_mod_cast hm) hle
    exact (div_pos_iff_of_pos_right hunit).1 hquotient
  have hlower : (2 : ℝ) ^ ((m.log2 : ℤ) + e) ≤ x := by
    calc (2 : ℝ) ^ ((m.log2 : ℤ) + e) = 2 ^ m.log2 * 2 ^ e := by
          rw [zpow_add₀ two_ne_zero, zpow_natCast]
      _ ≤ m * 2 ^ e := by
          have := two_pow_log2_le hm
          gcongr
      _ ≤ x := (le_div_iff₀ hunit).1 hle
  have hupper : x < (2 : ℝ) ^ ((m.log2 : ℤ) + e + 1) := by
    calc x < (m + 1) * 2 ^ e := (div_lt_iff₀ hunit).1 hlt
      _ ≤ 2 ^ (m.log2 + 1) * 2 ^ e := by
          have := add_one_le_two_pow_log2 m
          gcongr
      _ = (2 : ℝ) ^ ((m.log2 : ℤ) + e + 1) := by
          rw [← zpow_natCast, ← zpow_add₀ two_ne_zero]
          congr 1
          push_cast
          ring
  refine ⟨hpos, ?_⟩
  have hlog : Int.log 2 x = m.log2 + e := by
    have hle' := (Int.zpow_le_iff_le_log (b := 2) (by norm_num) hpos).1 (by exact_mod_cast hlower)
    have hlt' := (Int.lt_zpow_iff_log_lt (b := 2) (by norm_num) hpos).1 (by exact_mod_cast hupper)
    omega
  rw [lastPlace, abs_of_pos hpos, hlog]

/-- In particular a whole number of units has its first digit where the number has it. -/
theorem lastPlace_mul {m : ℕ} (hm : 0 < m) (e : ℤ) :
    lastPlace ((m : ℝ) * 2 ^ e) = m.log2 + e - 52 := by
  have hquotient : (m : ℝ) * 2 ^ e / 2 ^ e = m := mul_div_cancel_right₀ _ (by positivity)
  apply (lastPlace_of_brackets hm _ _).2
  · rw [hquotient]
  · rw [hquotient]
    exact lt_add_one _

/-- And nothing is missing from its mantissa. -/
theorem brackets_mul (m : ℕ) (e : ℤ) :
    Brackets (.ofMantissaAndAccuracy m .exact) ((m : ℝ) * 2 ^ e / 2 ^ e) := by
  rw [mul_div_cancel_right₀ _ (by positivity)]
  exact brackets_exact m

/-- The exponent of the last of 53 digits, or the least one. -/
theorem targetExponent_eq (total : ℤ) :
    Format.binary64.targetExponent total = max (total - 53) (-1074) := by
  unfold Format.targetExponent Format.mantissaBits Format.minExponent
  simp only [Format.mantissaBits]
  norm_num

/-- The exponent that a mantissa is shifted to, by the place of its first digit. -/
theorem targetExponent_totalExponent (m : ℕ) (e : ℤ) :
    Format.binary64.targetExponent (totalExponent m e) = max (m.log2 + e - 52) (-1074) := by
  rw [targetExponent_eq]
  unfold totalExponent
  omega

/-- A mantissa with at most 53 digits stays as it is. -/
theorem shift_of_lt {m : ℕ} {e : ℤ} (hm : m < 2 ^ 53) (he : -1074 ≤ e) :
    shiftToTargetExponent Format.binary64 m e .exact = (.ofMantissaAndAccuracy m .exact, e) := by
  have hlog : m.log2 ≤ 52 := by
    by_cases hzero : m = 0
    · rw [hzero]
      decide
    · have := (Nat.log2_lt hzero).2 hm
      omega
  have hamount : (Format.binary64.targetExponent (totalExponent m e) - e).toNat = 0 := by
    rw [targetExponent_totalExponent]
    omega
  unfold shiftToTargetExponent shiftToExponent
  simp only [hamount]
  exact Prod.ext rfl (add_zero e)

/-- One that has been rounded up to `2 ^ 53` loses its last digit, which is 0. -/
theorem shift_of_eq {e : ℤ} (he : -1074 ≤ e) :
    shiftToTargetExponent Format.binary64 (2 ^ 53) e .exact =
      (.ofMantissaAndAccuracy (2 ^ 52) .exact, e + 1) := by
  have hamount : (Format.binary64.targetExponent (totalExponent (2 ^ 53) e) - e).toNat = 1 := by
    rw [targetExponent_totalExponent, Nat.log2_two_pow]
    omega
  unfold shiftToTargetExponent shiftToExponent
  simp only [hamount]
  rfl

/-- A mantissa with at least as many digits as are kept is shifted to the last place that is
kept. -/
theorem shift_of_brackets {m : ℕ} {e : ℤ} {accuracy : Accuracy} {x : ℝ} (hm : 0 < m)
    (hx : Brackets (.ofMantissaAndAccuracy m accuracy) (x / 2 ^ e))
    (he : e ≤ max (lastPlace x) (-1074)) :
    0 < x ∧ ∃ shifted, Brackets shifted (x / 2 ^ max (lastPlace x) (-1074)) ∧
      shiftToTargetExponent Format.binary64 m e accuracy =
        (shifted, max (lastPlace x) (-1074)) := by
  have hmantissa : (ExtendedMantissa.ofMantissaAndAccuracy m accuracy).mantissa = m := by
    cases accuracy with
    | exact => rfl
    | inexact order => cases order <;> rfl
  have hfloor := Int.floor_eq_iff.1 hx.floor
  rw [hmantissa] at hfloor
  push_cast at hfloor
  obtain ⟨hpos, hplace⟩ := lastPlace_of_brackets hm hfloor.1 hfloor.2
  obtain ⟨t, ht⟩ : ∃ t, t = max (lastPlace x) (-1074) := ⟨_, rfl⟩
  rw [← ht] at he ⊢
  have htarget : Format.binary64.targetExponent (totalExponent m e) = t := by
    rw [targetExponent_totalExponent, ht, hplace]
  obtain ⟨k, hk⟩ : ∃ k : ℕ, t = e + k := ⟨(t - e).toNat, by omega⟩
  have hamount : (t - e).toNat = k := by omega
  refine ⟨hpos, ExtendedMantissa.ofMantissaAndAccuracy m accuracy >>> k, ?_, ?_⟩
  · rw [hk, zpow_add₀ two_ne_zero, ← div_div, zpow_natCast]
    exact hx.shiftRight k
  · unfold shiftToTargetExponent shiftToExponent
    simp only [htarget, hamount]
    rw [← hk]

/-- A number that is rounded at the last place that is kept has 53 digits, or is `2 ^ 53` units, or
has fewer digits and the least place. -/
theorem roundEven_bounds {x : ℝ} (hpos : 0 < x) {t : ℤ} (ht : t = max (lastPlace x) (-1074)) {n : ℕ}
    (hn : (n : ℤ) = roundEven (x / 2 ^ t)) : n ≤ 2 ^ 53 ∧ (-1074 < t → 2 ^ 52 ≤ n) := by
  obtain ⟨hfull, hbelow⟩ := scaled_mem hpos
  constructor
  · have hlt : x / 2 ^ t < 2 ^ 53 := by
      refine lt_of_le_of_lt ?_ hbelow
      gcongr
      · norm_num
      · omega
    have hwhole : ⌊x / 2 ^ t⌋ < 2 ^ 53 := Int.floor_lt.2 (by exact_mod_cast hlt)
    have := (roundEven_mem (x / 2 ^ t)).2
    omega
  · intro hgreater
    rw [show t = lastPlace x by omega] at hn
    have hwhole : 2 ^ 52 ≤ ⌊x / 2 ^ lastPlace x⌋ := Int.le_floor.2 (by exact_mod_cast hfull)
    have := (roundEven_mem (x / 2 ^ lastPlace x)).1
    omega

/-- A mantissa that is that of a number, with at least as many digits as are kept, is rounded to a
normalized number, and this is the number rounded. -/
theorem holds_roundWithAccuracy (s : Sign) {m : ℕ} {e : ℤ} {accuracy : Accuracy} {x : ℝ}
    (hm : 0 < m) (hx : Brackets (.ofMantissaAndAccuracy m accuracy) (x / 2 ^ e))
    (he : e ≤ max (lastPlace x) (-1074)) :
    Holds (roundWithAccuracy Format.binary64 s m e accuracy) (signed s (roundBinary64 x)) := by
  -- The first shift goes to the last place that is kept, and there the mantissa is rounded.
  obtain ⟨hpos, shifted, hbrackets, hfirst⟩ := shift_of_brackets hm hx he
  obtain ⟨t, ht⟩ : ∃ t, t = max (lastPlace x) (-1074) := ⟨_, rfl⟩
  obtain ⟨n, hn⟩ : ∃ n, n = shifted.roundedMantissa := ⟨_, rfl⟩
  rw [← ht] at hbrackets hfirst
  have hround : (n : ℤ) = roundEven (x / 2 ^ t) := hn ▸ hbrackets.roundedMantissa
  have hvalue : roundBinary64 x = n * 2 ^ t := by
    unfold roundBinary64 roundTo
    rw [← ht, ← hround]
    push_cast
    rfl
  obtain ⟨hle, hdigits⟩ := roundEven_bounds hpos ht hround
  unfold roundWithAccuracy
  simp only [hfirst, ← hn]
  -- The second shift does nothing, unless the mantissa has been rounded up to one digit more.
  rcases hle.lt_or_eq with hlt | heq
  · simp only [shift_of_lt hlt (show -1074 ≤ t by omega), hvalue]
    split
    · next hzero =>
      have hzero' : n = 0 := hzero
      rw [hzero', Nat.cast_zero, zero_mul]
      cases s
      · simpa [signed] using Holds.zero .negative
      · exact .zero .positive
    · exact .finite s _ ⟨hlt, by omega, hdigits⟩
  · have hcarry : (n : ℝ) * 2 ^ t = (2 ^ 52 : ℕ) * 2 ^ (t + 1) := by
      rw [heq, zpow_add_one₀ two_ne_zero]
      push_cast
      ring
    rw [hvalue, hcarry]
    simp only [heq, shift_of_eq (show -1074 ≤ t by omega)]
    exact .finite s _ ⟨by decide, by omega, fun _ => le_rfl⟩

end LiveSheet.Binary64
