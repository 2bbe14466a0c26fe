import LiveSheet.Binary64.Basic
import Mathlib

/-!
# Rounding to 53 binary digits

A real number is rounded to the nearest of those that have 53 binary digits, and to the one with an
even mantissa if two are equally near (`round53`). In binary64 no digit stands behind `2 ^ -1074`
(`roundBinary64`). The two agree on every number that is not below `2 ^ -1022`, and on the multiples
of `2 ^ -1074`, such as all sums of binary64 numbers (`roundBinary64_eq_round53`). A finite binary64
number stands for a real number (`Binary64.real?`).
-/

namespace LiveSheet

/-! ### The nearest whole number -/

/-- The nearest whole number, and the even one of two that are equally near. -/
noncomputable def roundEven (y : ℝ) : ℤ :=
  if 2 * (y - ⌊y⌋) < 1 then ⌊y⌋
  else if 1 < 2 * (y - ⌊y⌋) then ⌊y⌋ + 1
  else ⌊y⌋ + ⌊y⌋ % 2

/-- A whole number is rounded to itself. -/
theorem roundEven_intCast (n : ℤ) : roundEven n = n := by
  unfold roundEven
  rw [Int.floor_intCast, sub_self, mul_zero, if_pos one_pos]

/-- Rounding goes down to the whole part or up to the next number. -/
theorem roundEven_mem (y : ℝ) : ⌊y⌋ ≤ roundEven y ∧ roundEven y ≤ ⌊y⌋ + 1 := by
  unfold roundEven
  split_ifs <;> omega

/-- The sign of a number does not matter for its rounding. -/
theorem roundEven_neg (y : ℝ) : roundEven (-y) = -roundEven y := by
  obtain ⟨n, hn⟩ : ∃ n, n = ⌊y⌋ := ⟨_, rfl⟩
  by_cases hwhole : y = n
  · rw [hwhole, roundEven_intCast]
    exact_mod_cast roundEven_intCast (-n)
  · have hle : (n : ℝ) ≤ y := hn ▸ Int.floor_le y
    have hlt : y < n + 1 := hn ▸ Int.lt_floor_add_one y
    have hgt : (n : ℝ) < y := lt_of_le_of_ne hle (Ne.symm hwhole)
    have hfloor : ⌊-y⌋ = -n - 1 := by
      apply Int.floor_eq_iff.2
      push_cast
      constructor <;> linarith
    unfold roundEven
    rw [hfloor, ← hn]
    push_cast
    -- Below a half is above a half on the other side, and of two neighbours one is even.
    split_ifs <;> first | omega | (exfalso; linarith)

/-! ### Binary places -/

/-- A number rounded to a multiple of `2 ^ e`. -/
noncomputable def roundTo (e : ℤ) (x : ℝ) : ℝ :=
  roundEven (x / 2 ^ e) * 2 ^ e

/-- The exponent of the last of 53 binary digits of a number. -/
noncomputable def lastPlace (x : ℝ) : ℤ :=
  Int.log 2 |x| - 52

/-- A number rounded to 53 binary digits. -/
noncomputable def round53 (x : ℝ) : ℝ :=
  roundTo (lastPlace x) x

/-- A number rounded to 53 binary digits, none of them behind `2 ^ -1074`. -/
noncomputable def roundBinary64 (x : ℝ) : ℝ :=
  roundTo (max (lastPlace x) (-1074)) x

/-- Rounding to a place is symmetric. -/
theorem roundTo_neg (e : ℤ) (x : ℝ) : roundTo e (-x) = -roundTo e x := by
  unfold roundTo
  rw [neg_div, roundEven_neg]
  push_cast
  ring

/-- Rounding to a float is symmetric. -/
theorem roundBinary64_neg (x : ℝ) : roundBinary64 (-x) = -roundBinary64 x := by
  unfold roundBinary64 lastPlace
  rw [abs_neg, roundTo_neg]

/-- A multiple of `2 ^ e` is a multiple of lower powers of two, and rounded to itself. -/
theorem roundTo_of_multiple {e d : ℤ} (hle : d ≤ e) (n : ℤ) :
    roundTo d (n * 2 ^ e) = n * 2 ^ e := by
  have hquotient : (n : ℝ) * 2 ^ e / 2 ^ d = ((n * 2 ^ (e - d).toNat : ℤ) : ℝ) := by
    have hdiff : ((e - d).toNat : ℤ) = e - d := Int.toNat_of_nonneg (by omega)
    push_cast
    rw [← zpow_natCast, hdiff, zpow_sub₀ two_ne_zero, mul_div_assoc]
  unfold roundTo
  rw [hquotient, roundEven_intCast, ← hquotient]
  exact div_mul_cancel₀ _ (zpow_ne_zero d two_ne_zero)

/-- Zero is rounded to itself. -/
theorem roundTo_zero (e : ℤ) : roundTo e 0 = 0 := by
  have hzero := roundTo_of_multiple (le_refl e) 0
  simpa using hzero

/-- The first binary digit of a number that is not below `2 ^ e`. -/
theorem le_lastPlace {x : ℝ} {e : ℤ} (h : 2 ^ e ≤ |x|) : e - 52 ≤ lastPlace x := by
  have hpos : 0 < |x| := lt_of_lt_of_le (by positivity) h
  have hlog := (Int.zpow_le_iff_le_log (by norm_num : 1 < 2) hpos).1 (by exact_mod_cast h)
  unfold lastPlace
  omega

/-- Where the last of the 53 digits stands before `2 ^ -1074`, or all digits behind it are 0,
binary64 numbers are rounded like all others. -/
theorem roundBinary64_eq_round53 {x : ℝ}
    (h : x = 0 ∨ 2 ^ (-1022 : ℤ) ≤ |x| ∨ ∃ n : ℤ, x = n * 2 ^ (-1074 : ℤ)) :
    roundBinary64 x = round53 x := by
  unfold roundBinary64 round53
  rcases h with rfl | h | ⟨n, rfl⟩
  · rw [roundTo_zero, roundTo_zero]
  · have hplace := le_lastPlace h
    rw [max_eq_left (by omega)]
  · rcases le_total (-1074) (lastPlace (n * 2 ^ (-1074 : ℤ))) with hle | hle
    · rw [max_eq_left hle]
    · rw [max_eq_right hle, roundTo_of_multiple le_rfl, roundTo_of_multiple hle]

/-! ### Scaled numbers -/

/-- The binary digits in front of the last place are those of a number from `2 ^ 52` on. -/
theorem scaled_mem {x : ℝ} (hx : 0 < x) :
    2 ^ 52 ≤ x / 2 ^ lastPlace x ∧ x / 2 ^ lastPlace x < 2 ^ 53 := by
  have hlower := Int.zpow_log_le_self (b := 2) (by norm_num) hx
  have hupper := Int.lt_zpow_succ_log_self (b := 2) (by norm_num) x
  have hplace : lastPlace x = Int.log 2 x - 52 := by rw [lastPlace, abs_of_pos hx]
  push_cast at hlower hupper
  have hpos : (0 : ℝ) < 2 ^ lastPlace x := by positivity
  constructor
  · rw [le_div_iff₀ hpos]
    calc (2 : ℝ) ^ 52 * 2 ^ lastPlace x = 2 ^ Int.log 2 x := by
          rw [← zpow_natCast, ← zpow_add₀ two_ne_zero, hplace]
          congr 1
          push_cast
          ring
      _ ≤ x := hlower
  · rw [div_lt_iff₀ hpos]
    calc x < 2 ^ (Int.log 2 x + 1) := hupper
      _ = (2 : ℝ) ^ 53 * 2 ^ lastPlace x := by
          rw [← zpow_natCast, ← zpow_add₀ two_ne_zero, hplace]
          congr 1
          push_cast
          ring

/-! ### The range of binary64 -/

namespace Binary64

/-- The real number that a binary64 number is, if it is finite. -/
noncomputable def real? (x : Float) : Option ℝ :=
  match decode x with
  | .finite negative m e => some (if negative then -(m * 2 ^ e) else m * 2 ^ e)
  | .infinite _ => none
  | .notANumber => none

/-- The greatest binary64 number. -/
noncomputable def greatest : ℝ :=
  (2 ^ 53 - 1) * 2 ^ (971 : ℤ)

/-- Whether a number is so near to 0 that it has not all of its 53 binary digits in binary64. -/
def IsTiny (v : ℝ) : Prop :=
  v ≠ 0 ∧ |v| < 2 ^ (-1022 : ℤ)

/-- What is not tiny is 0 or has the size of a normal float. -/
theorem zero_or_le_of_not_isTiny {v : ℝ} (h : ¬ IsTiny v) : v = 0 ∨ 2 ^ (-1022 : ℤ) ≤ |v| := by
  by_contra hnot
  rw [not_or, not_le] at hnot
  exact h hnot

end Binary64

end LiveSheet
