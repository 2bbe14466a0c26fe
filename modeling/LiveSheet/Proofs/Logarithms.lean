import Mathlib

/-!
# Quotients of complex logarithms

The logarithm to a base can be computed as a quotient of two complex logarithms. Where number and
base are positive and the base is not 1, that is the logarithm that everyone knows. Elsewhere the
quotient is hardly ever a real number, but it is one in three corners (`LogCorner`): at base 0, for
the number 1 to a negative base, and for two negative numbers with the same logarithm.
-/

namespace LiveSheet

open Complex

/-- What is known about the complex logarithms of real numbers, whether they are rounded or not. -/
structure IsLogarithm (log : ℝ → ℂ) : Prop where
  im_of_pos : ∀ {x : ℝ}, 0 < x → (log x).im = 0
  im_of_neg : ∀ {x : ℝ}, x < 0 → (log x).im = Real.pi
  eq_zero_iff : ∀ {x : ℝ}, 0 < x → (log x = 0 ↔ x = 1)

/-- The principal values are such logarithms. -/
theorem isLogarithm_log : IsLogarithm fun x => Complex.log x where
  im_of_pos {x} hx := by
    rw [Complex.log_im, Complex.arg_ofReal_of_nonneg hx.le]
  im_of_neg {x} hx := by
    rw [Complex.log_im, Complex.arg_ofReal_of_neg hx]
  eq_zero_iff {x} hx := by
    rw [← Complex.ofReal_log hx.le, Complex.ofReal_eq_zero]
    constructor
    · exact Real.eq_one_of_pos_of_log_eq_zero hx
    · rintro rfl
      exact Real.log_one

/-- The quotient of the logarithms of two numbers, where it is a finite real number. The logarithm
of 0 is infinite. -/
noncomputable def logQuotient? (log : ℝ → ℂ) (v b : ℝ) : Option ℝ :=
  if v = 0 then none
  else if b = 0 then some 0
  else if log b = 0 then none
  else if (log v / log b).im = 0 then some (log v / log b).re
  else none

/-- The numbers and bases outside the domain of the logarithm that have a real quotient. -/
inductive LogCorner (log : ℝ → ℂ) (v b : ℝ) : Prop
  | zero (hv : v ≠ 0) (hb : b = 0)
  | one (hv : v = 1) (hb : b < 0)
  | same (hv : v < 0) (hb : b < 0) (h : log v = log b)

section

variable {log : ℝ → ℂ} {v b : ℝ}

/-- In no corner is the base positive. -/
theorem LogCorner.base_nonpos (h : LogCorner log v b) : b ≤ 0 := by
  cases h with
  | zero hv hb => exact hb.le
  | one hv hb => exact hb.le
  | same hv hb h => exact hb.le

/-- The logarithm of a negative number is not 0. -/
theorem IsLogarithm.ne_zero_of_neg (hlog : IsLogarithm log) (hb : b < 0) : log b ≠ 0 := by
  intro hzero
  have him := hlog.im_of_neg hb
  rw [hzero] at him
  exact Real.pi_ne_zero him.symm

/-- Two negative numbers have a real quotient if their logarithms are the same. -/
theorem im_div_of_neg (hlog : IsLogarithm log) (hv : v < 0) (hb : b < 0) :
    (log v / log b).im = 0 ↔ log v = log b := by
  have him := hlog.im_of_neg hv
  have him' := hlog.im_of_neg hb
  have hnorm : normSq (log b) ≠ 0 := fun hzero => hlog.ne_zero_of_neg hb (normSq_eq_zero.1 hzero)
  rw [Complex.div_im, him, him', ← sub_div, div_eq_zero_iff, or_iff_left hnorm,
    mul_comm Real.pi, ← sub_mul, mul_eq_zero, or_iff_left Real.pi_ne_zero, sub_eq_zero]
  constructor
  · intro hre
    exact Complex.ext hre.symm (him.trans him'.symm)
  · intro heq
    rw [heq]

/-- A positive number has a real quotient to a negative base if its logarithm is 0. -/
theorem im_div_of_pos_of_neg (hlog : IsLogarithm log) (hv : 0 < v) (hb : b < 0) :
    (log v / log b).im = 0 ↔ v = 1 := by
  have him := hlog.im_of_pos hv
  have him' := hlog.im_of_neg hb
  have hnorm : normSq (log b) ≠ 0 := fun hzero => hlog.ne_zero_of_neg hb (normSq_eq_zero.1 hzero)
  rw [Complex.div_im, him, him', zero_mul, zero_div, zero_sub, neg_eq_zero, div_eq_zero_iff,
    or_iff_left hnorm, mul_eq_zero, or_iff_left Real.pi_ne_zero, ← hlog.eq_zero_iff hv]
  constructor
  · intro hre
    exact Complex.ext hre him
  · intro hzero
    rw [hzero]
    rfl

/-- A negative number has no real quotient to a positive base. -/
theorem im_div_of_neg_of_pos (hlog : IsLogarithm log) (hv : v < 0) (hb : 0 < b) (hne : log b ≠ 0) :
    (log v / log b).im ≠ 0 := by
  have him := hlog.im_of_neg hv
  have him' := hlog.im_of_pos hb
  have hre : (log b).re ≠ 0 := fun hre => hne (Complex.ext hre him')
  have hnorm : normSq (log b) ≠ 0 := fun hzero => hne (normSq_eq_zero.1 hzero)
  rw [Complex.div_im, him, him', mul_zero, zero_div, sub_zero]
  exact div_ne_zero (mul_ne_zero Real.pi_ne_zero hre) hnorm

/-- Outside the domain of the logarithm there is a quotient only in the corners. -/
theorem logCorner_of_isSome (hlog : IsLogarithm log) (hdomain : ¬ (0 < v ∧ 0 < b ∧ b ≠ 1))
    (hsome : (logQuotient? log v b).isSome) : LogCorner log v b := by
  unfold logQuotient? at hsome
  split at hsome
  · cases hsome
  next hv =>
  split at hsome
  · next hb => exact .zero hv hb
  next hb =>
  split at hsome
  · cases hsome
  next hne =>
  split at hsome
  · next him =>
    rcases lt_or_gt_of_ne hv with hneg | hpos <;> rcases lt_or_gt_of_ne hb with hneg' | hpos'
    · exact .same hneg hneg' ((im_div_of_neg hlog hneg hneg').1 him)
    · exact absurd him (im_div_of_neg_of_pos hlog hneg hpos' hne)
    · exact .one ((im_div_of_pos_of_neg hlog hpos hneg').1 him) hneg'
    -- Both are positive, so the base is 1 and its logarithm is 0.
    · exact absurd ⟨hpos, hpos', fun hone => hne ((hlog.eq_zero_iff hpos').2 hone)⟩ hdomain
  · cases hsome

/-- Of two negative numbers with the same logarithm it is 1. -/
theorem logQuotient?_of_eq (hlog : IsLogarithm log) (hv : v < 0) (hb : b < 0) (h : log v = log b) :
    logQuotient? log v b = some 1 := by
  unfold logQuotient?
  rw [if_neg hv.ne, if_neg hb.ne, if_neg (hlog.ne_zero_of_neg hb),
    if_pos ((im_div_of_neg hlog hv hb).2 h), h, div_self (hlog.ne_zero_of_neg hb), Complex.one_re]

/-- In the other corners it is 0. -/
theorem LogCorner.logQuotient? (hlog : IsLogarithm log) (h : LogCorner log v b) :
    logQuotient? log v b = some 0 ∨ logQuotient? log v b = some 1 := by
  cases h with
  | zero hv hb =>
    left
    rw [LiveSheet.logQuotient?, if_neg hv, if_pos hb]
  | one hv hb =>
    left
    have hpos : 0 < v := hv ▸ one_pos
    rw [LiveSheet.logQuotient?, if_neg hpos.ne', if_neg hb.ne, if_neg (hlog.ne_zero_of_neg hb),
      if_pos ((im_div_of_pos_of_neg hlog hpos hb).2 hv), (hlog.eq_zero_iff hpos).2 hv, zero_div,
      Complex.zero_re]
  | same hv hb h => exact .inr (logQuotient?_of_eq hlog hv hb h)

end

end LiveSheet
