import LiveSheet.Proofs.Mantissas

/-!
# The arithmetic of unpacked numbers

Sums, differences, products, quotients and square roots of unpacked binary64 numbers are those of
the real numbers that they hold, rounded: each operation keeps enough digits, and says of the rest
whether it is nothing, less than a half, a half or more.
-/

namespace LiveSheet.Binary64

open Float.Model (UnpackedFloat Format totalExponent)
open Float.Model.UnpackedFloat (Sign Accuracy ExtendedMantissa packComponents unpackSign
  unpackExponent unpackMantissa)

/-! ### Sums and differences -/

/-- The other sign makes the opposite number. -/
theorem signed_neg (s : Sign) (x : ℝ) : signed (-s) x = -signed s x := by
  cases s
  · exact (neg_neg x).symm
  · rfl

/-- The sign does not change the absolute value. -/
theorem abs_signed (s : Sign) (x : ℝ) : |signed s x| = |x| := by
  cases s
  · exact abs_neg x
  · rfl

/-- A mantissa takes the sign of its number. -/
theorem signed_apply (s : Sign) (m : ℕ) (x : ℝ) : signed s (m * x) = s.apply m * x := by
  cases s <;> simp [signed, Sign.apply]

/-- Numbers of either sign are rounded in the same way. -/
theorem roundBinary64_signed (s : Sign) (x : ℝ) :
    roundBinary64 (signed s x) = signed s (roundBinary64 x) := by
  cases s
  · exact roundBinary64_neg x
  · rfl

/-- A number that is held is the nearest to itself. -/
theorem Holds.rounded {f : UnpackedFloat} {x : ℝ} (h : Holds f x) : roundBinary64 x = x := by
  cases h with
  | zero s =>
    unfold roundBinary64
    exact roundTo_zero _
  | @finite s m e hm hnormal =>
    have hplace := lastPlace_mul hm e
    have hlog : m.log2 < 53 := (Nat.log2_lt hm.ne').2 hnormal.mantissa_lt
    have hleast := hnormal.least_le
    rw [roundBinary64_signed]
    unfold roundBinary64
    rw [hplace]
    exact congrArg (signed s) (roundTo_of_multiple (by omega) m)

/-- The opposite number is held with the other sign. -/
theorem Holds.neg {f : UnpackedFloat} {x : ℝ} (h : Holds f x) : Holds f.neg (-x) := by
  cases h with
  | zero s =>
    rw [neg_zero]
    exact .zero (-s)
  | finite s hm hnormal =>
    rw [← signed_neg]
    exact .finite (-s) hm hnormal

/-- Digits are added by a shift. -/
theorem cast_shiftLeft (m : ℕ) {k : ℤ} (hk : 0 ≤ k) : ((m <<< k.toNat : ℕ) : ℝ) = m * 2 ^ k := by
  have hamount : (k.toNat : ℤ) = k := Int.toNat_of_nonneg hk
  rw [Nat.shiftLeft_eq]
  push_cast
  rw [← zpow_natCast, hamount]

/-- A lower exponent does not change the number. -/
theorem decreaseExponent_spec (m : ℕ) (e t : ℤ) :
    (UnpackedFloat.decreaseExponent m e t).2 = min e t ∧
      ((UnpackedFloat.decreaseExponent m e t).1 : ℝ) * 2 ^ min e t = m * 2 ^ e := by
  have hexponent : (UnpackedFloat.decreaseExponent m e t).2 = min e t := by
    unfold UnpackedFloat.decreaseExponent
    simp only
    omega
  refine ⟨hexponent, ?_⟩
  have hsum : e = ((e - t).toNat : ℤ) + min e t := by omega
  unfold UnpackedFloat.decreaseExponent
  simp only [Nat.shiftLeft_eq]
  conv_rhs => rw [hsum, zpow_add₀ two_ne_zero, zpow_natCast]
  push_cast
  ring

/-- Any mantissa is rounded, with whatever exponent. -/
theorem holds_round (s : Sign) {m : ℕ} (hm : 0 < m) (e : ℤ) :
    Holds (UnpackedFloat.round Format.binary64 s m e) (signed s (roundBinary64 (m * 2 ^ e))) := by
  obtain ⟨hexponent, hvalue⟩ := decreaseExponent_spec m e
    (Format.binary64.targetExponent (totalExponent m e))
  have htarget : Format.binary64.targetExponent (totalExponent m e) =
      max (lastPlace ((m : ℝ) * 2 ^ e)) (-1074) := by
    rw [targetExponent_totalExponent, lastPlace_mul hm]
  unfold UnpackedFloat.round
  simp only
  generalize UnpackedFloat.decreaseExponent m e
    (Format.binary64.targetExponent (totalExponent m e)) = decreased at hexponent hvalue ⊢
  obtain ⟨m', e'⟩ := decreased
  simp only at hexponent hvalue ⊢
  rw [← hexponent] at hvalue
  have hunit : (0 : ℝ) < 2 ^ e' := by positivity
  have hm' : 0 < m' := by
    have hpos : 0 < (m' : ℝ) * 2 ^ e' := by
      rw [hvalue]
      positivity
    exact_mod_cast (pos_iff_pos_of_mul_pos hpos).2 hunit
  apply holds_roundWithAccuracy s hm'
  · rw [← hvalue]
    exact brackets_mul m' e'
  · rw [hexponent, htarget]
    exact min_le_right _ _

/-- So is any whole number of units. -/
theorem holds_normalize (m e : ℤ) (zeroSign : Sign) :
    Holds (UnpackedFloat.normalize Format.binary64 m e zeroSign) (roundBinary64 (m * 2 ^ e)) := by
  unfold UnpackedFloat.normalize
  split
  · next horder =>
    have hneg : m < 0 := compare_lt_iff_lt.1 horder
    obtain ⟨n, rfl⟩ : ∃ n : ℕ, m = -n := ⟨m.natAbs, by omega⟩
    rw [show (- -(n : ℤ)).toNat = n by omega]
    have hround := holds_round .negative (show 0 < n by omega) e
    rw [← roundBinary64_signed, signed_apply] at hround
    simpa [Sign.apply] using hround
  · next horder =>
    have hzero : m = 0 := compare_eq_iff_eq.1 horder
    have hheld := Holds.zero zeroSign
    rw [hzero, Int.cast_zero, zero_mul, hheld.rounded]
    exact hheld
  · next horder =>
    have hpos : 0 < m := compare_gt_iff_gt.1 horder
    obtain ⟨n, rfl⟩ : ∃ n : ℕ, m = n := ⟨m.natAbs, by omega⟩
    exact holds_round .positive (show 0 < n by omega) e

/-- The sum is that of the numbers, rounded. -/
theorem holds_add {f f' : UnpackedFloat} {x y : ℝ} (h : Holds f x) (h' : Holds f' y) :
    Holds (UnpackedFloat.add Format.binary64 f f') (roundBinary64 (x + y)) := by
  cases h with
  | zero s =>
    rw [zero_add, h'.rounded]
    cases h' with
    | zero s' => cases s <;> cases s' <;> exact .zero _
    | finite s' hm' hnormal' => exact .finite s' hm' hnormal'
  | @finite s m e hm hnormal =>
    cases h' with
    | zero s' =>
      have hheld := Holds.finite s hm hnormal
      rw [add_zero, hheld.rounded]
      exact hheld
    | @finite s' m' e' hm' hnormal' =>
      unfold UnpackedFloat.add
      simp only
      obtain ⟨-, hvalue⟩ := decreaseExponent_spec m e (min e e')
      obtain ⟨-, hvalue'⟩ := decreaseExponent_spec m' e' (min e e')
      rw [min_eq_right (min_le_left e e')] at hvalue
      rw [min_eq_right (min_le_right e e')] at hvalue'
      -- Both mantissas belong to the lower of the two exponents now.
      have hsum : signed s (m * 2 ^ e) + signed s' (m' * 2 ^ e') =
          ((s.apply (UnpackedFloat.decreaseExponent m e (min e e')).1 +
            s'.apply (UnpackedFloat.decreaseExponent m' e' (min e e')).1 : ℤ) : ℝ) *
              2 ^ min e e' := by
        rw [← hvalue, ← hvalue', signed_apply, signed_apply]
        push_cast
        ring
      rw [hsum]
      exact holds_normalize _ _ _

/-- A difference is the sum with the sign of the second number changed. -/
theorem sub_eq_add {f f' : UnpackedFloat} {x y : ℝ} (h : Holds f x) (h' : Holds f' y) :
    UnpackedFloat.sub Format.binary64 f f' = UnpackedFloat.add Format.binary64 f f'.neg := by
  cases h with
  | zero s =>
    cases h' with
    | zero s' => rfl
    | finite s' hm' hnormal' => rfl
  | finite s hm hnormal =>
    cases h' with
    | zero s' => rfl
    | finite s' hm' hnormal' =>
      unfold UnpackedFloat.sub UnpackedFloat.add UnpackedFloat.neg
      simp only
      congr 1
      rw [sub_eq_add_neg]
      cases s'
      · exact congrArg _ (neg_neg _)
      · rfl

/-! ### Products -/

/-- The signs are multiplied as the numbers are. -/
theorem signed_mul (s s' : Sign) (x y : ℝ) :
    signed (s * s') (x * y) = signed s x * signed s' y := by
  cases s <;> cases s'
  · exact (neg_mul_neg x y).symm
  · exact (neg_mul x y).symm
  · exact (mul_neg x y).symm
  · rfl

/-- The product is that of the numbers, rounded. -/
theorem holds_mul {f f' : UnpackedFloat} {x y : ℝ} (h : Holds f x) (h' : Holds f' y) :
    Holds (UnpackedFloat.mul Format.binary64 f f') (roundBinary64 (x * y)) := by
  cases h with
  | zero s =>
    rw [zero_mul, (Holds.zero s).rounded]
    cases h' with
    | zero s' => exact .zero _
    | finite s' hm' hnormal' => exact .zero _
  | @finite s m e hm hnormal =>
    cases h' with
    | zero s' =>
      rw [mul_zero, (Holds.zero s').rounded]
      exact .zero _
    | @finite s' m' e' hm' hnormal' =>
      have hpos : 0 < m * m' := Nat.mul_pos hm hm'
      have hvalue : (m : ℝ) * 2 ^ e * (m' * 2 ^ e') = (m * m' : ℕ) * 2 ^ (e + e') := by
        rw [zpow_add₀ two_ne_zero]
        push_cast
        ring
      rw [← signed_mul, roundBinary64_signed, hvalue]
      apply holds_roundWithAccuracy _ hpos (brackets_mul (m * m') (e + e'))
      rw [lastPlace_mul hpos]
      by_cases hdigits : 2 ^ 52 ≤ m * m'
      · have := (Nat.le_log2 hpos.ne').2 hdigits
        omega
      -- Two factors without the first digit both have the least exponent.
      · have hle : m ≤ m * m' := Nat.le_mul_of_pos_right m hm'
        have hle' : m' ≤ m * m' := Nat.le_mul_of_pos_left m' hm
        have hleast : ¬ -1074 < e := fun hlt => by
          have := hnormal.full hlt
          omega
        have hleast' : ¬ -1074 < e' := fun hlt => by
          have := hnormal'.full hlt
          omega
        omega

/-! ### Quotients -/

/-- And they are divided as the numbers are. -/
theorem signed_div (s s' : Sign) (x y : ℝ) :
    signed (s / s') (x / y) = signed s x / signed s' y := by
  cases s <;> cases s'
  · exact (neg_div_neg_eq x y).symm
  · exact (neg_div y x).symm
  · exact (div_neg x).symm
  · rfl

/-- The remainder says what is missing from a quotient. -/
theorem brackets_div (n : ℕ) {d : ℕ} (hd : 0 < d) :
    Brackets (.ofMantissaAndAccuracy (n / d) (UnpackedFloat.accuracyOfFraction (n % d) d))
      ((n : ℝ) / d) := by
  have hpos : (0 : ℝ) < d := by exact_mod_cast hd
  have hsplit : (n : ℝ) = (n / d : ℕ) * d + (n % d : ℕ) := by
    exact_mod_cast (Nat.div_add_mod' n d).symm
  have hlt : ((n % d : ℕ) : ℝ) < d := by exact_mod_cast Nat.mod_lt n hd
  have hvalue : (n : ℝ) / d - (n / d : ℕ) = (n % d : ℕ) / d := by
    rw [div_sub' hpos.ne']
    congr 1
    linarith
  unfold UnpackedFloat.accuracyOfFraction
  split
  · next hzero =>
    rw [hzero, Nat.cast_zero, zero_div] at hvalue
    rw [sub_eq_zero.1 hvalue]
    exact brackets_exact _
  · next hne =>
    have hgt : ((n / d : ℕ) : ℝ) < n / d := by
      have : (0 : ℝ) < (n % d : ℕ) / d := by
        have : 0 < n % d := Nat.pos_of_ne_zero hne
        positivity
      linarith
    cases horder : compare (2 * (n % d)) d with
    | lt =>
      have hhalf : 2 * ((n % d : ℕ) : ℝ) < d := by exact_mod_cast compare_lt_iff_lt.1 horder
      refine brackets_lt hgt ?_
      rw [hvalue, ← mul_div_assoc, div_lt_one hpos]
      exact hhalf
    | eq =>
      have hhalf : 2 * ((n % d : ℕ) : ℝ) = d := by exact_mod_cast compare_eq_iff_eq.1 horder
      refine brackets_eq ?_
      rw [hvalue, ← mul_div_assoc, hhalf, div_self hpos.ne']
    | gt =>
      have hhalf : d < 2 * ((n % d : ℕ) : ℝ) := by exact_mod_cast compare_gt_iff_gt.1 horder
      refine brackets_gt ?_ ?_
      · rw [hvalue, ← mul_div_assoc, one_lt_div hpos]
        exact hhalf
      · rw [hvalue, div_lt_one hpos]
        exact hlt

/-- What is divided has as many digits that the quotient has all that are kept, and it comes with
the remainder. -/
theorem divCore_spec {m m' : ℕ} {e e' : ℤ} (hm : 0 < m) (hm' : 0 < m')
    (hv : 2 ^ (-1022 : ℤ) ≤ (m : ℝ) * 2 ^ e / (m' * 2 ^ e')) :
    ∃ q t accuracy, UnpackedFloat.divCore Format.binary64 m e m' e' = (q, t, accuracy) ∧ 0 < q ∧
      Brackets (.ofMantissaAndAccuracy q accuracy) ((m : ℝ) * 2 ^ e / (m' * 2 ^ e') / 2 ^ t) ∧
      t ≤ max (lastPlace ((m : ℝ) * 2 ^ e / (m' * 2 ^ e'))) (-1074) := by
  obtain ⟨v, hvdef⟩ : ∃ v, v = (m : ℝ) * 2 ^ e / (m' * 2 ^ e') := ⟨_, rfl⟩
  obtain ⟨total, htotal⟩ : ∃ total, total = totalExponent m e - totalExponent m' e' := ⟨_, rfl⟩
  obtain ⟨t, ht⟩ : ∃ t, t = min (e - e') (Format.binary64.targetExponent total) := ⟨_, rfl⟩
  obtain ⟨n, hn⟩ : ∃ n, n = m <<< (e - e' - t).toNat := ⟨_, rfl⟩
  rw [← hvdef] at hv ⊢
  have hcore : UnpackedFloat.divCore Format.binary64 m e m' e' =
      (n / m', t, UnpackedFloat.accuracyOfFraction (n % m') m') := by
    unfold UnpackedFloat.divCore
    simp only [← htotal, ← ht, ← hn]
  have hpos : 0 < v := lt_of_lt_of_le (by positivity) hv
  have hplace : -1074 ≤ lastPlace v := by
    have := le_lastPlace (e := -1022) (hv.trans (le_abs_self v))
    omega
  have hle : t ≤ lastPlace v := by
    have hlower : (2 : ℝ) ^ (total - 1) ≤ |v| := by
      have hlog := two_pow_log2_le hm
      have hlog' : (m' : ℝ) ≤ 2 ^ (m'.log2 + 1) := by linarith [add_one_le_two_pow_log2 m']
      have hdigits : total - 1 = ((m.log2 : ℤ) + e) - ((m'.log2 + 1 : ℕ) + e') := by
        rw [htotal]
        unfold totalExponent
        push_cast
        ring
      rw [abs_of_pos hpos, hvdef, hdigits, zpow_sub₀ two_ne_zero, zpow_add₀ two_ne_zero,
        zpow_add₀ two_ne_zero, zpow_natCast, zpow_natCast]
      gcongr
    have := le_lastPlace hlower
    rw [targetExponent_eq] at ht
    omega
  have hscaled : v / 2 ^ t = (n : ℝ) / m' := by
    have hshift : (n : ℝ) = m * 2 ^ (e - e' - t) := hn ▸ cast_shiftLeft m (by omega)
    have hm'0 : (m' : ℝ) ≠ 0 := by exact_mod_cast hm'.ne'
    rw [hvdef, hshift, zpow_sub₀ two_ne_zero, zpow_sub₀ two_ne_zero]
    field_simp
  refine ⟨_, _, _, hcore, ?_, ?_, hle.trans (le_max_left _ _)⟩
  · apply Nat.div_pos _ hm'
    have hone : 1 ≤ (n : ℝ) / m' := by
      calc (1 : ℝ) ≤ 2 ^ 52 := by norm_num
        _ ≤ v / 2 ^ lastPlace v := (scaled_mem hpos).1
        _ ≤ v / 2 ^ t := by
            gcongr
            norm_num
        _ = n / m' := hscaled
    have hm'pos : (0 : ℝ) < m' := by exact_mod_cast hm'
    exact_mod_cast (one_le_div hm'pos).1 hone
  · rw [hscaled]
    exact brackets_div n hm'

/-- The quotient is that of the numbers, rounded, if it is not below the least normal number. -/
theorem holds_div {f f' : UnpackedFloat} {x y : ℝ} (h : Holds f x) (h' : Holds f' y) (hy : y ≠ 0)
    (hxy : x = 0 ∨ 2 ^ (-1022 : ℤ) ≤ |x / y|) :
    Holds (UnpackedFloat.div Format.binary64 f f') (roundBinary64 (x / y)) := by
  cases h' with
  | zero s' => exact absurd rfl hy
  | @finite s' m' e' hm' hnormal' =>
    cases h with
    | zero s =>
      rw [zero_div, (Holds.zero s).rounded]
      exact .zero _
    | @finite s m e hm hnormal =>
      have hpos : (0 : ℝ) < m * 2 ^ e / (m' * 2 ^ e') := by positivity
      have hv : 2 ^ (-1022 : ℤ) ≤ (m : ℝ) * 2 ^ e / (m' * 2 ^ e') := by
        rcases hxy with hzero | hle
        · have hne : (m : ℝ) * 2 ^ e ≠ 0 := by positivity
          exact absurd hzero (by cases s <;> simpa [signed] using hne)
        · rwa [← signed_div, abs_signed, abs_of_pos hpos] at hle
      obtain ⟨q, t, accuracy, hcore, hq, hbrackets, hle⟩ := divCore_spec hm hm' hv
      rw [← signed_div, roundBinary64_signed]
      unfold UnpackedFloat.div
      simp only [hcore]
      exact holds_roundWithAccuracy _ hq hbrackets hle

/-! ### Square roots -/

/-- The remainder says what is missing from a square root. -/
theorem brackets_sqrt (n : ℕ) :
    Brackets (.ofMantissaAndAccuracy n.sqrt (if n - n.sqrt * n.sqrt = 0 then .exact
      else .inexact (if n - n.sqrt * n.sqrt ≤ n.sqrt then .lt else .gt))) (√n) := by
  obtain ⟨root, hroot⟩ : ∃ root, root = n.sqrt := ⟨_, rfl⟩
  have hle : root * root ≤ n := hroot ▸ Nat.sqrt_le n
  have hlt : n < (root + 1) * (root + 1) := hroot ▸ Nat.lt_succ_sqrt n
  have hnonneg : (0 : ℝ) ≤ root := Nat.cast_nonneg root
  rw [← hroot]
  split
  · next hzero =>
    have hsquare : (n : ℝ) = root * root := by exact_mod_cast (show n = root * root by omega)
    rw [hsquare, Real.sqrt_mul_self hnonneg]
    exact brackets_exact root
  · next hne =>
    have hgt : (root : ℝ) < √n := by
      apply Real.lt_sqrt_of_sq_lt
      rw [sq]
      exact_mod_cast (show root * root < n by omega)
    split
    -- No whole number lies between the squares of the root and of the root and a half.
    · next hsmall =>
      have hsquare : (n : ℝ) ≤ root * root + root := by
        exact_mod_cast (show n ≤ root * root + root by omega)
      have hhalf : √n < root + 1 / 2 := by
        rw [Real.sqrt_lt' (by linarith)]
        linarith [sq ((root : ℝ) + 1 / 2), mul_self_nonneg (root : ℝ)]
      exact brackets_lt hgt (by linarith)
    · next hlarge =>
      have hsquare : (root : ℝ) * root + root + 1 ≤ n := by
        exact_mod_cast (show root * root + root + 1 ≤ n by omega)
      have hhalf : root + 1 / 2 < √n := by
        apply Real.lt_sqrt_of_sq_lt
        linarith [sq ((root : ℝ) + 1 / 2)]
      have hupper : √n < root + 1 := by
        rw [Real.sqrt_lt' (by linarith), sq]
        exact_mod_cast hlt
      exact brackets_gt (by linarith) (by linarith)

/-- What the root is taken of has as many digits that the root has all that are kept. -/
theorem sqrtCore_spec {m : ℕ} {e : ℤ} (hm : 0 < m) :
    ∃ root t accuracy, UnpackedFloat.sqrtCore Format.binary64 m e = (root, t, accuracy) ∧
      0 < root ∧ Brackets (.ofMantissaAndAccuracy root accuracy) (√(m * 2 ^ e) / 2 ^ t) ∧
      t ≤ max (lastPlace √(m * 2 ^ e)) (-1074) := by
  obtain ⟨total, htotal⟩ : ∃ total, total = totalExponent m e := ⟨_, rfl⟩
  obtain ⟨t, ht⟩ : ∃ t, t = min (e.ediv 2)
      (Format.binary64.targetExponent ((total + 1).ediv 2)) := ⟨_, rfl⟩
  obtain ⟨n, hn⟩ : ∃ n, n = m <<< (e - 2 * t).toNat := ⟨_, rfl⟩
  have hcore : UnpackedFloat.sqrtCore Format.binary64 m e = (n.sqrt, t,
      if n - n.sqrt * n.sqrt = 0 then .exact
      else .inexact (if n - n.sqrt * n.sqrt ≤ n.sqrt then .lt else .gt)) := by
    unfold UnpackedFloat.sqrtCore
    simp only [← htotal, ← ht, ← hn]
  have hhalf : t ≤ e / 2 := ht ▸ min_le_left _ _
  have hshift : (n : ℝ) = m * 2 ^ (e - 2 * t) := hn ▸ cast_shiftLeft m (by omega)
  have hscaled : √(m * 2 ^ e) / 2 ^ t = √n := by
    have hunit : (0 : ℝ) < 2 ^ t := by positivity
    have hsquare : (m : ℝ) * 2 ^ e = n * (2 ^ t * 2 ^ t) := by
      rw [hshift, ← zpow_add₀ two_ne_zero, mul_assoc, ← zpow_add₀ two_ne_zero]
      congr 2
      ring
    rw [hsquare, Real.sqrt_mul (Nat.cast_nonneg n), Real.sqrt_mul_self hunit.le]
    exact mul_div_cancel_right₀ _ hunit.ne'
  refine ⟨_, _, _, hcore, ?_, ?_, ?_⟩
  · apply Nat.sqrt_pos.2
    have hpos : (0 : ℝ) < n := by
      rw [hshift]
      positivity
    exact_mod_cast hpos
  · rw [hscaled]
    exact brackets_sqrt n
  · have hdigits : (2 : ℝ) ^ ((total + 1) / 2 - 1) ≤ |√(m * 2 ^ e)| := by
      have hlog := two_pow_log2_le hm
      rw [abs_of_nonneg (Real.sqrt_nonneg _)]
      apply Real.le_sqrt_of_sq_le
      calc ((2 : ℝ) ^ ((total + 1) / 2 - 1)) ^ 2 = 2 ^ (2 * ((total + 1) / 2 - 1)) := by
            rw [sq, ← zpow_add₀ two_ne_zero, two_mul]
        _ ≤ 2 ^ ((m.log2 : ℤ) + e) := by
            gcongr
            · norm_num
            · rw [htotal]
              unfold totalExponent
              omega
        _ = 2 ^ m.log2 * 2 ^ e := by rw [zpow_add₀ two_ne_zero, zpow_natCast]
        _ ≤ m * 2 ^ e := by gcongr
    have hplace := le_lastPlace hdigits
    rw [targetExponent_eq] at ht
    have hdiv : (total + 1).ediv 2 = (total + 1) / 2 := rfl
    omega

/-- The square root is that of the number, rounded. -/
theorem holds_sqrt {f : UnpackedFloat} {x : ℝ} (h : Holds f x) (hx : 0 ≤ x) :
    Holds (UnpackedFloat.sqrt Format.binary64 f) (roundBinary64 √x) := by
  cases h with
  | zero s =>
    rw [Real.sqrt_zero, (Holds.zero s).rounded]
    exact .zero s
  | @finite s m e hm hnormal =>
    have hpos : (0 : ℝ) < m * 2 ^ e := by positivity
    cases s with
    | negative => exact absurd hx (not_le.2 (neg_neg_of_pos hpos))
    | positive =>
      obtain ⟨root, t, accuracy, hcore, hroot, hbrackets, hle⟩ := sqrtCore_spec (e := e) hm
      unfold UnpackedFloat.sqrt
      simp only [hcore]
      exact holds_roundWithAccuracy .positive hroot hbrackets hle

end LiveSheet.Binary64
