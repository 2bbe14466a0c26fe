import LiveSheet.Proofs.Arithmetic
import LiveSheet.Proofs.NotANumber

/-!
# The real values of binary64 numbers

A finite binary64 number stands for a real number (`real?`). Sums, differences, products, quotients
and square roots are those of the real numbers, rounded to 53 binary digits, as long as the result
is in range. Below the range a product or a quotient loses digits, but no sum and no square root
does.
-/

namespace LiveSheet.Binary64

open Float.Model (UnpackedFloat Format)
open Float.Model.UnpackedFloat (Sign packComponents unpackSign unpackExponent unpackMantissa)

/-! ### Packed numbers -/

/-- The greatest float is below the power of two that would overflow. -/
theorem greatest_lt : greatest < 2 ^ (1024 : ℤ) := by
  have hunit : (0 : ℝ) < 2 ^ (971 : ℤ) := by positivity
  calc greatest < 2 ^ 53 * 2 ^ (971 : ℤ) := mul_lt_mul_of_pos_right (by norm_num) hunit
    _ = 2 ^ (1024 : ℤ) := by
        rw [← zpow_natCast, ← zpow_add₀ two_ne_zero]
        rfl

/-- The greatest float is not below 2. -/
theorem two_le_greatest : 2 ≤ greatest := by
  calc (2 : ℝ) = 2 * 1 := (mul_one 2).symm
    _ ≤ (2 ^ 53 - 1) * 2 ^ (971 : ℤ) := by
        gcongr
        · norm_num
        · exact one_le_zpow₀ one_le_two (by norm_num)

/-- A number in range has one of the exponents that there are. -/
theorem exponent_le {m : ℕ} {e : ℤ} (h : Normalized m e) (hlt : (m : ℝ) * 2 ^ e < 2 ^ (1024 : ℤ)) :
    e ≤ 971 := by
  by_contra hnot
  have hfull : 2 ^ 52 ≤ m := h.full (by omega)
  have hge : (2 : ℝ) ^ (1024 : ℤ) ≤ m * 2 ^ e := by
    calc (2 : ℝ) ^ (1024 : ℤ) = (2 ^ 52 : ℕ) * 2 ^ (972 : ℤ) := by
          rw [Nat.cast_pow, Nat.cast_ofNat, ← zpow_natCast, ← zpow_add₀ two_ne_zero]
          rfl
      _ ≤ m * 2 ^ e := by
          gcongr
          · norm_num
          · omega
  linarith

/-- The number of an exponent and the digits behind the first one. -/
theorem holds_unpack_normal (s : Sign) {m biased : ℕ} (hpos : 0 < biased) (hbiased : biased < 2047)
    (hfull : 2 ^ 52 ≤ m) (hm : m < 2 ^ 53) :
    Holds (UnpackedFloat.unpack Format.binary64
      (packComponents Format.binary64 s (BitVec.ofNat 11 biased) (BitVec.ofNat 52 m)))
        (signed s (m * 2 ^ ((biased : ℤ) - 1075))) := by
  have hones : BitVec.ofNat 11 biased ≠ -1#11 := by
    intro heq
    have hnat := congrArg BitVec.toNat heq
    rw [BitVec.toNat_ofNat, show (-1#11).toNat = 2047 by decide] at hnat
    omega
  have hzero : BitVec.ofNat 11 biased ≠ 0#11 := by
    intro heq
    have hnat := congrArg BitVec.toNat heq
    rw [BitVec.toNat_ofNat, BitVec.toNat_ofNat] at hnat
    omega
  have hmantissa : (1#1 ++ BitVec.ofNat 52 m).toNat = m := by
    rw [BitVec.toNat_append, BitVec.toNat_ofNat, BitVec.toNat_ofNat,
      ← Nat.shiftLeft_add_eq_or_of_lt (Nat.mod_lt _ (by decide)), Nat.shiftLeft_eq]
    omega
  have hexponent : ((BitVec.ofNat 11 biased).toNat : ℤ) - (Format.binary64.exponentBias + (52 : ℕ)) =
      biased - 1075 := by
    rw [BitVec.toNat_ofNat, show Format.binary64.exponentBias = 1023 from rfl]
    omega
  unfold UnpackedFloat.unpack
  simp only [UnpackedFloat.unpackExponent_packComponents,
    UnpackedFloat.unpackMantissa_packComponents, UnpackedFloat.unpackSign_packComponents,
    Sign.ofBitVec_toBitVec, if_neg hones, if_neg hzero, hmantissa, hexponent]
  exact .finite s _ ⟨hm, by omega, fun _ => hfull⟩

/-- The number of digits that belong to the least exponent. -/
theorem holds_unpack_subnormal (s : Sign) {m : ℕ} (hpos : 0 < m) (hm : m < 2 ^ 52) :
    Holds (UnpackedFloat.unpack Format.binary64
      (packComponents Format.binary64 s 0#11 (BitVec.ofNat 52 m)))
        (signed s (m * 2 ^ (-1074 : ℤ))) := by
  have hmantissa : (BitVec.ofNat 52 m).toNat = m := by
    rw [BitVec.toNat_ofNat]
    omega
  have hzero : BitVec.ofNat 52 m ≠ 0#52 := by
    intro heq
    have hnat := congrArg BitVec.toNat heq
    rw [hmantissa, BitVec.toNat_ofNat] at hnat
    omega
  have hexponent : ((0#11).toNat : ℤ) - (Format.binary64.exponentBias + (52 : ℕ)) + 1 = -1074 :=
    rfl
  unfold UnpackedFloat.unpack
  simp only [UnpackedFloat.unpackExponent_packComponents,
    UnpackedFloat.unpackMantissa_packComponents, UnpackedFloat.unpackSign_packComponents,
    Sign.ofBitVec_toBitVec, hmantissa, hexponent]
  rw [if_neg (by decide), if_pos trivial, dif_neg hzero]
  exact .finite s hpos ⟨by omega, le_rfl, by omega⟩

/-- A normalized number in range stays the same when it is packed. -/
theorem holds_pack {f : UnpackedFloat} {x : ℝ} (h : Holds f x) (hx : |x| < 2 ^ (1024 : ℤ)) :
    Holds (Float.Model.pack f).unpack x := by
  cases h with
  | zero s => cases s <;> exact .zero _
  | @finite s m e hm hnormal =>
    have hpos : (0 : ℝ) < m * 2 ^ e := by positivity
    rw [abs_signed, abs_of_pos hpos] at hx
    have hle := exponent_le hnormal hx
    have hleast := hnormal.least_le
    have hlt := hnormal.mantissa_lt
    have hbiased :
        (e + (Format.binary64.exponentBias : ℤ) + (52 : ℕ)).toNat = (e + 1075).toNat := by
      rw [show Format.binary64.exponentBias = 1023 from rfl]
      omega
    unfold Float.Model.pack Float.Model.unpack UnpackedFloat.pack
    simp only [hbiased]
    rw [if_neg (by norm_num; omega)]
    have hdigits : m.log2 + 1 = Format.binary64.mantissaBits ↔ 2 ^ 52 ≤ m := by
      rw [show Format.binary64.mantissaBits = 53 from rfl, ← Nat.le_log2 hm.ne']
      have := (Nat.log2_lt hm.ne').2 hlt
      omega
    split
    · next hfull =>
      have hexponent : e = ((e + 1075).toNat : ℤ) - 1075 := by omega
      conv => arg 2; rw [hexponent]
      exact holds_unpack_normal s (by omega) (by omega) (hdigits.1 hfull) hlt
    · next hshort =>
      have hnot : ¬ 2 ^ 52 ≤ m := fun hfull => hshort (hdigits.2 hfull)
      have hexponent : e = -1074 := by
        by_contra hne
        exact hnot (hnormal.full (by omega))
      rw [hexponent]
      exact holds_unpack_subnormal s hm (by omega)

/-! ### Real values -/

/-- A float holds one real number only. -/
theorem Holds.unique {f : UnpackedFloat} {x y : ℝ} (h : Holds f x) (h' : Holds f y) : x = y := by
  cases h with
  | zero s =>
    cases h'
    rfl
  | finite s hm hnormal =>
    cases h'
    rfl

/-- The bits of a number, field by field. -/
theorem exists_packComponents (x : Float) : ∃ s : Sign, x.toBits.toBitVec =
    packComponents Format.binary64 s (BitVec.ofNat 11 (fields x).biased)
      (BitVec.ofNat 52 (fields x).fraction) ∧
    ∀ y, signed s y = if (fields x).negative then -y else y := by
  obtain ⟨b, hb⟩ : ∃ b : BitVec Format.binary64.numBits, b = x.toBits.toBitVec := ⟨_, rfl⟩
  obtain ⟨hbiased, hfraction⟩ := fields_lt x
  have hexponent : unpackExponent b = BitVec.ofNat 11 (fields x).biased := by
    apply BitVec.eq_of_toNat_eq
    rw [toNat_unpackExponent, BitVec.toNat_ofNat, Nat.mod_eq_of_lt hbiased, hb]
    rfl
  have hmantissa : unpackMantissa b = BitVec.ofNat 52 (fields x).fraction := by
    apply BitVec.eq_of_toNat_eq
    rw [toNat_unpackMantissa, BitVec.toNat_ofNat, Nat.mod_eq_of_lt hfraction, hb]
    rfl
  have hbit : unpackSign b = 0#1 ↔ (fields x).negative = false := by
    have hlt : b.toNat < 2 ^ 64 := b.isLt
    have hnat : (unpackSign b).toNat = b.toNat / 2 ^ 63 := by
      simp [unpackSign, BitVec.extractLsb, BitVec.extractLsb'_toNat, Nat.shiftRight_eq_div_pow]
      omega
    have hfield : (fields x).negative = decide (2 ^ 63 ≤ b.toNat) := hb ▸ rfl
    rw [← BitVec.toNat_inj, hnat, hfield, decide_eq_false_iff_not, BitVec.toNat_ofNat]
    omega
  refine ⟨Sign.ofBitVec (unpackSign b), ?_, fun y => ?_⟩
  · rw [← hb, ← hexponent, ← hmantissa]
    exact (UnpackedFloat.packComponents_unpackSign_unpackExponent_unpackMantissa b).symm
  · unfold Sign.ofBitVec
    cases hnegative : (fields x).negative with
    | false =>
      rw [if_pos (hbit.2 hnegative)]
      rfl
    | true =>
      rw [if_neg (fun heq => by simp [hbit.1 heq] at hnegative)]
      rfl

/-- What is read off the bits of a number is what Lean computes with. -/
theorem holds_unpack {x : Float} {v : ℝ} (h : real? x = some v) : Holds x.toModel.unpack v := by
  obtain ⟨hbiased, hfraction⟩ := fields_lt x
  obtain ⟨s, hbits, hsign⟩ := exists_packComponents x
  change Holds (UnpackedFloat.unpack Format.binary64 x.toBits.toBitVec) v
  rw [hbits]
  unfold real? at h
  rw [decode_eq] at h
  split at h
  · next hdecode =>
    obtain rfl := Option.some.inj h
    split at hdecode
    · split at hdecode <;> cases hdecode
    split at hdecode
    · next hzero =>
      obtain ⟨rfl, rfl, rfl⟩ := Decoded.finite.inj hdecode
      rw [← hsign, hzero]
      rcases Nat.eq_zero_or_pos (fields x).fraction with hnone | hpos
      · rw [hnone, Nat.cast_zero, zero_mul, show signed s 0 = 0 by cases s <;> simp [signed]]
        have hunpack : UnpackedFloat.unpack Format.binary64 (packComponents Format.binary64 s
            (BitVec.ofNat 11 0) (BitVec.ofNat 52 0)) = .zero s := UnpackedFloat.unpack_packedZero
        rw [hunpack]
        exact .zero s
      · exact holds_unpack_subnormal s hpos hfraction
    · next hspecial hzero =>
      obtain ⟨rfl, rfl, rfl⟩ := Decoded.finite.inj hdecode
      rw [← hsign]
      have hmantissa : BitVec.ofNat 52 (fields x).fraction =
          BitVec.ofNat 52 (2 ^ 52 + (fields x).fraction) := by
        apply BitVec.eq_of_toNat_eq
        rw [BitVec.toNat_ofNat, BitVec.toNat_ofNat]
        omega
      rw [hmantissa]
      exact holds_unpack_normal s (by omega) (by omega) (by omega) (by omega)
  · cases h
  · cases h

/-- And what Lean computes with is read off the bits. -/
theorem real?_of_holds {x : Float} {v : ℝ} (h : Holds x.toModel.unpack v) : real? x = some v := by
  obtain ⟨-, hfraction⟩ := fields_lt x
  obtain ⟨s, hbits, -⟩ := exists_packComponents x
  by_cases hbiased : (fields x).biased = 2047
  -- All bits of the exponent are set, so there is nothing that could be held.
  · exfalso
    change Holds (UnpackedFloat.unpack Format.binary64 x.toBits.toBitVec) v at h
    rw [hbits, hbiased] at h
    unfold UnpackedFloat.unpack at h
    simp only [UnpackedFloat.unpackExponent_packComponents] at h
    rw [if_pos (by decide)] at h
    split at h <;> cases h
  · obtain ⟨u, hu⟩ : ∃ u, real? x = some u := by
      unfold real?
      rw [decode_eq, if_neg hbiased]
      split_ifs <;> exact ⟨_, rfl⟩
    rw [hu, (holds_unpack hu).unique h]

/-- What is in range stays the same when it is packed. -/
theorem real?_of_pack {f : UnpackedFloat} {v : ℝ} (h : Holds f v) (hv : |v| ≤ greatest) {x : Float}
    (hx : x.toModel = Float.Model.pack f) : real? x = some v := by
  apply real?_of_holds
  rw [hx]
  exact holds_pack h (hv.trans_lt greatest_lt)

/-! ### Operations -/

section

variable {x y : Float} {a b : ℝ}

/-- All binary64 numbers are multiples of the least one. -/
theorem Holds.exists_multiple {f : UnpackedFloat} {x : ℝ} (h : Holds f x) :
    ∃ n : ℤ, x = n * 2 ^ (-1074 : ℤ) := by
  cases h with
  | zero s => exact ⟨0, by simp⟩
  | @finite s m e hm hnormal =>
    refine ⟨s.apply (m * 2 ^ (e + 1074).toNat : ℕ), ?_⟩
    have hleast := hnormal.least_le
    have hexponent : e = ((e + 1074).toNat : ℤ) + -1074 := by omega
    rw [← signed_apply]
    conv_lhs => rw [hexponent, zpow_add₀ two_ne_zero, zpow_natCast]
    push_cast
    ring_nf

/-- The negative of a float stands for the negative of its number. -/
theorem real?_neg (hx : real? x = some a) (ha : |a| ≤ greatest) : real? (-x) = some (-a) := by
  apply real?_of_pack (holds_unpack hx).neg _ rfl
  rwa [abs_neg]

/-- Every sum is rounded to 53 digits, because what stands behind them is not below the least
number. -/
theorem real?_add (hx : real? x = some a) (hy : real? y = some b)
    (h : |round53 (a + b)| ≤ greatest) :
    real? (x + y) = some (round53 (a + b)) := by
  have hround : roundBinary64 (a + b) = round53 (a + b) := by
    obtain ⟨n, rfl⟩ := (holds_unpack hx).exists_multiple
    obtain ⟨m, rfl⟩ := (holds_unpack hy).exists_multiple
    apply roundBinary64_eq_round53
    exact .inr (.inr ⟨n + m, by push_cast; ring⟩)
  have hheld := holds_add (holds_unpack hx) (holds_unpack hy)
  rw [hround] at hheld
  exact real?_of_pack hheld h rfl

/-- A difference of floats is the rounded difference of their numbers. -/
theorem real?_sub (hx : real? x = some a) (hy : real? y = some b)
    (h : |round53 (a - b)| ≤ greatest) :
    real? (x - y) = some (round53 (a - b)) := by
  have hround : roundBinary64 (a + -b) = round53 (a - b) := by
    rw [← sub_eq_add_neg]
    obtain ⟨n, rfl⟩ := (holds_unpack hx).exists_multiple
    obtain ⟨m, rfl⟩ := (holds_unpack hy).exists_multiple
    apply roundBinary64_eq_round53
    exact .inr (.inr ⟨n - m, by push_cast; ring⟩)
  have hheld := holds_add (holds_unpack hx) (holds_unpack hy).neg
  rw [← sub_eq_add (holds_unpack hx) (holds_unpack hy), hround] at hheld
  exact real?_of_pack hheld h rfl

/-- A product is rounded to 53 digits unless it is too near to 0. -/
theorem real?_mul (hx : real? x = some a) (hy : real? y = some b) (hab : ¬ IsTiny (a * b))
    (h : |round53 (a * b)| ≤ greatest) : real? (x * y) = some (round53 (a * b)) := by
  have hround : roundBinary64 (a * b) = round53 (a * b) :=
    roundBinary64_eq_round53 ((zero_or_le_of_not_isTiny hab).imp_right .inl)
  have hheld := holds_mul (holds_unpack hx) (holds_unpack hy)
  rw [hround] at hheld
  exact real?_of_pack hheld h rfl

/-- So is a quotient. -/
theorem real?_div (hx : real? x = some a) (hy : real? y = some b) (hb : b ≠ 0)
    (hab : ¬ IsTiny (a / b)) (h : |round53 (a / b)| ≤ greatest) :
    real? (x / y) = some (round53 (a / b)) := by
  have hcases := zero_or_le_of_not_isTiny hab
  have hround : roundBinary64 (a / b) = round53 (a / b) :=
    roundBinary64_eq_round53 (hcases.imp_right .inl)
  have hnormal : a = 0 ∨ 2 ^ (-1022 : ℤ) ≤ |a / b| :=
    hcases.imp_left fun hzero => (div_eq_zero_iff.1 hzero).resolve_right hb
  have hheld := holds_div (holds_unpack hx) (holds_unpack hy) hb hnormal
  rw [hround] at hheld
  exact real?_of_pack hheld h rfl

/-- A square root is never too near to 0. -/
theorem real?_sqrt (hx : real? x = some a) (ha : 0 ≤ a) (h : |round53 √a| ≤ greatest) :
    real? x.sqrt = some (round53 √a) := by
  have hround : roundBinary64 √a = round53 √a := by
    apply roundBinary64_eq_round53
    rcases ha.eq_or_lt with hzero | hpos
    · left
      rw [← hzero, Real.sqrt_zero]
    · right; left
      obtain ⟨n, hn⟩ := (holds_unpack hx).exists_multiple
      have hone : (1 : ℝ) ≤ n := by
        have hunit : (0 : ℝ) < 2 ^ (-1074 : ℤ) := by positivity
        rw [hn] at hpos
        exact_mod_cast (pos_iff_pos_of_mul_pos hpos).2 hunit
      rw [abs_of_nonneg (Real.sqrt_nonneg a)]
      apply Real.le_sqrt_of_sq_le
      calc ((2 : ℝ) ^ (-1022 : ℤ)) ^ 2 = 2 ^ (-2044 : ℤ) := by
            rw [← zpow_natCast, ← zpow_mul]
            norm_num
        _ ≤ 1 * 2 ^ (-1074 : ℤ) := by
            rw [one_mul]
            gcongr <;> norm_num
        _ ≤ a := by
            rw [hn]
            gcongr
  have hheld := holds_sqrt (holds_unpack hx) ha
  rw [hround] at hheld
  exact real?_of_pack hheld h rfl

/-! ### Comparisons -/

/-- What stands for a real number is a number. -/
theorem isNaN_of_real? (hx : real? x = some a) : x.isNaN = false := by
  apply isNaN_of_isFinite
  unfold isFinite
  unfold real? at hx
  cases hdecode : decode x with
  | finite negative m e => rfl
  | infinite negative =>
    rw [hdecode] at hx
    cases hx
  | notANumber =>
    rw [hdecode] at hx
    cases hx

/-- A signed magnitude is above zero if its sign is positive. -/
theorem signed_pos_iff {s : Sign} {v : ℝ} (hv : 0 < v) : 0 < signed s v ↔ s = .positive := by
  cases s <;> simp [signed, hv, hv.le]

/-- A signed magnitude is below zero if its sign is negative. -/
theorem signed_neg_iff {s : Sign} {v : ℝ} (hv : 0 < v) : signed s v < 0 ↔ s = .negative := by
  cases s <;> simp [signed, hv, hv.le]

/-- Numbers that are compared as equal stand for one real number. -/
theorem Holds.eq_of_beq {f f' : UnpackedFloat} {a b : ℝ} (h : Holds f a) (h' : Holds f' b)
    (hbeq : f.beq f' = true) : a = b := by
  unfold UnpackedFloat.beq UnpackedFloat.compare at hbeq
  cases h with
  | zero s =>
    cases h' with
    | zero s' => rfl
    | finite s' hm' hnormal' => cases s' <;> simp at hbeq
  | finite s hm hnormal =>
    cases h' with
    | zero s' => cases s <;> simp at hbeq
    | finite s' hm' hnormal' =>
      cases s <;> cases s' <;> simp [Ordering.then_eq_eq] at hbeq
      all_goals
        obtain ⟨rfl, rfl⟩ := hbeq
        rfl

/-- Floats that compare equal stand for the same number. -/
theorem eq_of_beq_of_real? (hx : real? x = some a) (hy : real? y = some b) (h : (x == y) = true) :
    a = b :=
  (holds_unpack hx).eq_of_beq (holds_unpack hy) h

/-- The float 0 stands for 0. -/
theorem real?_zero : real? 0 = some 0 := by
  have hdecode : decode 0 = .finite false 0 (-1074) := by decide +kernel
  rw [real?, hdecode]
  norm_num

/-- The float 1 stands for 1. -/
theorem real?_one : real? 1 = some 1 := by
  have hdecode : decode 1 = .finite false (2 ^ 52) (-52) := by decide +kernel
  rw [real?, hdecode]
  norm_num

/-- A float is below zero if its number is. -/
theorem lt_zero_iff (hx : real? x = some a) : x < 0 ↔ a < 0 := by
  have hlt : x < 0 ↔ x.toModel.unpack.lt (.zero .positive) = true :=
    decide_eq_true_iff
  have hheld := holds_unpack hx
  rw [hlt]
  generalize x.toModel.unpack = f at hheld
  cases hheld with
  | zero s => simp [UnpackedFloat.lt, UnpackedFloat.compare]
  | @finite s m e hm hnormal =>
    have hpos : (0 : ℝ) < m * 2 ^ e := by positivity
    rw [signed_neg_iff hpos]
    cases s <;> simp [UnpackedFloat.lt, UnpackedFloat.compare]

/-- A float is above zero if its number is. -/
theorem zero_lt_iff (hx : real? x = some a) : 0 < x ↔ 0 < a := by
  have hlt : 0 < x ↔ (UnpackedFloat.zero .positive).lt x.toModel.unpack = true :=
    decide_eq_true_iff
  have hheld := holds_unpack hx
  rw [hlt]
  generalize x.toModel.unpack = f at hheld
  cases hheld with
  | zero s => simp [UnpackedFloat.lt, UnpackedFloat.compare]
  | @finite s m e hm hnormal =>
    have hpos : (0 : ℝ) < m * 2 ^ e := by positivity
    rw [signed_pos_iff hpos]
    cases s <;> simp [UnpackedFloat.lt, UnpackedFloat.compare]

/-- A float is not above zero if its number is not. -/
theorem le_zero_iff (hx : real? x = some a) : x ≤ 0 ↔ a ≤ 0 := by
  have hle : x ≤ 0 ↔ x.toModel.unpack.le (.zero .positive) = true :=
    decide_eq_true_iff
  have hheld := holds_unpack hx
  rw [hle, ← not_lt]
  generalize x.toModel.unpack = f at hheld
  cases hheld with
  | zero s => simp [UnpackedFloat.le, UnpackedFloat.compare]
  | @finite s m e hm hnormal =>
    have hpos : (0 : ℝ) < m * 2 ^ e := by positivity
    rw [signed_pos_iff hpos]
    cases s <;> simp [UnpackedFloat.le, UnpackedFloat.compare]

/-- A quotient of numbers in range is a number, unless the divisor is 0. -/
theorem isNaN_div_of_real? (hx : real? x = some a) (hy : real? y = some b) (hb : b ≠ 0) :
    (x / y).isNaN = false := by
  have hnumber : x.toModel.unpack.isNaN = false := isNaN_of_real? hx
  have hregular : IsRegular y.toModel.unpack := by
    have hheld := holds_unpack hy
    generalize y.toModel.unpack = f at hheld
    cases hheld with
    | zero s => exact absurd rfl hb
    | finite s hm hnormal => exact trivial
  exact isNaN_pack (isNaN_div hnumber hregular)

end

end LiveSheet.Binary64
