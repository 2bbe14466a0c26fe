import LiveSheet.Proofs.Bits

/-!
# Whole numbers in the binary64 range

The nearest binary64 number of a whole number is finite up to half a last place above the greatest
one, and that half itself is rounded away from it (`isFinite_ofInt`). So a whole number is too large
from `2^1024 - 2^970` on.
-/

namespace LiveSheet.Binary64

/-- A number is finite unless all bits of its exponent are set. -/
theorem isFinite_iff (x : Float) : isFinite x = true ↔ (fields x).biased ≠ 2047 := by
  unfold isFinite
  rw [decode_eq]
  by_cases hbiased : (fields x).biased = 2047
  · by_cases hfraction : (fields x).fraction = 0 <;> simp [hbiased, hfraction]
  · by_cases hzero : (fields x).biased = 0 <;> simp [hbiased, hzero]

/-- The infinities are not finite. -/
theorem isFinite_infinity (negative : Bool) : isFinite (infinity negative) = false := by
  cases negative <;> decide +kernel

/-- Bits that are cut off at infinity are those of a finite number if nothing is cut off. -/
theorem isFinite_ofBits (negative : Bool) (n : Nat) :
    isFinite (Float.ofBits (UInt64.ofNat ((if negative then 2 ^ 63 else 0) +
      min n (2047 * 2 ^ 52)))) = true ↔ n < 2047 * 2 ^ 52 := by
  rcases Nat.lt_or_ge n (2047 * 2 ^ 52) with hlt | hge
  · rw [min_eq_left hlt.le, isFinite_iff]
    refine iff_of_true ?_ hlt
    obtain ⟨bits, hbits⟩ : ∃ bits, bits = (if negative then 2 ^ 63 else 0) + n := ⟨_, rfl⟩
    have hexponent : bits < 2 ^ 64 ∧ bits / 2 ^ 52 % 2 ^ 11 ≠ 2047 := by
      cases negative
      · rw [if_neg Bool.false_ne_true] at hbits
        omega
      · rw [if_pos rfl] at hbits
        omega
    have hnat : (UInt64.ofNat bits).toNat = bits := by
      rw [UInt64.toNat_ofNat', Nat.mod_eq_of_lt hexponent.1]
    rw [← hbits]
    show (Float.ofBits (UInt64.ofNat bits)).toBits.toNat / 2 ^ 52 % 2 ^ 11 ≠ 2047
    rw [toBits_ofBits (by rw [hnat]; exact hexponent.2), hnat]
    exact hexponent.2
  · rw [min_eq_right hge]
    exact iff_of_false (Bool.eq_false_iff.1 (isFinite_infinity negative)) (not_lt.2 hge)

/-! ### Rounding -/

/-- A rounded quotient exceeds the quotient by one at most. -/
theorem roundDiv_le (n d : Nat) : roundDiv n d ≤ n / d + 1 := by
  unfold roundDiv
  simp only
  split
  · omega
  · split <;> omega

/-- A quotient is rounded up to an even number from half of the divisor below it on. -/
theorem roundDiv_lt_iff {n p k : Nat} (hp : 0 < p) (hk : 0 < k) :
    roundDiv n (2 * p) < 2 * k ↔ n < 2 * p * (2 * k - 1) + p := by
  obtain ⟨q, hq⟩ : ∃ q, q = n / (2 * p) := ⟨_, rfl⟩
  obtain ⟨s, hs⟩ : ∃ s, s = n % (2 * p) := ⟨_, rfl⟩
  have hn : 2 * p * q + s = n := by rw [hq, hs, Nat.div_add_mod]
  have hlt : s < 2 * p := hs ▸ Nat.mod_lt n (by omega)
  have hround : roundDiv n (2 * p) =
      if 2 * s < 2 * p then q else if 2 * s = 2 * p then q + q % 2 else q + 1 := by
    rw [hq, hs]
    rfl
  rw [hround, ← hn]
  -- Only the quotient just below can go either way, and there a tie goes up, to the even one.
  rcases lt_trichotomy q (2 * k - 1) with hbelow | rfl | habove
  · have hle : 2 * p * (q + 1) ≤ 2 * p * (2 * k - 1) := Nat.mul_le_mul_left _ (by omega)
    rw [Nat.mul_add] at hle
    refine iff_of_true ?_ (by omega)
    split
    · omega
    · split <;> omega
  · split
    · omega
    · split <;> omega
  · have hle : 2 * p * (2 * k - 1 + 1) ≤ 2 * p * q := Nat.mul_le_mul_left _ (by omega)
    rw [Nat.mul_add] at hle
    refine iff_of_false ?_ (by omega)
    split
    · omega
    · split <;> omega

/-! ### The range -/

/-- The bound of the range, by the last place of the greatest number. -/
theorem bound_eq : 2 ^ 1024 - 2 ^ 970 = (2 ^ 54 - 1) * 2 ^ 970 := by
  rw [Nat.sub_mul, one_mul, ← pow_add]

/-- Below the exponent of the greatest numbers, rounding stays in the range. -/
theorem two_pow_le_bound {l : Nat} (h : l ≤ 1023) : 2 ^ l ≤ 2 ^ 1024 - 2 ^ 970 := by
  calc 2 ^ l ≤ 2 ^ 1023 := pow_le_pow_right₀ (by decide) h
    _ = 2 ^ 53 * 2 ^ 970 := by rw [← pow_add]
    _ ≤ (2 ^ 54 - 1) * 2 ^ 970 := Nat.mul_le_mul_right _ (by decide)
    _ = 2 ^ 1024 - 2 ^ 970 := bound_eq.symm

/-- A whole number with a sign is rounded to a finite number up to half a last place above the
greatest one, and no further. -/
theorem isFinite_ofDyadic (negative : Bool) (m : Nat) :
    isFinite (ofDyadic negative m 0) = true ↔ m < 2 ^ 1024 - 2 ^ 970 := by
  rcases Nat.eq_zero_or_pos m with rfl | hpos
  · have hbound : 0 < 2 ^ 1024 - 2 ^ 970 :=
      (Nat.pow_pos (by decide)).trans_le (two_pow_le_bound (Nat.zero_le 1023))
    refine iff_of_true ?_ hbound
    have hzero := (isFinite_ofBits negative 0).2 (by decide)
    rwa [Nat.zero_min, Nat.add_zero] at hzero
  · obtain ⟨l, hl⟩ : ∃ l, l = m.log2 := ⟨_, rfl⟩
    have hle : 2 ^ l ≤ m := hl ▸ Nat.log2_self_le hpos.ne'
    have hlt : m < 2 ^ (l + 1) := hl ▸ Nat.lt_log2_self
    have hlast : max ((0 : Int) + bitLength m - 53) (-1074) = l - 52 := by
      unfold bitLength
      rw [if_neg hpos.ne', ← hl]
      omega
    unfold ofDyadic
    simp only [hlast, if_neg hpos.ne']
    by_cases hlarge : 1024 ≤ l
    · rw [if_pos (by omega)]
      have hbound : 2 ^ 1024 ≤ m := (pow_le_pow_right₀ (by decide) hlarge).trans hle
      exact iff_of_false (Bool.eq_false_iff.1 (isFinite_infinity negative))
        (not_lt.2 ((Nat.sub_le _ _).trans hbound))
    · rw [if_neg (by omega), isFinite_ofBits]
      have hfield : ((l : Int) - 52 + 1074).toNat = l + 1022 := by omega
      rw [hfield]
      by_cases hsmall : l ≤ 52
      · -- The digits are all kept.
        have hdigits : m * 2 ^ (52 - l) < 2 ^ 53 := by
          calc m * 2 ^ (52 - l) < 2 ^ (l + 1) * 2 ^ (52 - l) :=
                Nat.mul_lt_mul_of_pos_right hlt (by positivity)
            _ = 2 ^ 53 := by rw [← pow_add, show l + 1 + (52 - l) = 53 by omega]
        have hshift : (0 - ((l : Int) - 52)).toNat = 52 - l := by omega
        rw [if_pos (by omega), hshift]
        exact iff_of_true (by omega) (hlt.trans_le (two_pow_le_bound (by omega)))
      · have hshift : (((l : Int) - 52) - 0).toNat = l - 52 := by omega
        have hround : roundShift m (l - 52) = roundDiv m (2 ^ (l - 52)) := by
          unfold roundShift bitLength
          rw [if_neg hpos.ne', ← hl, if_neg (by omega)]
        rw [if_neg (by omega), hshift, hround]
        rcases Nat.lt_or_ge l 1023 with hbelow | hge
        · -- Rounding carries at most one place.
          have hquotient : m / 2 ^ (l - 52) < 2 ^ 53 := by
            rw [Nat.div_lt_iff_lt_mul (by positivity), ← pow_add,
              show 53 + (l - 52) = l + 1 by omega]
            exact hlt
          have hcarry := roundDiv_le m (2 ^ (l - 52))
          exact iff_of_true (by omega) (hlt.trans_le (two_pow_le_bound hbelow))
        · obtain rfl : l = 1023 := by omega
          have hdivisor : 2 ^ (1023 - 52) = 2 * 2 ^ 970 := by rw [← pow_succ']
          have hbound : 2 ^ 1024 - 2 ^ 970 = 2 * 2 ^ 970 * (2 * 2 ^ 52 - 1) + 2 ^ 970 := by
            rw [bound_eq]
            generalize 2 ^ 970 = p
            omega
          rw [hdivisor, hbound, ← roundDiv_lt_iff (by positivity) (by decide)]
          omega

/-- The nearest number of a whole number is finite below `2^1024 - 2^970`. -/
theorem isFinite_ofInt (n : Int) :
    isFinite (ofInt n) = true ↔ n.natAbs < 2 ^ 1024 - 2 ^ 970 :=
  isFinite_ofDyadic _ _

end LiveSheet.Binary64
