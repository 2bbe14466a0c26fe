import LiveSheet.Proofs.Binary64
import Mathlib

/-!
# Numbers made of bits

A number has the bits that it is made of, unless they stand for no number (`toBits_ofBits`). So it
is decoded to the same mantissa and exponent without its sign (`decode_abs`), a natural number below
`2^53` is a binary64 number (`exists_decode_ofDyadic`), and the whole part of a number is computed
without rounding (`exists_decode_floor`).
-/

namespace LiveSheet.Binary64

open Float.Model (UnpackedFloat Format)
open Float.Model.UnpackedFloat (unpackSign unpackExponent unpackMantissa packComponents)

/-! ### The fields of bits -/

/-- The field of the exponent as a number. -/
theorem toNat_unpackExponent (b : BitVec Format.binary64.numBits) :
    (unpackExponent b).toNat = b.toNat / 2 ^ 52 % 2 ^ 11 := by
  simp [unpackExponent, BitVec.extractLsb, BitVec.extractLsb'_toNat, Nat.shiftRight_eq_div_pow]

/-- The field of the mantissa as a number. -/
theorem toNat_unpackMantissa (b : BitVec Format.binary64.numBits) :
    (unpackMantissa b).toNat = b.toNat % 2 ^ 52 := by
  simp [unpackMantissa, BitVec.extractLsb, BitVec.extractLsb'_toNat]

/-- An exponent that is not all ones is the exponent of a number. -/
theorem isNaNBits_eq_false {b : BitVec Format.binary64.numBits}
    (h : b.toNat / 2 ^ 52 % 2 ^ 11 ≠ 2047) : UnpackedFloat.isNaNBits b = false := by
  refine decide_eq_false fun hnan => h ?_
  rw [← toNat_unpackExponent, hnan.1]
  rfl

/-- A number has the bits that it is made of, unless they stand for no number. -/
theorem toBits_ofBits {b : UInt64} (h : b.toNat / 2 ^ 52 % 2 ^ 11 ≠ 2047) :
    (Float.ofBits b).toBits = b := by
  have hpack : (Float.ofBits b).toBits.toBitVec =
      UnpackedFloat.pack Format.binary64 (UnpackedFloat.unpack Format.binary64 b.toBitVec) := rfl
  apply UInt64.toBitVec_inj.1
  rw [hpack, UnpackedFloat.pack_unpack, isNaNBits_eq_false h]
  rfl

/-! ### Without the sign -/

/-- Without the sign the other two fields stay. -/
theorem unpack_abs (b : BitVec Format.binary64.numBits) :
    (UnpackedFloat.unpack Format.binary64 b).abs =
      UnpackedFloat.unpack Format.binary64
        (packComponents Format.binary64 .positive (unpackExponent b) (unpackMantissa b)) := by
  unfold UnpackedFloat.unpack
  simp only [UnpackedFloat.unpackExponent_packComponents,
    UnpackedFloat.unpackMantissa_packComponents, UnpackedFloat.unpackSign_packComponents]
  split
  · split <;> rfl
  · split
    · split <;> rfl
    · rfl

/-- Bits without a sign are exponent and mantissa. -/
theorem toNat_packComponents_positive (e : BitVec 11) (m : BitVec 52) :
    (packComponents Format.binary64 .positive e m).toNat = e.toNat * 2 ^ 52 + m.toNat := by
  have hsign : UnpackedFloat.Sign.positive.toBitVec.toNat = 0 := rfl
  unfold packComponents
  rw [BitVec.toNat_append, BitVec.toNat_append, hsign, Nat.zero_shiftLeft, Nat.zero_or,
    ← Nat.shiftLeft_add_eq_or_of_lt m.isLt, Nat.shiftLeft_eq]

/-- Bits without a sign bit, by the other two fields. -/
theorem fields_of_toNat {x : Float} {biased fraction : Nat} (hbiased : biased < 2 ^ 11)
    (hfraction : fraction < 2 ^ 52) (h : x.toBits.toNat = biased * 2 ^ 52 + fraction) :
    fields x = ⟨false, biased, fraction⟩ := by
  unfold fields
  rw [h]
  congr 1
  · exact decide_eq_false (by omega)
  · omega
  · omega

/-- The fields of a number without its sign. -/
theorem fields_abs {x : Float} (h : (fields x).biased ≠ 2047) :
    fields x.abs = ⟨false, (fields x).biased, (fields x).fraction⟩ := by
  obtain ⟨b, hb⟩ : ∃ b : BitVec Format.binary64.numBits, b = x.toBits.toBitVec := ⟨_, rfl⟩
  obtain ⟨b', hb'⟩ : ∃ b' : BitVec Format.binary64.numBits,
      b' = packComponents Format.binary64 .positive (unpackExponent b) (unpackMantissa b) :=
    ⟨_, rfl⟩
  obtain ⟨hbiased, hfraction⟩ := fields_lt x
  have hnat : b'.toNat = (fields x).biased * 2 ^ 52 + (fields x).fraction := by
    rw [hb', toNat_packComponents_positive, toNat_unpackExponent, toNat_unpackMantissa, hb]
    rfl
  have hbits : x.abs.toBits.toBitVec = b' := by
    have hpack : x.abs.toBits.toBitVec =
        UnpackedFloat.pack Format.binary64 (UnpackedFloat.unpack Format.binary64 b).abs := by
      rw [hb]
      rfl
    rw [hpack, unpack_abs, ← hb', UnpackedFloat.pack_unpack, isNaNBits_eq_false (by omega)]
    rfl
  refine fields_of_toNat hbiased hfraction ?_
  rw [← hnat, ← hbits]
  rfl

/-- The number without its sign. -/
theorem decode_abs {x : Float} {negative : Bool} {m : Nat} {e : Int}
    (h : decode x = .finite negative m e) : decode x.abs = .finite false m e := by
  rw [decode_eq] at h
  split at h
  · split at h <;> cases h
  · next hbiased =>
    rw [decode_eq, fields_abs hbiased, if_neg hbiased]
    split at h
    · next hzero =>
      obtain ⟨-, rfl, rfl⟩ := Decoded.finite.inj h
      exact if_pos hzero
    · next hzero =>
      obtain ⟨-, rfl, rfl⟩ := Decoded.finite.inj h
      exact if_neg hzero

/-- The number with the given bits, if they are those of a finite one. -/
theorem decode_ofBits {n : Nat} (h : n < 2047 * 2 ^ 52) :
    decode (Float.ofBits (UInt64.ofNat n)) =
      if n < 2 ^ 52 then .finite false n (-1074)
      else .finite false (2 ^ 52 + n % 2 ^ 52) ((n / 2 ^ 52 : Nat) - 1075) := by
  have hnat : (UInt64.ofNat n).toNat = n := by
    rw [UInt64.toNat_ofNat']
    omega
  have hbits : (Float.ofBits (UInt64.ofNat n)).toBits.toNat = n := by
    rw [toBits_ofBits (by rw [hnat]; omega), hnat]
  have hfields : fields (Float.ofBits (UInt64.ofNat n)) = ⟨false, n / 2 ^ 52, n % 2 ^ 52⟩ :=
    fields_of_toNat (by omega) (Nat.mod_lt n (by decide)) (by rw [hbits]; omega)
  rw [decode_eq, hfields, if_neg (by simp only; omega)]
  simp only
  split
  · rw [if_pos (by omega), Nat.mod_eq_of_lt (by omega)]
  · rw [if_neg (by omega)]

/-- The exponent of a finite number is not more than that of the greatest one. -/
theorem le_of_decode {x : Float} {negative : Bool} {m : Nat} {e : Int}
    (h : decode x = .finite negative m e) : e ≤ 971 := by
  obtain ⟨hbiased, -⟩ := fields_lt x
  rw [decode_eq] at h
  split at h
  · split at h <;> cases h
  · split at h
    · obtain ⟨-, -, rfl⟩ := Decoded.finite.inj h
      decide
    · obtain ⟨-, -, rfl⟩ := Decoded.finite.inj h
      omega

/-! ### Whole numbers -/

/-- A whole number with at most 53 binary digits is a binary64 number. -/
theorem exists_decode_ofDyadic {n : Nat} (hpos : 0 < n) (hlt : n < 2 ^ 53) :
    ∃ k : Nat, decode (ofDyadic false n 0) = .finite false (n * 2 ^ k) (-k) := by
  obtain ⟨l, hl⟩ : ∃ l, l = n.log2 := ⟨_, rfl⟩
  have hne : n ≠ 0 := hpos.ne'
  have hle : 2 ^ l ≤ n := hl ▸ Nat.log2_self_le hne
  have hlt' : n < 2 ^ (l + 1) := hl ▸ Nat.lt_log2_self
  have hl52 : l ≤ 52 := by
    by_contra hnot
    have := Nat.pow_le_pow_right (n := 2) (by decide) (show 53 ≤ l by omega)
    omega
  obtain ⟨k, hk⟩ : ∃ k, k + l = 52 := ⟨52 - l, by omega⟩
  -- Shifted by `k` the number has all 53 binary digits, and no digit is lost.
  have hlower : 2 ^ 52 ≤ n * 2 ^ k := by
    calc 2 ^ 52 = 2 ^ l * 2 ^ k := by rw [← pow_add, add_comm, hk]
      _ ≤ n * 2 ^ k := Nat.mul_le_mul_right _ hle
  have hupper : n * 2 ^ k < 2 ^ 53 := by
    calc n * 2 ^ k < 2 ^ (l + 1) * 2 ^ k := Nat.mul_lt_mul_of_pos_right hlt' (by positivity)
      _ = 2 ^ 53 := by rw [← pow_add, show l + 1 + k = 53 by omega]
  refine ⟨k, ?_⟩
  -- So the last binary place is that of `2 ^ -k`, and the number is not rounded.
  have hlast : max ((0 : Int) + bitLength n - 53) (-1074) = -k := by
    unfold bitLength
    rw [if_neg hne, ← hl]
    omega
  have hofDyadic : ofDyadic false n 0 =
      Float.ofBits (UInt64.ofNat ((1074 - k) * 2 ^ 52 + n * 2 ^ k)) := by
    unfold ofDyadic
    simp only [hlast, Bool.false_eq_true, if_false]
    have hshift : (0 - -(k : Int)).toNat = k := by omega
    have hfield : (-(k : Int) + 1074).toNat = 1074 - k := by omega
    rw [if_neg hne, if_neg (by omega), if_pos (by omega), hshift, hfield, Nat.zero_add,
      min_eq_left (by omega)]
  rw [hofDyadic, decode_ofBits (by omega), if_neg (by omega)]
  congr 1
  · omega
  · omega

/-- The whole part of a number is computed without rounding. -/
theorem exists_decode_floor {x : Float} {m : Nat} {e : Int} (h : decode x = .finite false m e)
    (he : e < 0) :
    ∃ n k, decode (floor x) = .finite false n k ∧
      (n : ℚ) * 2 ^ k = (m / 2 ^ (-e).toNat : Nat) := by
  obtain ⟨whole, hwhole⟩ : ∃ whole, whole = m / 2 ^ (-e).toNat := ⟨_, rfl⟩
  have hlt : whole < 2 ^ 53 := by
    rw [hwhole]
    exact (Nat.div_le_self _ _).trans_lt (normalized_of_decode h).mantissa_lt
  have hfloor : floor x = ofDyadic false whole 0 := by
    unfold floor
    rw [h]
    simp only [if_neg (not_le.2 he), Bool.false_eq_true, if_false, hwhole]
  rw [← hwhole, hfloor]
  rcases Nat.eq_zero_or_pos whole with hzero | hpos
  · refine ⟨0, -1074, ?_, by simp [hzero]⟩
    rw [hzero]
    exact decode_ofBits (n := 0) (by decide)
  · obtain ⟨k, hk⟩ := exists_decode_ofDyadic hpos hlt
    refine ⟨_, _, hk, ?_⟩
    rw [zpow_neg, zpow_natCast]
    push_cast
    exact mul_inv_cancel_right₀ (by positivity) _

end LiveSheet.Binary64
