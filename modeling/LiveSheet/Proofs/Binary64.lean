import LiveSheet.Binary64.Basic
import Mathlib.Algebra.Group.Nat.Defs

/-!
# The numbers that bits say

Sign, mantissa and exponent of a binary64 number determine it (`decode_injective`): a finite number
is normalized, so mantissa and exponent give back the two fields of its bits, and there is one value
that stands for no number.
-/

namespace LiveSheet.Binary64

/-- Mantissa and exponent of a finite number: the mantissa has its 53 digits unless the exponent is
the least one. -/
structure Normalized (m : Nat) (e : Int) : Prop where
  mantissa_lt : m < 2 ^ 53
  least_le : -1074 ≤ e
  full : -1074 < e → 2 ^ 52 ≤ m

/-- The three fields of the bits of a number. -/
structure Fields where
  negative : Bool
  biased : Nat
  fraction : Nat
deriving DecidableEq

/-- The fields of the bits of a number. -/
def fields (x : Float) : Fields :=
  ⟨2 ^ 63 ≤ x.toBits.toNat, x.toBits.toNat / 2 ^ 52 % 2 ^ 11, x.toBits.toNat % 2 ^ 52⟩

/-- Fields are bounded by their widths. -/
theorem fields_lt (x : Float) : (fields x).biased < 2 ^ 11 ∧ (fields x).fraction < 2 ^ 52 :=
  ⟨Nat.mod_lt _ (by decide), Nat.mod_lt _ (by decide)⟩

/-- What is decoded depends on the fields. -/
theorem decode_eq (x : Float) : decode x =
    if (fields x).biased = 2047 then
      if (fields x).fraction = 0 then .infinite (fields x).negative else .notANumber
    else if (fields x).biased = 0 then .finite (fields x).negative (fields x).fraction (-1074)
    else .finite (fields x).negative (2 ^ 52 + (fields x).fraction)
      (((fields x).biased : Int) - 1075) :=
  rfl

/-- Numbers with the same bits are the same. -/
theorem eq_of_toBits_eq {x y : Float} (h : x.toBits = y.toBits) : x = y := by
  obtain ⟨⟨xbits, xvalid⟩⟩ := x
  obtain ⟨⟨ybits, yvalid⟩⟩ := y
  obtain rfl : xbits = ybits := h
  rfl

/-- Numbers with the same fields are the same. -/
theorem eq_of_fields_eq {x y : Float} (h : fields x = fields y) : x = y := by
  obtain ⟨hsign, hbiased, hfraction⟩ := (Fields.mk.injEq ..).mp h
  refine eq_of_toBits_eq (UInt64.toNat_inj.1 ?_)
  have hx := x.toBits.toNat_lt
  have hy := y.toBits.toNat_lt
  rw [decide_eq_decide] at hsign
  omega

/-- There is one value that stands for no number. -/
theorem eq_of_notANumber {x y : Float} (hx : decode x = .notANumber) (hy : decode y = .notANumber) :
    x = y := by
  -- Only the canonical pattern is valid with all bits of the exponent set and a fraction.
  have hcanonical : ∀ z : Float, decode z = .notANumber →
      z.toBits.toBitVec =
        Float.Model.UnpackedFloat.packedNaN Float.Model.Format.binary64 := by
    intro z hz
    rw [decode_eq] at hz
    have hfields : (fields z).biased = 2047 ∧ (fields z).fraction ≠ 0 := by
      by_cases hbiased : (fields z).biased = 2047
      · by_cases hfraction : (fields z).fraction = 0
        · simp [hbiased, hfraction] at hz
        · exact ⟨hbiased, hfraction⟩
      · by_cases hzero : (fields z).biased = 0
        · simp [hzero] at hz
        · simp [hbiased, hzero] at hz
    refine z.toModel.valid.eq_packedNaN ?_ ?_
    · apply BitVec.eq_of_toNat_eq
      have : z.toModel.toBits.toNat / 2 ^ 52 % 2 ^ 11 = 2047 := hfields.1
      simpa [Float.Model.UnpackedFloat.unpackExponent, BitVec.extractLsb, BitVec.extractLsb'_toNat,
        Nat.shiftRight_eq_div_pow] using this
    · intro hzero
      have hnat := congrArg BitVec.toNat hzero
      refine hfields.2 (show z.toModel.toBits.toNat % 2 ^ 52 = 0 from ?_)
      simpa [Float.Model.UnpackedFloat.unpackMantissa, BitVec.extractLsb, BitVec.extractLsb'_toNat]
        using hnat
  refine eq_of_toBits_eq (UInt64.toBitVec_inj.1 ?_)
  rw [hcanonical x hx, hcanonical y hy]

/-- What is decoded as finite is normalized. -/
theorem normalized_of_decode {x : Float} {negative : Bool} {m : Nat} {e : Int}
    (h : decode x = .finite negative m e) : Normalized m e := by
  obtain ⟨hbiased, hfraction⟩ := fields_lt x
  rw [decode_eq] at h
  split at h
  · split at h <;> cases h
  · split at h
    · obtain ⟨-, rfl, rfl⟩ := Decoded.finite.inj h
      exact ⟨by omega, by omega, by omega⟩
    · obtain ⟨-, rfl, rfl⟩ := Decoded.finite.inj h
      exact ⟨by omega, by omega, by omega⟩

/-- Sign, mantissa and exponent determine a number. -/
theorem decode_injective {x y : Float} (h : decode x = decode y) : x = y := by
  obtain ⟨-, hfx⟩ := fields_lt x
  obtain ⟨-, hfy⟩ := fields_lt y
  cases hx : decode x with
  | notANumber => exact eq_of_notANumber hx (h ▸ hx)
  | infinite negative =>
    have hy : decode y = .infinite negative := h ▸ hx
    refine eq_of_fields_eq ?_
    -- The fields can be computed from what is decoded.
    have hinfinite : ∀ z : Float, decode z = .infinite negative →
        fields z = ⟨negative, 2047, 0⟩ := by
      intro z hz
      rw [decode_eq] at hz
      split at hz
      · next hbiased =>
        split at hz
        · next hfraction =>
          obtain rfl := Decoded.infinite.inj hz
          rw [← hbiased, ← hfraction]
        · cases hz
      · split at hz <;> cases hz
    rw [hinfinite x hx, hinfinite y hy]
  | finite negative m e =>
    have hy : decode y = .finite negative m e := h ▸ hx
    refine eq_of_fields_eq ?_
    -- The implicit bit of the mantissa tells normal numbers from subnormal ones.
    have hfinite : ∀ z : Float, (fields z).fraction < 2 ^ 52 → decode z = .finite negative m e →
        fields z = if m < 2 ^ 52 then ⟨negative, 0, m⟩
          else ⟨negative, (e + 1075).toNat, m - 2 ^ 52⟩ := by
      intro z hfraction hz
      rw [decode_eq] at hz
      split at hz
      · split at hz <;> cases hz
      · split at hz
        · next hbiased =>
          obtain ⟨rfl, rfl, rfl⟩ := Decoded.finite.inj hz
          rw [if_pos hfraction, ← hbiased]
        · obtain ⟨rfl, rfl, rfl⟩ := Decoded.finite.inj hz
          rw [if_neg (by omega)]
          have hexponent : (((fields z).biased : Int) - 1075 + 1075).toNat = (fields z).biased := by
            omega
          have hmantissa : 2 ^ 52 + (fields z).fraction - 2 ^ 52 = (fields z).fraction := by omega
          rw [hexponent, hmantissa]
    rw [hfinite x hfx hx, hfinite y hfy hy]

end LiveSheet.Binary64
