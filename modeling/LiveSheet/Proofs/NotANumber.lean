import LiveSheet.Decimal.Numeral
import LiveSheet.Proofs.Binary64

/-!
# Numerals are numbers

What stands for no number comes of an operation without a value, never of a numeral: the number
nearest to a decimal numeral is finite or infinite (`Decimal.isNaN_nearest`), whether it comes of
one exact product or quotient or of the general algorithm. And what is finite by its bits is a
number (`Binary64.isNaN_of_isFinite`).
-/

namespace LiveSheet

namespace Binary64

open Float.Model (UnpackedFloat Format)

/-! ### Numbers and their bits -/

/-- A choice between two floats is a number where the one chosen is. -/
theorem isNaN_ite {c : Prop} [Decidable c] {f f' : UnpackedFloat} (h : c → f.isNaN = false)
    (h' : ¬ c → f'.isNaN = false) : (if c then f else f').isNaN = false := by
  split
  · next hc => exact h hc
  · next hc => exact h' hc

/-- The same of a choice whose branches use the condition. -/
theorem isNaN_dite {c : Prop} [Decidable c] {f : c → UnpackedFloat} {f' : ¬ c → UnpackedFloat}
    (h : ∀ hc, (f hc).isNaN = false) (h' : ∀ hc, (f' hc).isNaN = false) :
    (if hc : c then f hc else f' hc).isNaN = false := by
  split
  · next hc => exact h hc
  · next hc => exact h' hc

/-- Bits without a fraction, or with an exponent that is not all ones, are those of a number. -/
theorem isNaN_unpack {b : BitVec Format.binary64.numBits}
    (h : UnpackedFloat.unpackExponent b = -1#_ → UnpackedFloat.unpackMantissa b = 0#_) :
    (UnpackedFloat.unpack Format.binary64 b).isNaN = false := by
  refine isNaN_ite (fun hexponent => ?_) fun _ => isNaN_ite (fun _ => ?_) fun _ => rfl
  · rw [if_pos (h hexponent)]
    rfl
  · exact isNaN_dite (fun _ => rfl) fun _ => rfl

/-- A number stays one when it is packed. -/
theorem isNaN_pack {f : UnpackedFloat} (h : f.isNaN = false) :
    (Float.Model.pack f).isNaN = false := by
  refine isNaN_unpack fun hexponent => ?_
  change UnpackedFloat.unpackMantissa (UnpackedFloat.pack Format.binary64 f) = 0#_
  change UnpackedFloat.unpackExponent (UnpackedFloat.pack Format.binary64 f) = -1#_ at hexponent
  cases f with
  | notANumber => cases h
  | infinity sign => exact UnpackedFloat.unpackMantissa_packComponents
  | zero sign => exact UnpackedFloat.unpackMantissa_packComponents
  | finite sign m e hm =>
    unfold UnpackedFloat.pack at hexponent ⊢
    simp only at hexponent ⊢
    split at hexponent
    · next hover =>
      rw [if_pos hover]
      exact UnpackedFloat.unpackMantissa_packComponents
    · next hunder =>
      -- Below the greatest exponent the field is not all ones, so the premise does not hold.
      exfalso
      split at hexponent
      · rw [UnpackedFloat.unpackExponent_packComponents] at hexponent
        have hnat := congrArg BitVec.toNat hexponent
        rw [BitVec.toNat_ofNat] at hnat
        have hones : (-1#11).toNat = 2047 := by decide
        have hfield : (2 : Nat) ^ 11 = 2048 := by decide
        simp only [hones, hfield] at hnat hunder
        omega
      · rw [UnpackedFloat.unpackExponent_packComponents] at hexponent
        exact absurd hexponent (by decide)

/-- What is decoded as finite is a number. -/
theorem isNaN_of_isFinite {x : Float} (h : isFinite x = true) : x.isNaN = false := by
  refine isNaN_unpack fun hexponent => ?_
  -- The bits would all be set in the exponent, which is not decoded as finite.
  have hbiased : (fields x).biased = 2047 := by
    have hnat := congrArg BitVec.toNat hexponent
    show x.toModel.toBits.toNat / 2 ^ 52 % 2 ^ 11 = 2047
    simpa [UnpackedFloat.unpackExponent, BitVec.extractLsb, BitVec.extractLsb'_toNat,
      Nat.shiftRight_eq_div_pow] using hnat
  rw [isFinite, decode_eq, if_pos hbiased] at h
  split at h
  · next heq => split at heq <;> cases heq
  · cases h

/-! ### Arithmetic with numbers -/

/-- What is rounded is a number. -/
theorem isNaN_roundWithAccuracy (sign : UnpackedFloat.Sign) (m : Nat) (e : Int)
    (accuracy : UnpackedFloat.Accuracy) :
    (UnpackedFloat.roundWithAccuracy Format.binary64 sign m e accuracy).isNaN = false := by
  exact isNaN_dite (fun _ => rfl) fun _ => rfl

/-- Whether a number is finite and not zero. -/
def IsRegular : UnpackedFloat → Prop
  | .finite .. => True
  | _ => False

/-- Whether a float is regular is seen from its constructor. -/
instance : (f : UnpackedFloat) → Decidable (IsRegular f)
  | .finite .. => .isTrue trivial
  | .infinity _ => .isFalse id
  | .notANumber => .isFalse id
  | .zero _ => .isFalse id

/-- A product with a factor that is finite and not zero is a number. -/
theorem isNaN_mul {f f' : UnpackedFloat} (h : f.isNaN = false) (h' : IsRegular f') :
    (UnpackedFloat.mul Format.binary64 f f').isNaN = false := by
  cases f' with
  | finite =>
    cases f with
    | notANumber => cases h
    | infinity | zero => rfl
    | finite => exact isNaN_roundWithAccuracy ..
  | infinity | notANumber | zero => exact h'.elim

/-- A quotient by a number that is finite and not zero is a number. -/
theorem isNaN_div {f f' : UnpackedFloat} (h : f.isNaN = false) (h' : IsRegular f') :
    (UnpackedFloat.div Format.binary64 f f').isNaN = false := by
  cases f' with
  | finite =>
    cases f with
    | notANumber => cases h
    | infinity | zero => rfl
    | finite => exact isNaN_roundWithAccuracy ..
  | infinity | notANumber | zero => exact h'.elim

/-- The negative of a number is a number. -/
theorem isNaN_neg {x : Float} (h : x.isNaN = false) : (-x).isNaN = false := by
  refine isNaN_pack ?_
  have hx : x.toModel.unpack.isNaN = false := h
  cases hunpack : x.toModel.unpack with
  | notANumber => rw [hunpack] at hx; cases hx
  | infinity | zero | finite => rfl

/-- A whole number converted is a number. -/
theorem isNaN_toFloat (n : UInt64) : n.toFloat.isNaN = false := by
  refine isNaN_pack ?_
  unfold UnpackedFloat.ofUInt64 UnpackedFloat.ofNat UnpackedFloat.ofInt UnpackedFloat.normalize
  split
  · exact isNaN_roundWithAccuracy ..
  · rfl
  · exact isNaN_roundWithAccuracy ..

/-- The powers of ten that are exact are finite and not zero. -/
theorem isRegular_powersOfTen : ∀ x ∈ Float.exactlyRepresentablePowersOfTen.toList,
    IsRegular x.toModel.unpack := by
  decide +kernel

/-- The general algorithm gives a number. -/
theorem isNaN_ofScientific (m : Nat) (e : Int) :
    (UnpackedFloat.ofScientific Format.binary64 m e).isNaN = false := by
  refine isNaN_dite (fun _ => rfl) fun _ => isNaN_ite (fun _ => rfl) fun _ => ?_
  refine isNaN_ite (fun _ => rfl) fun _ => isNaN_ite (fun _ => ?_) fun _ => ?_
  · exact isNaN_mul rfl trivial
  · exact isNaN_div rfl trivial

end Binary64

namespace Decimal

open Binary64

/-- The number nearest to a decimal numeral is a number. -/
theorem isNaN_nearest (negative : Bool) (digits : Nat) (scale : Int) :
    (nearest negative digits scale).isNaN = false := by
  have hmagnitude : ∀ small places, (Float.ofScientific digits small places).isNaN = false := by
    intro small places
    unfold Float.ofScientific
    split
    · next hexact =>
      have hpower := isRegular_powersOfTen _ (Array.mem_toList_iff.2 (Array.getElem_mem
        (show places < Float.exactlyRepresentablePowersOfTen.size from by
          simpa [Float.exactlyRepresentablePowersOfTen] using Nat.lt_succ_of_le hexact.2)))
      split
      · exact isNaN_pack (isNaN_div (isNaN_toFloat _) hpower)
      · exact isNaN_pack (isNaN_mul (isNaN_toFloat _) hpower)
    · exact isNaN_pack (isNaN_ofScientific _ _)
  unfold nearest
  split
  · exact isNaN_neg (hmagnitude _ _)
  · exact hmagnitude _ _

end Decimal

end LiveSheet
