import Mathlib
import Cdcl.Options.Declared
import Cdcl.Solver.Search
/-!
# FloatSigns — what the bounds of options tell of floats

A product is less than zero only if a factor is (`not_lt_zero_mul`), so a number of conflicts that starts at one or more,
and grows by a factor of one or more, never has a whole part below zero.

The facts are about unpacked floats: of what is no zero, and is a number or an infinity, the sign is the sign.
-/
namespace Cdcl
namespace FloatSigns

open Float.Model (UnpackedFloat Format)
open Float.Model.UnpackedFloat
open FloatOrder

/-- The sign of what compares as less or as greater than zero. -/
def sign? : UnpackedFloat → Option Sign
  | .infinity s => some s
  | .finite s _ _ _ => some s
  | _ => none

variable {x y : Float} {u v : UnpackedFloat} {s : Sign} {f : Format}

theorem unpack_zero : (0.0 : Float).toModel.unpack = .zero .positive := rfl

theorem unpack_one : (1.0 : Float).toModel.unpack = .finite .positive 4503599627370496 (-52) (by decide) := rfl

theorem lt_zero_iff : x < 0.0 ↔ sign? x.toModel.unpack = some .negative := by
  rw [lt_iff, unpack_zero]
  cases x.toModel.unpack with
  | notANumber | zero => simp [UnpackedFloat.compare, sign?]
  | infinity s => cases s <;> simp [UnpackedFloat.compare, sign?]
  | finite s => cases s <;> simp [UnpackedFloat.compare, sign?]

theorem not_lt_zero_of_one_le (h : 1.0 ≤ x) : ¬x < 0.0 := by
  rw [le_iff, unpack_one] at h
  rw [lt_zero_iff]
  revert h
  cases x.toModel.unpack with
  | notANumber | zero => simp [sign?]
  | infinity s => cases s <;> simp [UnpackedFloat.compare, sign?]
  | finite s => cases s <;> simp [UnpackedFloat.compare, sign?]

/-! ## Products -/

theorem sign?_unpack {b : BitVec f.numBits} (h : sign? (unpack f b) = some s) : Sign.ofBitVec (unpackSign b) = s := by
  unfold unpack at h
  dsimp only at h
  split at h
  · split at h
    · exact Option.some.inj h
    · cases h
  · split at h
    · split at h
      · cases h
      · exact Option.some.inj h
    · exact Option.some.inj h

/-- What is packed and unpacked is below zero only if it was before. -/
theorem sign?_of_pack (h : sign? (unpack Format.binary64 (pack Format.binary64 u)) = some .negative) :
    sign? u = some .negative := by
  have hs := sign?_unpack h
  cases u with
  | notANumber =>
    rw [pack, packedNaN, unpackSign_packComponents] at hs
    cases hs
  | infinity s =>
    rw [pack, packedInfinity, unpackSign_packComponents, Sign.ofBitVec_toBitVec] at hs
    exact congrArg some hs
  | zero s =>
    have hz : unpack Format.binary64 (pack Format.binary64 (.zero s)) = .zero s := by cases s <;> rfl
    rwa [hz] at h
  | finite s m e hm =>
    refine congrArg some ?_
    unfold pack at hs
    dsimp only at hs
    split at hs
    · rwa [packedInfinity, unpackSign_packComponents, Sign.ofBitVec_toBitVec] at hs
    · split at hs <;> rwa [unpackSign_packComponents, Sign.ofBitVec_toBitVec] at hs

theorem sign?_roundWithAccuracy {m : Nat} {e : Int} {a : Accuracy} {t : Sign}
    (h : sign? (roundWithAccuracy f s m e a) = some t) : s = t := by
  unfold roundWithAccuracy at h
  dsimp only at h
  split at h
  · cases h
  · exact Option.some.inj h

/-- **The sign of a product is the product of the signs.** -/
theorem sign?_mul {t : Sign} (h : sign? (mul f u v) = some t) :
    ∃ s₁ s₂, sign? u = some s₁ ∧ sign? v = some s₂ ∧ s₁ * s₂ = t := by
  cases u with
  | notANumber => cases h
  | zero s => cases v <;> cases h
  | infinity s =>
    cases v with
    | notANumber | zero => cases h
    | _ => exact ⟨_, _, rfl, rfl, Option.some.inj h⟩
  | finite s =>
    cases v with
    | notANumber | zero => cases h
    | infinity => exact ⟨_, _, rfl, rfl, Option.some.inj h⟩
    | finite => exact ⟨_, _, rfl, rfl, sign?_roundWithAccuracy h⟩

/-- **A product is less than zero only if a factor is.** -/
theorem not_lt_zero_mul (hx : ¬x < 0.0) (hy : ¬y < 0.0) : ¬x * y < 0.0 := by
  rw [lt_zero_iff] at hx hy ⊢
  intro h
  have h : sign? (mul Format.binary64 x.toModel.unpack y.toModel.unpack) = some .negative := sign?_of_pack h
  obtain ⟨s₁, s₂, hu, hv, he⟩ := sign?_mul h
  cases s₁ with
  | negative => exact hx hu
  | positive =>
    cases s₂ with
    | negative => exact hy hv
    | positive => cases he

end FloatSigns

open FloatSigns

/-- What is not less than zero has no whole part below zero. -/
theorem Solver.wholePart_nonneg {x : Float} (h : ¬x < 0.0) : 0 ≤ wholePart x := by
  rw [wholePart, if_neg h]
  exact Int.natCast_nonneg _

end Cdcl
