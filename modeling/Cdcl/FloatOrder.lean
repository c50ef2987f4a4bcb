/-!
# FloatOrder — floats in order

A double is a sign and a magnitude, the lower 63 bits of its word.  A finite one with mantissa `m` and exponent `e` has the
magnitude `(e + 1074) * 2 ^ 52 + m`, whether it is normal or not, so that comparing exponents first and then mantissas is to
compare magnitudes.  The total order of floats goes by the magnitudes, downwards below zero, and keeps the order of numbers
(`orderKey_lt_of_lt`).
-/
namespace Cdcl

/-- The place of a float in the total order of floats, in which every bit counts. -/
def orderKey (x : Float) : Nat :=
  let bits := x.toBits
  if bits >>> 63 == 0 then bits.toNat + 9223372036854775808 else 18446744073709551615 - bits.toNat

namespace FloatOrder

open Float.Model (UnpackedFloat Format)
open Float.Model.UnpackedFloat

variable {x y : Float} {s : Sign}

theorem lt_iff : x < y ↔ x.toModel.unpack.compare y.toModel.unpack = some .lt := by
  show decide ((x.toModel.unpack.compare y.toModel.unpack == some .lt) = true) = true ↔ _
  rw [decide_eq_true_iff, beq_iff_eq]

theorem le_iff : x ≤ y ↔ (x.toModel.unpack.compare y.toModel.unpack).any (·.isLE) = true := by
  show decide (Option.any _ _ = true) = true ↔ _
  rw [decide_eq_true_iff]

theorem beq_iff : (x == y) = true ↔ x.toModel.unpack.compare y.toModel.unpack = some .eq := by
  show (x.toModel.unpack.compare y.toModel.unpack == some .eq) = true ↔ _
  rw [beq_iff_eq]

theorem beq_or_lt_of_le (h : x ≤ y) : (x == y) = true ∨ x < y := by
  rw [le_iff] at h
  rw [beq_iff, lt_iff]
  revert h
  cases x.toModel.unpack.compare y.toModel.unpack with
  | none => nofun
  | some o => cases o <;> simp

/-! ## Magnitudes -/

/-- The bits of a float below its sign. -/
def magnitude (x : Float) : Nat := x.toBits.toNat % 9223372036854775808

/-- The sign and the magnitude of a float that is a number or an infinity. -/
structure Reads (x : Float) (s : Sign) (q : Nat) : Prop where
  magnitude : magnitude x = q
  sign : 9223372036854775808 ≤ x.toBits.toNat ↔ s = .negative

theorem orderKey_positive {q : Nat} (h : Reads x .positive q) : orderKey x = 9223372036854775808 + q := by
  have hlt : x.toBits.toNat < 9223372036854775808 := Nat.lt_of_not_le fun hle => nomatch h.sign.1 hle
  have hq := h.magnitude
  unfold magnitude at hq
  have hzero : (x.toBits >>> 63 == 0) = true := by
    rw [beq_iff_eq, ← UInt64.toNat_inj, UInt64.toNat_shiftRight, Nat.shiftRight_eq_div_pow]
    exact Nat.div_eq_of_lt hlt
  unfold orderKey
  dsimp only
  rw [if_pos hzero]
  omega

theorem orderKey_negative {q : Nat} (h : Reads x .negative q) : orderKey x + q = 9223372036854775807 := by
  have hle := h.sign.2 rfl
  have hlt := x.toBits.toNat_lt
  have hq := h.magnitude
  unfold magnitude at hq
  have hone : ¬(x.toBits >>> 63 == 0) = true := by
    rw [beq_iff_eq, ← UInt64.toNat_inj, UInt64.toNat_shiftRight, Nat.shiftRight_eq_div_pow]
    exact Nat.ne_of_gt (Nat.div_pos hle (by decide))
  unfold orderKey
  dsimp only
  rw [if_neg hone]
  omega

/-! ## The fields of a word -/

theorem toNat_unpackMantissa (b : BitVec Format.binary64.numBits) :
    (unpackMantissa b).toNat = b.toNat % 4503599627370496 := by
  simp [unpackMantissa, BitVec.extractLsb, BitVec.extractLsb'_toNat]

theorem toNat_unpackExponent (b : BitVec Format.binary64.numBits) :
    (unpackExponent b).toNat = b.toNat / 4503599627370496 % 2048 := by
  simp [unpackExponent, BitVec.extractLsb, BitVec.extractLsb'_toNat, Nat.shiftRight_eq_div_pow]

theorem ofBitVec_unpackSign (b : BitVec Format.binary64.numBits) :
    9223372036854775808 ≤ b.toNat ↔ Sign.ofBitVec (unpackSign b) = .negative := by
  have hb : b.toNat < 18446744073709551616 := b.isLt
  have hn : (unpackSign b).toNat = b.toNat / 9223372036854775808 % 2 := by
    show (BitVec.cast _ (b.extractLsb 63 63)).toNat = _
    simp [BitVec.extractLsb, BitVec.extractLsb'_toNat, Nat.shiftRight_eq_div_pow]
  have hzero : unpackSign b = 0#1 ↔ b.toNat < 9223372036854775808 := by
    rw [← BitVec.toNat_inj, hn, BitVec.toNat_ofNat]
    omega
  unfold Sign.ofBitVec
  by_cases h : unpackSign b = 0#1
  · simp only [if_pos h, reduceCtorEq, iff_false]
    exact Nat.not_le_of_lt (hzero.1 h)
  · simp only [if_neg h, iff_true]
    exact Nat.le_of_not_lt fun hlt => h (hzero.2 hlt)

/-- The magnitude of a float, and its sign if it is a number or an infinity, as its unpacked form tells them. -/
def Shows (x : Float) : UnpackedFloat → Prop
  | .notANumber => True
  | .infinity s => Reads x s (2047 * 4503599627370496)
  | .zero s => Reads x s 0
  | .finite s m e _ => ∃ k : Nat, e = k - 1074 ∧ k < 2046 ∧ m < 9007199254740992 ∧ (k = 0 ∨ 4503599627370496 ≤ m) ∧
      Reads x s (k * 4503599627370496 + m)

theorem shows_of_bits {b : BitVec Format.binary64.numBits} (hn : b.toNat = x.toBits.toNat) :
    Shows x (unpack Format.binary64 b) := by
  have hm := toNat_unpackMantissa b
  have he := toNat_unpackExponent b
  have hs := ofBitVec_unpackSign b
  rw [hn] at hm he hs
  have hq : magnitude x = (unpackExponent b).toNat * 4503599627370496 + (unpackMantissa b).toNat := by
    unfold magnitude
    omega
  have hlt : (unpackMantissa b).toNat < 4503599627370496 := (unpackMantissa b).isLt
  have hle : (unpackExponent b).toNat < 2048 := (unpackExponent b).isLt
  have hbias : (Format.binary64.exponentBias : Int) = 1023 := rfl
  unfold unpack
  dsimp only
  by_cases hinf : unpackExponent b = -BitVec.ofNat Format.binary64.exponentBits 1
  · rw [if_pos hinf]
    by_cases hzero : unpackMantissa b = BitVec.ofNat Format.binary64.mantissaBitsWithoutImplicit 0
    · rw [if_pos hzero]
      rw [hinf, hzero] at hq
      exact ⟨hq, hs⟩
    · rw [if_neg hzero]
      trivial
  rw [if_neg hinf]
  by_cases hsub : unpackExponent b = BitVec.ofNat Format.binary64.exponentBits 0
  · rw [if_pos hsub]
    by_cases hzero : unpackMantissa b = BitVec.ofNat Format.binary64.mantissaBitsWithoutImplicit 0
    · rw [dif_pos hzero]
      rw [hsub, hzero] at hq
      exact ⟨hq, hs⟩
    · rw [dif_neg hzero]
      rw [hsub] at hq
      refine ⟨0, ?_, by decide, Nat.lt_trans hlt (by decide), .inl rfl, hq, hs⟩
      rw [hsub, hbias]
      rfl
  · rw [if_neg hsub]
    have hpos : (unpackExponent b).toNat ≠ 0 := fun h => hsub (BitVec.toNat_inj.1 h)
    have hne : (unpackExponent b).toNat ≠ 2047 := fun h => hinf (BitVec.toNat_inj.1 h)
    have hmantissa : (1#1 ++ unpackMantissa b).toNat = 4503599627370496 + (unpackMantissa b).toNat := by
      rw [BitVec.toNat_append, ← Nat.shiftLeft_add_eq_or_of_lt (unpackMantissa b).isLt]
      rfl
    refine ⟨(unpackExponent b).toNat - 1, ?_, by omega, by omega, .inr (by omega), ?_, hs⟩
    · rw [hbias]
      omega
    · rw [hq, hmantissa]
      omega

theorem shows_unpack (x : Float) : Shows x x.toModel.unpack := shows_of_bits rfl

theorem compare_then_eq_lt_iff {k₁ k₂ : Int} {m₁ m₂ : Nat} :
    (compare k₁ k₂).then (compare m₁ m₂) = .lt ↔ k₁ < k₂ ∨ k₁ = k₂ ∧ m₁ < m₂ := by
  rw [Ordering.then_eq_lt, Int.compare_eq_lt, Int.compare_eq_eq, Nat.compare_eq_lt]

/-! ## The order -/

variable {u v : UnpackedFloat} {t : Sign} {q r : Nat}

/-- Of two finite numbers of one sign, the exponents and then the significands tell which is less. -/
theorem apply_lt_of_compare_finite {s t : Sign} {m m' : Nat} {e e' : Int} {hm : 0 < m} {hm' : 0 < m'}
    (hx : Shows x (.finite s m e hm)) (hy : Shows y (.finite t m' e' hm'))
    (h : (UnpackedFloat.finite s m e hm).compare (.finite t m' e' hm') = some .lt) :
    ∃ s q t r, Reads x s q ∧ Reads y t r ∧ s.apply q < t.apply r := by
  obtain ⟨k, rfl, hk, hlt, hnorm, hx⟩ := hx
  obtain ⟨k', rfl, hk', hlt', hnorm', hy⟩ := hy
  refine ⟨s, _, t, _, hx, hy, ?_⟩
  cases s with
  | positive =>
    cases t with
    | negative => cases h
    | positive =>
      have h := compare_then_eq_lt_iff.1 (Option.some.inj h)
      simp only [Sign.apply]
      omega
  | negative =>
    cases t with
    | negative =>
      have h := Option.some.inj h
      rw [Ordering.swap_then, Int.compare_swap, Nat.compare_swap] at h
      have h := compare_then_eq_lt_iff.1 h
      simp only [Sign.apply]
      omega
    | positive =>
      simp only [Sign.apply]
      omega

/-- **What compares as less has the lesser signed magnitude.** -/
theorem apply_lt_of_compare (hx : Shows x u) (hy : Shows y v) (h : u.compare v = some .lt) :
    ∃ s q t r, Reads x s q ∧ Reads y t r ∧ s.apply q < t.apply r := by
  cases u with
  | notANumber => cases h
  | infinity s =>
    cases v with
    | notANumber => cases s <;> cases h
    | infinity t | zero t =>
      refine ⟨s, _, t, _, hx, hy, ?_⟩
      cases s <;> cases t <;> first | decide | cases h
    | finite t m e =>
      obtain ⟨k, -, hk, hm, -, hy⟩ := hy
      refine ⟨s, _, t, _, hx, hy, ?_⟩
      cases s with
      | positive => cases h
      | negative => cases t <;> simp only [Sign.apply] <;> omega
  | zero s =>
    cases v with
    | notANumber => cases h
    | infinity t =>
      refine ⟨s, _, t, _, hx, hy, ?_⟩
      cases t with
      | negative => cases h
      | positive => cases s <;> decide
    | zero t => cases h
    | finite t m e hm =>
      obtain ⟨k, -, -, -, -, hy⟩ := hy
      refine ⟨s, _, t, _, hx, hy, ?_⟩
      cases t with
      | negative => cases h
      | positive => cases s <;> simp only [Sign.apply] <;> omega
  | finite s m e hm =>
    cases v with
    | notANumber => cases h
    | infinity t | zero t =>
      obtain ⟨k, -, hk, hlt, hnorm, hx⟩ := hx
      refine ⟨s, _, t, _, hx, hy, ?_⟩
      cases s <;> cases t <;> first | (simp only [Sign.apply]; omega) | cases h
    | finite t m' e' hm' => exact apply_lt_of_compare_finite hx hy h

/-- **The total order of floats keeps the order of numbers.** -/
theorem orderKey_lt_of_lt (h : x < y) : orderKey x < orderKey y := by
  obtain ⟨s, q, t, r, hx, hy, hlt⟩ := apply_lt_of_compare (shows_unpack x) (shows_unpack y) (lt_iff.1 h)
  cases s with
  | negative =>
    have := orderKey_negative hx
    cases t with
    | negative =>
      have := orderKey_negative hy
      simp only [Sign.apply] at hlt
      omega
    | positive =>
      have := orderKey_positive hy
      omega
  | positive =>
    have := orderKey_positive hx
    cases t with
    | negative =>
      simp only [Sign.apply] at hlt
      omega
    | positive =>
      have := orderKey_positive hy
      simp only [Sign.apply] at hlt
      omega

end FloatOrder
end Cdcl
