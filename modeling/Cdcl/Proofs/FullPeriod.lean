import Cdcl.Pcg32
import Mathlib.Data.UInt
import Mathlib.Dynamics.PeriodicPts.Lemmas
import Mathlib.SetTheory.Cardinal.NatCard
import Mathlib.Tactic.LinearCombination
import Mathlib.Tactic.Ring
/-!
# FullPeriod — the generator runs through all states, and no two seeds give the same one

A step multiplies by a number that is 1 modulo 4 and adds an odd one.  So `2 ^ k` steps add `2 ^ k` times an odd number
to the state, whatever the state is (`advance_iterate_two_pow`).  At 64 that is nothing and at 63 it is something, and a
power of two divides the period; so the period is `2 ^ 64`, all the states there are (`next32_period`).
-/
namespace Cdcl

namespace Pcg32

open Function
open scoped UInt64.CommRing

/-- `2 ^ k` steps add `2 ^ k` times an odd number, which is a multiple of four times the state apart. -/
theorem advance_iterate_two_pow : ∀ k : Nat, ∃ t u : UInt64, ∀ s,
    advance^[2 ^ k] s = s + 2 ^ k * (4 * t * s + 2 * u + 1)
  | 0 => by
    refine ⟨(multiplier - 1) / 4, (increment - 1) / 2, fun s => ?_⟩
    have hm : 4 * ((multiplier - 1) / 4) + 1 = multiplier := by decide
    have hi : 2 * ((increment - 1) / 2) + 1 = increment := by decide
    rw [pow_zero, pow_zero, iterate_one, advance]
    linear_combination -s * hm - hi
  | k + 1 => by
    obtain ⟨t, u, h⟩ := advance_iterate_two_pow k
    refine ⟨t + 2 ^ (k + 1) * t ^ 2, u + 2 ^ k * t * (2 * u + 1), fun s => ?_⟩
    rw [pow_succ, mul_two, iterate_add_apply, h, h]
    ring

theorem advance_iterate_full (s : UInt64) : advance^[2 ^ 64] s = s := by
  obtain ⟨t, u, h⟩ := advance_iterate_two_pow 64
  have hzero : (2 : UInt64) ^ 64 = 0 := by decide +kernel
  rw [h, hzero, zero_mul, add_zero]

theorem advance_iterate_half (s : UInt64) : advance^[2 ^ 63] s = s + 2 ^ 63 := by
  obtain ⟨t, u, h⟩ := advance_iterate_two_pow 63
  have hzero : (2 : UInt64) ^ 64 = 0 := by decide +kernel
  rw [h]
  linear_combination (2 * t * s + u) * hzero

/-- **Every state comes back after `2 ^ 64` steps, and after no fewer.** -/
theorem minimalPeriod_advance (s : UInt64) : minimalPeriod advance s = 2 ^ 64 := by
  have : Fact (Nat.Prime 2) := ⟨Nat.prime_two⟩
  refine minimalPeriod_eq_prime_pow (k := 63) (fun h => ?_) (advance_iterate_full s)
  have hhalf : s + 2 ^ 63 = s + 0 := by rw [← advance_iterate_half, add_zero]; exact h
  exact absurd (add_left_cancel hhalf) (by decide +kernel)

theorem advance_injective : Injective advance := by
  obtain ⟨n, hn⟩ := Nat.exists_eq_succ_of_ne_zero (Nat.pow_pos (n := 64) Nat.two_pos).ne'
  have hid : advance^[n] ∘ advance = id := funext fun s =>
    (congrFun (iterate_succ advance n).symm s).trans (hn ▸ advance_iterate_full s)
  exact Injective.of_comp (f := advance^[n]) (hid ▸ injective_id)

/-- From any state, each state is reached by fewer than `2 ^ 64` steps: so many steps lead to different ones. -/
theorem exists_advance_iterate (s s' : UInt64) : ∃ n < 2 ^ 64, advance^[n] s = s' := by
  have hinj : Injective fun i : Fin UInt64.size => advance^[i.val] s := fun i j h =>
    Fin.val_injective (iterate_injOn_Iio_minimalPeriod (minimalPeriod_advance s ▸ i.isLt)
      (minimalPeriod_advance s ▸ j.isLt) h)
  have hequiv : Fin UInt64.size ≃ UInt64 := ⟨UInt64.ofFin, UInt64.toFin, fun _ => rfl, fun _ => rfl⟩
  obtain ⟨i, hi⟩ := (Finite.injective_iff_surjective_of_equiv hequiv).1 hinj s'
  exact ⟨i.val, i.isLt, hi⟩

theorem next32_iterate (r : Pcg32) : ∀ n : Nat, (fun r : Pcg32 => r.next32.2)^[n] r = ⟨advance^[n] r.state⟩
  | 0 => rfl
  | n + 1 => by rw [iterate_succ_apply', iterate_succ_apply', next32_iterate r n]; rfl

theorem ofSeed_injective : Injective ofSeed := fun _ _ h =>
  add_left_cancel (advance_injective (congrArg Pcg32.state h))

/-- **The generator has the full period, and seeds do not collide.**  It is back at a state after `n` words just when
`2 ^ 64` divides `n`; on the way it goes through every state; and seeds of eight bytes that differ give states that do. -/
theorem next32_period :
    (∀ (r : Pcg32) (n : Nat), ((fun r => r.next32.2)^[n] r).state = r.state ↔ 2 ^ 64 ∣ n) ∧
    (∀ (r : Pcg32) (s : UInt64), ∃ n < 2 ^ 64, ((fun r => r.next32.2)^[n] r).state = s) ∧
    ∀ seed seed' : List UInt8, seed.length = 8 → seed'.length = 8 → seed ≠ seed' →
      (ofBytes seed).state ≠ (ofBytes seed').state := by
  refine ⟨fun r n => ?_, fun r s => ?_, fun _ _ h h' hne he => hne ?_⟩
  · rw [next32_iterate, ← minimalPeriod_advance r.state]
    exact isPeriodicPt_iff_minimalPeriod_dvd
  · obtain ⟨n, hn, hs⟩ := exists_advance_iterate r.state s
    exact ⟨n, hn, by rw [next32_iterate]; exact hs⟩
  · have hw := ofSeed_injective (congrArg Pcg32.mk he)
    rw [← bytes_numberOfBytes h.le, ← bytes_numberOfBytes h'.le, hw, h, h']

/-- The seeds two and three differ, and so do their states; and half the period does not bring the state of two back. -/
theorem next32_period_two : (ofBytes [2, 0, 0, 0, 0, 0, 0, 0]).state ≠ (ofBytes [3, 0, 0, 0, 0, 0, 0, 0]).state ∧
    ((fun r => r.next32.2)^[2 ^ 63] (ofBytes [2, 0, 0, 0, 0, 0, 0, 0])).state ≠
      (ofBytes [2, 0, 0, 0, 0, 0, 0, 0]).state :=
  ⟨next32_period.2.2 _ _ rfl rfl (by decide), fun h => absurd ((next32_period.1 _ _).1 h) (by decide)⟩

end Pcg32

end Cdcl
