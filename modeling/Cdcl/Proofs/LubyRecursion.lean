import Cdcl.Luby
import Mathlib.Algebra.Group.Nat.Defs
/-!
# LubyRecursion — the sequence computed from the index is the sequence defined by recursion

The initial piece of length `2 ^ k - 1` is the piece before it twice over, and then one more element, the greatest so
far.  So the exponent at an index is `k - 1` where the index is the last of such a piece, and otherwise that at an
earlier index.  The two loops find the least piece around an index and halve it, and they answer this exponent
(`exponent?_recursion`).
-/
namespace Cdcl

namespace Luby

/-- The exponent at an index, by recursion on the pieces; `p` of them end at or before the index. -/
def exponent (index : Nat) : Nat :=
  let p := (index + 1).log2
  if index + 1 = 2 ^ (p + 1) - 1 then p else exponent (index - (2 ^ p - 1))
termination_by index
decreasing_by
  rename_i hp
  have hle : 2 ^ p ≤ index + 1 := Nat.log2_self_le (Nat.succ_ne_zero index)
  have hlt : index + 1 < 2 ^ (p + 1) := Nat.lt_log2_self
  change index - (2 ^ p - 1) < index
  cases hz : p with
  | zero => rw [hz] at hp hlt; omega
  | succ q => have hq := Nat.two_pow_pos q; rw [hz] at hle; omega

/-- The last index of a piece carries the exponent of the piece. -/
theorem exponent_of_last {index p : Nat} (h : index + 1 = 2 ^ (p + 1) - 1) : exponent index = p := by
  have hpow := Nat.two_pow_pos p
  have hp : (index + 1).log2 = p := (Nat.log2_eq_iff (Nat.succ_ne_zero index)).2 ⟨by omega, by omega⟩
  rw [exponent, hp, if_pos h]

/-- An index past the first half of a piece, and not its last, carries the exponent of the index in the second half. -/
theorem exponent_of_lt {index p : Nat} (h : 2 ^ p ≤ index + 1) (h' : index + 1 < 2 ^ (p + 1) - 1) :
    exponent index = exponent (index - (2 ^ p - 1)) := by
  have hp : (index + 1).log2 = p := (Nat.log2_eq_iff (Nat.succ_ne_zero index)).2 ⟨h, by omega⟩
  rw [exponent, hp, if_neg (Nat.ne_of_lt h')]

/-- The first loop, from a piece whose first half is filled, stops at the piece of the logarithm. -/
theorem enclosing_eq {count : Nat} (hc : count ≠ 0) : ∀ {fuel p : Nat}, 2 ^ p ≤ count → count < 2 ^ (p + 1 + fuel) →
    enclosing count fuel (2 ^ (p + 1) - 1) p = (2 ^ (count.log2 + 1) - 1, (count.log2 : Int))
  | 0, p, h, h' => by rw [enclosing, (Nat.log2_eq_iff hc).2 ⟨h, h'⟩]
  | fuel + 1, p, h, h' => by
    have hpow := Nat.two_pow_pos p
    by_cases hlt : 2 ^ (p + 1) - 1 < count
    · have hsize : 2 * (2 ^ (p + 1) - 1) + 1 = 2 ^ (p + 1 + 1) - 1 := by omega
      have hfuel : p + 1 + (fuel + 1) = p + 1 + 1 + fuel := by omega
      rw [enclosing, if_pos hlt, hsize]
      exact enclosing_eq hc (by omega) (hfuel ▸ h')
    · rw [enclosing, if_neg hlt, (Nat.log2_eq_iff hc).2 ⟨h, by omega⟩]

/-- The second loop finds the exponent of an index of its piece: the remainder is the index in the half that holds it. -/
theorem within_eq : ∀ {p fuel index : Nat}, p < fuel → index + 1 < 2 ^ (p + 1) →
    within fuel (2 ^ (p + 1) - 1) p index = some (exponent index : Int)
  | _, 0, _, hf, _ => absurd hf (Nat.not_lt_zero _)
  | 0, fuel + 1, index, _, h => by
    have hi : index + 1 = 2 ^ (0 + 1) - 1 := by omega
    rw [within, if_pos (by omega), exponent_of_last hi]
  | p + 1, fuel + 1, index, hf, h => by
    have hpow := Nat.two_pow_pos p
    by_cases hlast : 2 ^ (p + 1 + 1) - 1 - 1 = index
    · rw [within, if_pos hlast, exponent_of_last (p := p + 1) (by omega)]
    · have hhalf : (2 ^ (p + 1 + 1) - 1 - 1) / 2 = 2 ^ (p + 1) - 1 := by omega
      have hpos : 2 ^ (p + 1) - 1 ≠ 0 := by omega
      rw [within, if_neg hlast, hhalf]
      dsimp only
      rw [if_neg hpos, Int.natCast_succ, Int.add_sub_cancel]
      by_cases hfirst : index < 2 ^ (p + 1) - 1
      · rw [Nat.mod_eq_of_lt hfirst]
        exact within_eq (by omega) (by omega)
      · rw [Nat.mod_eq_sub_mod (by omega), Nat.mod_eq_of_lt (by omega), exponent_of_lt (p := p + 1) (by omega) (by omega)]
        exact within_eq (by omega) (by omega)

/-- The piece that the first loop stops at. -/
theorem enclosing_self (index : Nat) : enclosing (index + 1) (index + 1) 1 0 =
    (2 ^ ((index + 1).log2 + 1) - 1, ((index + 1).log2 : Int)) := by
  have hfuel : index + 1 < 2 ^ (0 + 1 + (index + 1)) :=
    Nat.lt_of_lt_of_le Nat.lt_two_pow_self (Nat.pow_le_pow_right Nat.two_pos (by omega))
  exact enclosing_eq (Nat.succ_ne_zero index) (p := 0) (by omega) hfuel

theorem lt_enclosing_self (index : Nat) : index < (enclosing (index + 1) (index + 1) 1 0).1 := by
  have hlt := (Nat.log2_lt (Nat.succ_ne_zero index)).1 (Nat.lt_succ_self (index + 1).log2)
  rw [enclosing_self]
  dsimp only
  omega

/-- No piece that an index of 32 bits needs is near the bounds of a word. -/
theorem enclosing_self_lt {index : Nat} (h : index ≤ lubyIndexMax) :
    (enclosing (index + 1) (index + 1) 1 0).1 < 2 ^ 33 := by
  have hlog : (index + 1).log2 < 33 :=
    (Nat.log2_lt (Nat.succ_ne_zero index)).2 (Nat.lt_of_le_of_lt (Nat.succ_le_succ h) (by decide))
  have hpow : 2 ^ ((index + 1).log2 + 1) ≤ 2 ^ 33 := Nat.pow_le_pow_right Nat.two_pos hlog
  rw [enclosing_self]
  dsimp only
  omega

theorem exponent?_eq_some (index : Nat) : exponent? index = some (exponent index : Int) := by
  have hlt := (Nat.log2_lt (Nat.succ_ne_zero index)).1 (Nat.lt_succ_self (index + 1).log2)
  have hfuel : (index + 1).log2 + 1 < 2 ^ ((index + 1).log2 + 1) := Nat.lt_two_pow_self
  rw [exponent?, enclosing_self]
  exact within_eq (by omega) hlt

/-- **The exponent computed from the index is the one that the recursion on the pieces gives.**  The first loop stops
at a piece that holds the index, and no piece of an index of 32 bits exceeds a word.  The second loop neither divides by
zero nor runs on, and what it answers is a natural number, the exponent of the element: `k - 1` at the last index of a
piece of length `2 ^ k - 1`, and elsewhere the exponent of an earlier index. -/
theorem exponent?_recursion (index : Nat) :
    index < (enclosing (index + 1) (index + 1) 1 0).1 ∧
    (index ≤ lubyIndexMax → (enclosing (index + 1) (index + 1) 1 0).1 < 2 ^ 33) ∧
    exponent? index = some (exponent index : Int) ∧
    (∀ base : Float, element? base index = some (power base (exponent index))) ∧
    (∀ k, index + 1 = 2 ^ k - 1 → exponent index = k - 1) ∧
    (∀ k, 2 ^ (k - 1) ≤ index + 1 → index + 1 < 2 ^ k - 1 → exponent index = exponent (index - (2 ^ (k - 1) - 1))) ∧
    ∃ k, 2 ^ (k - 1) ≤ index + 1 ∧ index + 1 ≤ 2 ^ k - 1 := by
  refine ⟨lt_enclosing_self index, enclosing_self_lt, exponent?_eq_some index, fun base => ?_, fun k hk => ?_,
    fun k hk hk' => ?_, (index + 1).log2 + 1, Nat.log2_self_le (Nat.succ_ne_zero index), ?_⟩
  · rw [element?, exponent?_eq_some]
  · cases k with
    | zero => cases hk
    | succ p => exact exponent_of_last hk
  · cases k with
    | zero => cases hk'
    | succ p => exact exponent_of_lt hk hk'
  · exact Nat.le_sub_one_of_lt Nat.lt_log2_self

/-- The index 12 is in the second half of the piece of length 15, where its place is 5; 5 is in the second half of the
piece of length 7, where its place is 2, the last of the piece of length 3. -/
theorem exponent?_recursion_twelve : exponent 12 = exponent 5 ∧ exponent 5 = exponent 2 ∧ exponent 2 = 1 :=
  ⟨(exponent?_recursion 12).2.2.2.2.2.1 4 (by decide) (by decide),
    (exponent?_recursion 5).2.2.2.2.2.1 3 (by decide) (by decide), (exponent?_recursion 2).2.2.2.2.1 2 rfl⟩

end Luby

end Cdcl
