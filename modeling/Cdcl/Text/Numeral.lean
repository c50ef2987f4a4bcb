import Cdcl.Text.Layout
import Cdcl.Text.Number
import Mathlib.Data.List.Induction
/-!
# Text.Numeral — which words stand for which numbers

A numeral is one digit or more, each a tenth of the one before it (`Digits`), and a sign may stand before it (`Unsigned`,
`Signed`).  What is read as a number is a numeral within the range of the type (`unsigned?_eq_some_iff`,
`signed64?_eq_some_iff`), and a number is written as a numeral for it (`digits_toString`, `signed_toString`).
-/
namespace Cdcl
namespace Text

/-- Digits, one or more, that stand for a number. -/
inductive Digits : List Char → Nat → Prop
  | one {d : Nat} (h : d < 10) : Digits [d.digitChar] d
  | more {w : List Char} {n d : Nat} (hw : Digits w n) (h : d < 10) : Digits (w ++ [d.digitChar]) (10 * n + d)

/-- Digits, or a plus sign and digits. -/
inductive Unsigned : List Char → Nat → Prop
  | plain {w : List Char} {n : Nat} (h : Digits w n) : Unsigned w n
  | plus {w : List Char} {n : Nat} (h : Digits w n) : Unsigned ('+' :: w) n

/-- Digits with a sign or without. -/
inductive Signed : List Char → Int → Prop
  | unsigned {w : List Char} {n : Nat} (h : Unsigned w n) : Signed w n
  | minus {w : List Char} {n : Nat} (h : Digits w n) : Signed ('-' :: w) (-n)

variable {w : List Char} {n greatest : Nat} {v : Int}

/-! ## Digits -/

theorem isDigit_digitChar {d : Nat} (h : d < 10) : isDigit d.digitChar = true := by
  decide +revert

theorem exists_digitChar {c : Char} (h : isDigit c = true) : ∃ d < 10, c = d.digitChar := by
  simp only [isDigit, Bool.and_eq_true, decide_eq_true_eq, Char.le_def, UInt32.le_iff_toNat_le] at h
  have hc : 48 ≤ c.toNat ∧ c.toNat ≤ 57 := h
  refine ⟨c.toNat - 48, by omega, Char.toNat_inj.1 ?_⟩
  rw [Nat.toNat_digitChar_of_lt_ten (by omega)]
  omega

theorem Digits.ne_nil (h : Digits w n) : w ≠ [] := by cases h <;> simp

theorem Digits.isDigit_of_mem (h : Digits w n) : ∀ c ∈ w, isDigit c = true := by
  induction h with
  | one h => simpa using isDigit_digitChar h
  | more _ h ih =>
    rw [List.forall_mem_append]
    exact ⟨ih, by simpa using isDigit_digitChar h⟩

theorem digitsValue_append (w : List Char) {d : Nat} (h : d < 10) :
    digitsValue (w ++ [d.digitChar]) = 10 * digitsValue w + d := by
  simp [digitsValue, Nat.toNat_digitChar_sub_48_of_lt_ten h]

theorem Digits.digitsValue_eq (h : Digits w n) : digitsValue w = n := by
  induction h with
  | one h => exact (digitsValue_append [] h).trans (Nat.zero_add _)
  | more _ h ih => rw [digitsValue_append _ h, ih]

theorem digits_of_forall : ∀ {w : List Char}, w ≠ [] → (∀ c ∈ w, isDigit c = true) → Digits w (digitsValue w) := by
  intro w
  induction w using List.reverseRecOn with
  | nil => exact fun h _ => absurd rfl h
  | append_singleton w c ih =>
    intro _ hall
    rw [List.forall_mem_append] at hall
    obtain ⟨d, hd, rfl⟩ := exists_digitChar (hall.2 c (by simp))
    rw [digitsValue_append w hd]
    by_cases hw : w = []
    · subst hw
      simpa [digitsValue] using Digits.one hd
    · exact .more (ih hw hall.1) hd

theorem natural?_eq_some_iff : natural? w = some n ↔ Digits w n := by
  refine ⟨fun h => ?_, fun h => ?_⟩
  · obtain ⟨hne, hall, rfl⟩ := isDigit_of_natural? h
    exact digits_of_forall hne hall
  · have hall := List.all_eq_true.2 h.isDigit_of_mem
    simp [natural?, h.ne_nil, hall, h.digitsValue_eq]

/-- **A number is written with digits that stand for it.** -/
theorem digits_toString (n : Nat) : Digits (toString n).toList n := by
  rw [Nat.toString_eq_repr, Nat.toList_repr]
  induction n using Nat.strongRecOn with
  | _ n ih =>
    by_cases hn : n < 10
    · rw [Nat.toDigits_of_lt_base hn]
      exact .one hn
    · have hstep := Digits.more (ih (n / 10) (by omega)) (Nat.mod_lt n (by decide : 10 > 0))
      rwa [← Nat.toDigits_of_base_le (by decide) (by omega), Nat.div_add_mod] at hstep

/-! ## Signs -/

theorem not_digits_of_sign {c : Char} (hc : isDigit c = false) : ¬Digits (c :: w) n := fun h => by
  rw [h.isDigit_of_mem c List.mem_cons_self] at hc
  cases hc

theorem unsigned_plus_iff : Unsigned ('+' :: w) n ↔ Digits w n := by
  refine ⟨fun h => ?_, .plus⟩
  cases h with
  | plain h => exact absurd h (not_digits_of_sign rfl)
  | plus h => exact h

theorem unsigned_iff_digits (hw : w.head? ≠ some '+') : Unsigned w n ↔ Digits w n := by
  refine ⟨fun h => ?_, .plain⟩
  cases h with
  | plain h => exact h
  | plus h => exact absurd rfl hw

/-- **A word is read as a number if it is a numeral for it, within the range.** -/
theorem unsigned?_eq_some_iff : unsigned? greatest w = some n ↔ Unsigned w n ∧ n ≤ greatest := by
  unfold unsigned?
  rw [Option.filter_eq_some_iff, decide_eq_true_eq]
  refine and_congr_left fun _ => ?_
  split
  · rw [natural?_eq_some_iff, unsigned_plus_iff]
  · rename_i hw
    rw [natural?_eq_some_iff, unsigned_iff_digits]
    rintro h
    obtain ⟨rest, rfl⟩ := List.head?_eq_some_iff.1 h
    exact hw _ rfl

theorem signed_minus_iff : Signed ('-' :: w) v ↔ ∃ n : Nat, v = -n ∧ Digits w n := by
  refine ⟨fun h => ?_, fun ⟨n, hv, h⟩ => hv ▸ .minus h⟩
  cases h with
  | unsigned h => exact absurd ((unsigned_iff_digits (by simp)).1 h) (not_digits_of_sign rfl)
  | minus h => exact ⟨_, rfl, h⟩

theorem signed_iff_unsigned (hw : w.head? ≠ some '-') : Signed w v ↔ ∃ n : Nat, v = n ∧ Unsigned w n := by
  refine ⟨fun h => ?_, fun ⟨n, hv, h⟩ => hv ▸ .unsigned h⟩
  cases h with
  | unsigned h => exact ⟨_, rfl, h⟩
  | minus h => exact absurd rfl hw

/-- **A word is read as an integer if it is a numeral for it, within the range of a signed word of 64 bits.** -/
theorem signed64?_eq_some_iff :
    signed64? w = some v ↔ Signed w v ∧ -9223372036854775808 ≤ v ∧ v ≤ 9223372036854775807 := by
  unfold signed64?
  split
  · rename_i w
    simp only [Option.map_eq_some_iff, Option.bind_eq_bind, Option.bind_eq_some_iff, Option.pure_def, Option.some.injEq,
      Option.filter_eq_some_iff, natural?_eq_some_iff, signed_minus_iff, decide_eq_true_eq]
    constructor
    · rintro ⟨_, ⟨n, ⟨h, hn⟩, rfl⟩, rfl⟩
      exact ⟨⟨n, rfl, h⟩, by omega, by omega⟩
    · rintro ⟨⟨n, rfl, h⟩, hn, -⟩
      exact ⟨_, ⟨n, ⟨h, by omega⟩, rfl⟩, rfl⟩
  · rename_i hw
    have hhead : w.head? ≠ some '-' := fun h => by
      obtain ⟨rest, rfl⟩ := List.head?_eq_some_iff.1 h
      exact hw _ rfl
    simp only [Option.map_eq_some_iff, unsigned?_eq_some_iff, signed_iff_unsigned hhead]
    constructor
    · rintro ⟨n, ⟨h, hn⟩, rfl⟩
      rw [Int.ofNat_eq_natCast]
      exact ⟨⟨n, rfl, h⟩, by omega, by omega⟩
    · rintro ⟨⟨n, rfl, h⟩, -, hn⟩
      exact ⟨n, ⟨h, by omega⟩, rfl⟩

/-- **An integer is written as a numeral for it.** -/
theorem signed_toString (v : Int) : Signed (toString v).toList v := by
  rw [Int.toString_eq_repr, Int.repr_eq_if]
  split
  · have h := Signed.unsigned (.plain (digits_toString v.toNat))
    rwa [Int.toNat_of_nonneg (by omega)] at h
  · have h := Signed.minus (digits_toString (-v).toNat)
    rw [Int.toNat_of_nonneg (by omega), Int.neg_neg] at h
    simpa using h

/-! ## Words -/

theorem isBlank_of_isDigit {c : Char} (h : isDigit c = true) : isBlank c = false := by
  obtain ⟨d, hd, rfl⟩ := exists_digitChar h
  decide +revert

/-- A numeral is a word. -/
theorem Signed.word (h : Signed w v) : w ≠ [] ∧ ∀ c ∈ w, isBlank c = false := by
  have hdigits : ∀ {w : List Char} {n : Nat}, Digits w n → ∀ c ∈ w, isBlank c = false := fun h c hc =>
    isBlank_of_isDigit (h.isDigit_of_mem c hc)
  rcases h with ⟨⟨h⟩ | ⟨h⟩⟩ | ⟨h⟩
  · exact ⟨h.ne_nil, hdigits h⟩
  · exact ⟨by simp, List.forall_mem_cons.2 ⟨by decide, hdigits h⟩⟩
  · exact ⟨by simp, List.forall_mem_cons.2 ⟨by decide, hdigits h⟩⟩

end Text
end Cdcl
