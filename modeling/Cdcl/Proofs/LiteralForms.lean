import Cdcl.Clause
import Cdcl.Literal.Signed
/-!
# LiteralForms — the packed and the signed form of a literal agree

Both forms stand for the same integer, and an integer tells its atom and its polarity (`Literal.toInt_eq_iff`).  So the
forms agree in all they tell, and each is made of the other without loss (`forms_agree`).  The packed form has room for
one atom more than a table may hold.  It is the atom of the least signed word, which has neither a negation nor a way
back from its packed form (`minValue_not_returned`).

Packed words are ordered with a literal right before its negation, so that in a sorted clause the two are neighbours.
-/
namespace Cdcl

namespace Literal.Signed

/-- Only zero has no packed form. -/
theorem exists_packed? {v : Int32} (h : v ≠ 0) : ∃ l, packed? v = some l :=
  ⟨_, if_neg fun e => h (Int32.toInt_inj.1 e)⟩

theorem atom?_of_packed? {v : Int32} {l : Literal} (h : packed? v = some l) : atom? v = some l.atom := by
  rw [packed?_eq_some_iff] at h
  rw [atom?, ← h, if_neg l.toInt_ne_zero, l.natAbs_toInt, Nat.add_sub_cancel]

theorem positive_of_packed? {v : Int32} {l : Literal} (h : packed? v = some l) : positive v = l.positive := by
  rw [packed?_eq_some_iff] at h
  rw [positive, ← h, Bool.eq_iff_iff, decide_eq_true_iff, toInt_pos_iff]

theorem toInt_ne_minValue {v : Int32} (h : v ≠ Int32.minValue) : v.toInt ≠ -2147483648 := fun e =>
  h (Int32.toInt_inj.1 e)

/-- Only the least word has no negation. -/
theorem exists_negate? {v : Int32} (h : v ≠ Int32.minValue) : ∃ w, negate? v = some w := by
  have hne := toInt_ne_minValue h
  have hlow := v.le_toInt
  have hhigh := v.toInt_lt
  exact exists_ofInt? (by omega) (by omega)

theorem packed?_negate {v w : Int32} {l : Literal} (h : packed? v = some l) (hw : negate? v = some w) :
    packed? w = some l.negate := by
  rw [packed?_eq_some_iff] at h ⊢
  rw [toInt_negate, h, negate?_eq_some_iff.1 hw]

/-- Only the least word has an atom that no table holds. -/
theorem atom_le_of_packed? {v : Int32} {l : Literal} (hv : v ≠ Int32.minValue) (h : packed? v = some l) :
    l.atom ≤ atomMax := by
  rw [packed?_eq_some_iff] at h
  have hne := toInt_ne_minValue hv
  have hlow := v.le_toInt
  have hhigh := v.toInt_lt
  have habs := l.natAbs_toInt
  unfold atomMax
  omega

theorem exists_ofPacked? {l : Literal} (h : l.atom ≤ atomMax) : ∃ v, ofPacked? l = some v := by
  have habs := l.natAbs_toInt
  have hroom : l.atom ≤ 2147483646 := h
  obtain ⟨v, hv⟩ : ∃ v, ofInt? l.toInt = some v := exists_ofInt? (by omega) (by omega)
  exact ⟨v, ofPacked?_eq_some_iff.2 ⟨h, ofInt?_eq_some_iff.1 hv⟩⟩

theorem packed?_of_ofPacked? {l : Literal} {v : Int32} (h : ofPacked? l = some v) : packed? v = some l :=
  packed?_eq_some_iff.2 (ofPacked?_eq_some_iff.1 h).2.symm

theorem ofPacked?_of_packed? {v : Int32} {l : Literal} (hv : v ≠ Int32.minValue) (h : packed? v = some l) :
    ofPacked? l = some v :=
  ofPacked?_eq_some_iff.2 ⟨atom_le_of_packed? hv h, (packed?_eq_some_iff.1 h).symm⟩

/-- **The two forms of a literal agree, and each is made of the other without loss.**  A signed word that is not zero
has a packed form, with its atom, its polarity and its integer; unless it is the least word, the negation of that form is
the packed form of its own negation, and the way back leads to it.  A literal of an atom that a table may hold has a
signed form, with that atom and polarity, and its packed form is the literal.  And where a clause has a literal and its
negation, they are neighbours in its normal form. -/
theorem forms_agree :
    (∀ v : Int32, v ≠ 0 → ∃ l, packed? v = some l ∧ atom? v = some l.atom ∧ positive v = l.positive ∧
      l.toInt = v.toInt ∧
      (v ≠ Int32.minValue → (∃ w, negate? v = some w ∧ packed? w = some l.negate) ∧ ofPacked? l = some v)) ∧
    (∀ (a : Nat) (p : Bool), a ≤ atomMax → ∃ v, ofPacked? (ofAtom a p) = some v ∧ atom? v = some a ∧ positive v = p ∧
      packed? v = some (ofAtom a p)) ∧
    ∀ (c : Clause), ∀ l ∈ c, l.negate ∈ c → (if l.positive then [l, l.negate] else [l.negate, l]) <:+: c.normal := by
  refine ⟨fun v hv => ?_, fun a p ha => ?_, fun c l hl hn => ?_⟩
  · obtain ⟨l, h⟩ := exists_packed? hv
    refine ⟨l, h, atom?_of_packed? h, positive_of_packed? h, packed?_eq_some_iff.1 h, fun hmin => ?_⟩
    obtain ⟨w, hw⟩ := exists_negate? hmin
    exact ⟨⟨w, hw, packed?_negate h hw⟩, ofPacked?_of_packed? hmin h⟩
  · have hroom : a < 2147483648 := Nat.lt_of_le_of_lt ha (by decide)
    have hatom : (ofAtom a p).atom = a := atom_ofAtom hroom p
    obtain ⟨v, hv⟩ := exists_ofPacked? (Nat.le_trans (Nat.le_of_eq hatom) ha)
    have h := packed?_of_ofPacked? hv
    refine ⟨v, hv, ?_, ?_, h⟩
    · rw [atom?_of_packed? h, hatom]
    · rw [positive_of_packed? h, positive_ofAtom hroom]
  · exact Clause.infix_normal hl hn

/-- The least word but one and the negative literal of the greatest atom are forms of each other; and sorting brings two
and its negation together. -/
theorem forms_agree_greatest :
    (Int32.minValue + 1 ≠ 0 ∧ Int32.minValue + 1 ≠ Int32.minValue ∧
      ∃ l, packed? (Int32.minValue + 1) = some l ∧ l.atom = atomMax ∧
        negate? (Int32.minValue + 1) = some Int32.maxValue ∧ packed? Int32.maxValue = some l.negate ∧
        ofPacked? l = some (Int32.minValue + 1)) ∧
    (atomMax ≤ atomMax ∧ ∃ v, ofPacked? (ofAtom atomMax false) = some v ∧ packed? v = some (ofAtom atomMax false)) ∧
    ofAtom 1 true ∈ [ofAtom 1 false, ofAtom 0 true, ofAtom 1 true] ∧
      (ofAtom 1 true).negate ∈ [ofAtom 1 false, ofAtom 0 true, ofAtom 1 true] ∧
      [ofAtom 1 true, ofAtom 1 false] <:+: Clause.normal [ofAtom 1 false, ofAtom 0 true, ofAtom 1 true] := by
  refine ⟨⟨by decide, by decide, ?_⟩, ⟨Nat.le_refl _, ?_⟩, by decide, by decide, ?_⟩
  · obtain ⟨l, hl, hatom, -, -, h⟩ := forms_agree.1 (Int32.minValue + 1) (by decide)
    obtain ⟨⟨w, hw, hn⟩, hback⟩ := h (by decide)
    have hmax : negate? (Int32.minValue + 1) = some Int32.maxValue := by decide
    have hgreatest : atom? (Int32.minValue + 1) = some atomMax := by decide
    cases hw.symm.trans hmax
    exact ⟨l, hl, Option.some.inj (hatom.symm.trans hgreatest), hmax, hn, hback⟩
  · obtain ⟨v, hv, -, -, h⟩ := forms_agree.2.1 atomMax false (Nat.le_refl _)
    exact ⟨v, hv, h⟩
  · exact forms_agree.2.2 [ofAtom 1 false, ofAtom 0 true, ofAtom 1 true] (ofAtom 1 true) (by decide) (by decide)

/-- The least signed word is not zero and has a packed form, but neither a negation nor a way back from that form. -/
theorem minValue_not_returned : Int32.minValue ≠ 0 ∧ packed? Int32.minValue = some ⟨4294967295⟩ ∧
    negate? Int32.minValue = none ∧ ofPacked? ⟨4294967295⟩ = none := by
  decide

end Literal.Signed

end Cdcl
