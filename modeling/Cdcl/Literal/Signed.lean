import Cdcl.Literal
/-!
# Literal.Signed — literals held as 32 bit integers

The written form of a literal, kept in a signed word.  Here the ends of the range matter: zero is no literal, the
greatest atom has no positive form, and the least integer has no negation.  Each operation that would leave the range
answers `none`.

What an operation answers stands for the integer that was asked for: the negation (`negate?_eq_some_iff`), the packed
form (`packed?_eq_some_iff`), and the way back from it, which asks for an atom that a table may hold
(`ofPacked?_eq_some_iff`).
-/
namespace Cdcl
namespace Literal.Signed

/-- The integer, if a signed word of 32 bits holds it. -/
def ofInt? (v : Int) : Option Int32 :=
  if Int32.minValue.toInt ≤ v ∧ v ≤ Int32.maxValue.toInt then some (Int32.ofInt v) else none

def negate? (v : Int32) : Option Int32 := ofInt? (-v.toInt)

/-- The integer of an atom and a polarity.  The atom is first read as a signed word. -/
def ofAtom? (atom : UInt32) (positive : Bool) : Option Int32 := do
  let external ← ofInt? (atom.toInt32.toInt + 1)
  if positive then some external else negate? external

def atom? (v : Int32) : Option Nat := if v.toInt = 0 then none else some (v.toInt.natAbs - 1)

def positive (v : Int32) : Bool := 0 < v.toInt

/-- The packed form of a signed literal. -/
def packed? (v : Int32) : Option Literal := Literal.ofInt? v.toInt

/-- The signed form of a packed literal. -/
def ofPacked? (l : Literal) : Option Int32 := ofAtom? (UInt32.ofNat l.atom) l.positive

/-! ## What the operations answer -/

theorem ofInt?_eq_some_iff {v : Int} {w : Int32} : ofInt? v = some w ↔ w.toInt = v := by
  constructor
  · intro h
    unfold ofInt? at h
    split at h
    · rename_i hv
      cases h
      rw [Int32.toInt_minValue, Int32.toInt_maxValue] at hv
      exact Int32.toInt_ofInt_of_le hv.1 (Int.lt_of_le_sub_one hv.2)
    · cases h
  · rintro rfl
    rw [ofInt?, if_pos ⟨w.minValue_le_toInt, w.toInt_le⟩, Int32.ofInt_toInt]

theorem exists_ofInt? {v : Int} (hlow : -2147483648 ≤ v) (hhigh : v ≤ 2147483647) : ∃ w, ofInt? v = some w :=
  ⟨_, if_pos ⟨hlow, hhigh⟩⟩

theorem negate?_eq_some_iff {v w : Int32} : negate? v = some w ↔ w.toInt = -v.toInt := ofInt?_eq_some_iff

theorem natAbs_toInt_le (v : Int32) : v.toInt.natAbs ≤ 2147483648 := by
  have hlow := v.le_toInt
  have hhigh := v.toInt_lt
  omega

/-- **The packed form is the literal that is written as the integer.** -/
theorem packed?_eq_some_iff {v : Int32} {l : Literal} : packed? v = some l ↔ l.toInt = v.toInt :=
  Literal.ofInt?_eq_some_iff (natAbs_toInt_le v)

/-- **A signed form is made of the atoms that a table may hold**, and stands for the integer that the packed form is
written as. -/
theorem ofAtom?_eq_some_iff {a : Nat} (h : a < 2147483648) {p : Bool} {v : Int32} :
    ofAtom? (UInt32.ofNat a) p = some v ↔ a ≤ atomMax ∧ v.toInt = (Literal.ofAtom a p).toInt := by
  have hcast : (UInt32.ofNat a).toInt32.toInt = a := by
    rw [UInt32.toInt32_ofNat', Int32.toInt_ofNat_of_lt h]
  rw [Literal.toInt, Literal.atom_ofAtom h, Literal.positive_ofAtom h]
  unfold ofAtom? atomMax
  rw [hcast, Option.bind_eq_bind, Option.bind_eq_some_iff]
  constructor
  · rintro ⟨w, hw, hv⟩
    have hfit := w.toInt_lt
    rw [ofInt?_eq_some_iff] at hw
    cases p with
    | true =>
      cases hv
      exact ⟨by omega, hw⟩
    | false =>
      rw [if_neg Bool.false_ne_true, negate?_eq_some_iff, hw] at hv
      exact ⟨by omega, hv⟩
  · rintro ⟨ha, hv⟩
    obtain ⟨w, hw⟩ : ∃ w, ofInt? ((a : Int) + 1) = some w := exists_ofInt? (by omega) (by omega)
    refine ⟨w, hw, ?_⟩
    cases p with
    | true => rw [if_pos rfl, Int32.toInt_inj.1 ((ofInt?_eq_some_iff.1 hw).trans hv.symm)]
    | false => rw [if_neg Bool.false_ne_true, negate?_eq_some_iff, ofInt?_eq_some_iff.1 hw]; exact hv

theorem ofPacked?_eq_some_iff {l : Literal} {v : Int32} :
    ofPacked? l = some v ↔ l.atom ≤ atomMax ∧ v.toInt = l.toInt := by
  rw [ofPacked?, ofAtom?_eq_some_iff l.atom_lt, Literal.ofAtom_atom]

end Literal.Signed
end Cdcl
