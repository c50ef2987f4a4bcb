/-!
# Literal — an atom with a polarity, packed into one word

Atoms are natural numbers, counted from zero.  A literal is a word of 32 bits: the low bit is clear for a positive
literal and set for a negative one, and the bits above it are the atom.  Negation flips the low bit, the word itself
indexes tables with a slot per literal, and words compare in the order of atoms, a positive literal right before its
negation.

Outside, a literal is written as a signed integer: atom `a` is written `a + 1`, and the sign is the polarity.

A literal is its atom and its polarity (`eq_iff`).  What is written is read back (`ofInt?_toInt`), and no literal is
read from anything else (`ofInt?_eq_some_iff`).
-/
namespace Cdcl

/-- The greatest atom a table may hold: its negative literal still fits the word. -/
def atomMax : Nat := 2147483646

/-- How many atoms a table may hold. -/
def atomLimit : Nat := atomMax + 1

structure Literal where
  code : UInt32
deriving DecidableEq, Inhabited, Repr

namespace Literal

/-- The literal of an atom; a word has room for 31 bits of the atom, and drops the bits above. -/
def ofAtom (atom : Nat) (positive : Bool) : Literal :=
  ⟨UInt32.ofNat (2 * atom + if positive then 0 else 1)⟩

/-- The slot of the literal in a table with a slot per literal. -/
@[inline] def index (l : Literal) : Nat := l.code.toNat

@[inline] def atom (l : Literal) : Nat := (l.code >>> 1).toNat

@[inline] def positive (l : Literal) : Bool := l.code &&& 1 == 0

@[inline] def negate (l : Literal) : Literal := ⟨l.code ^^^ 1⟩

instance : Neg Literal := ⟨negate⟩

def toInt (l : Literal) : Int := if l.positive then (l.atom + 1 : Nat) else -(l.atom + 1 : Nat)

def toText (l : Literal) : String := toString l.toInt

/-- The literal an integer stands for.  Zero stands for none. -/
def ofInt? (v : Int) : Option Literal :=
  if v = 0 then none else some (ofAtom (v.natAbs - 1) (0 < v))

instance : LE Literal := ⟨fun a b => a.code ≤ b.code⟩

instance : LT Literal := ⟨fun a b => a.code < b.code⟩

instance : DecidableLE Literal := fun a b => inferInstanceAs (Decidable (a.code ≤ b.code))

instance : DecidableLT Literal := fun a b => inferInstanceAs (Decidable (a.code < b.code))

instance : Ord Literal := ⟨fun a b => compare a.code b.code⟩

/-! ## Index, atom and polarity -/

theorem index_lt (l : Literal) : l.index < 4294967296 := l.code.toNat_lt

theorem index_inj {l m : Literal} : l.index = m.index ↔ l = m := by
  cases l; cases m
  simp [index, UInt32.toNat_inj]

theorem atom_eq_div (l : Literal) : l.atom = l.index / 2 := by
  simp [atom, index, Nat.shiftRight_eq_div_pow]

theorem positive_iff (l : Literal) : l.positive = true ↔ l.index % 2 = 0 := by
  simp [positive, index, ← UInt32.toNat_inj, Nat.and_one_is_mod]

theorem atom_lt (l : Literal) : l.atom < 2147483648 := by
  have := l.index_lt
  rw [atom_eq_div]
  omega

theorem index_eq (l : Literal) : l.index = 2 * l.atom + if l.positive then 0 else 1 := by
  rw [atom_eq_div]
  split
  · have := l.positive_iff.1 ‹_›
    omega
  · have := mt l.positive_iff.2 ‹_›
    omega

/-- **A literal is its atom and its polarity.** -/
theorem eq_iff {l m : Literal} : l = m ↔ l.atom = m.atom ∧ l.positive = m.positive := by
  constructor
  · rintro rfl
    exact ⟨rfl, rfl⟩
  · intro ⟨ha, hp⟩
    rw [← index_inj, index_eq, m.index_eq, ha, hp]

theorem index_negate (l : Literal) : l.negate.index = l.index ^^^ 1 := by simp [negate, index]

@[simp] theorem atom_negate (l : Literal) : l.negate.atom = l.atom := by
  rw [atom_eq_div, atom_eq_div, index_negate, Nat.xor_div_two, Nat.xor_zero]

@[simp] theorem positive_negate (l : Literal) : l.negate.positive = !l.positive := by
  have := @Nat.xor_mod_two_eq_one l.index 1
  rw [Bool.eq_iff_iff, positive_iff, Bool.not_eq_true', ← Bool.not_eq_true, positive_iff, index_negate]
  omega

@[simp] theorem negate_negate (l : Literal) : l.negate.negate = l := by simp [eq_iff]

theorem negate_ne (l : Literal) : l.negate ≠ l := by simp [eq_iff]

theorem index_ofAtom {a : Nat} (h : a < 2147483648) (p : Bool) :
    (ofAtom a p).index = 2 * a + if p then 0 else 1 := by
  simp only [ofAtom, index, UInt32.toNat_ofNat']
  exact Nat.mod_eq_of_lt (by split <;> omega)

/-- An atom that a table may hold fits into a literal. -/
theorem lt_of_lt_atomLimit {a : Nat} (h : a < atomLimit) : a < 2147483648 := Nat.lt_succ_of_lt h

@[simp] theorem atom_ofAtom {a : Nat} (h : a < 2147483648) (p : Bool) : (ofAtom a p).atom = a := by
  rw [atom_eq_div, index_ofAtom h]
  split <;> omega

@[simp] theorem positive_ofAtom {a : Nat} (h : a < 2147483648) (p : Bool) : (ofAtom a p).positive = p := by
  rw [Bool.eq_iff_iff, positive_iff, index_ofAtom h]
  cases p <;> simp

@[simp] theorem ofAtom_atom (l : Literal) : ofAtom l.atom l.positive = l := by
  rw [eq_iff, atom_ofAtom l.atom_lt, positive_ofAtom l.atom_lt]
  exact ⟨rfl, rfl⟩

/-- Literals of one atom are equal or negations of each other. -/
theorem eq_or_eq_negate {l m : Literal} (h : l.atom = m.atom) : l = m ∨ l = m.negate := by
  rw [eq_iff, eq_iff, atom_negate, positive_negate]
  cases l.positive <;> cases m.positive <;> simp [h]

/-! ## The written form -/

theorem natAbs_toInt (l : Literal) : l.toInt.natAbs = l.atom + 1 := by
  unfold toInt
  split <;> omega

theorem toInt_ne_zero (l : Literal) : l.toInt ≠ 0 := by
  have := l.natAbs_toInt
  omega

theorem toInt_pos_iff {l : Literal} : 0 < l.toInt ↔ l.positive = true := by
  unfold toInt
  cases l.positive with
  | true =>
    rw [if_pos rfl]
    exact ⟨fun _ => rfl, fun _ => by omega⟩
  | false =>
    rw [if_neg Bool.false_ne_true]
    exact ⟨fun h => by omega, fun h => absurd h Bool.false_ne_true⟩

theorem ofAtom_toInt (l : Literal) : ofAtom (l.toInt.natAbs - 1) (0 < l.toInt) = l := by
  have hp : decide (0 < l.toInt) = l.positive := by
    rw [Bool.eq_iff_iff, decide_eq_true_iff, toInt_pos_iff]
  rw [natAbs_toInt, Nat.add_sub_cancel, hp, ofAtom_atom]

/-- **An integer that a literal is written as is read back as that literal.** -/
theorem ofInt?_toInt (l : Literal) : ofInt? l.toInt = some l := by
  rw [ofInt?, if_neg l.toInt_ne_zero, ofAtom_toInt]

/-- The size of the written integer tells the atom, and its sign the polarity. -/
theorem toInt_eq_iff {l : Literal} {v : Int} :
    l.toInt = v ↔ v.natAbs = l.atom + 1 ∧ (0 < v ↔ l.positive = true) := by
  constructor
  · rintro rfl
    exact ⟨l.natAbs_toInt, toInt_pos_iff⟩
  · rintro ⟨ha, hp⟩
    rw [← toInt_pos_iff] at hp
    rw [← natAbs_toInt] at ha
    omega

/-- **A literal is read from the integer it is written as and from no other**, where the word has room for the atom. -/
theorem ofInt?_eq_some_iff {v : Int} (h : v.natAbs ≤ 2147483648) {l : Literal} : ofInt? v = some l ↔ l.toInt = v := by
  constructor
  · intro hv
    by_cases hzero : v = 0
    · rw [ofInt?, if_pos hzero] at hv
      cases hv
    · rw [ofInt?, if_neg hzero] at hv
      cases hv
      rw [toInt_eq_iff, atom_ofAtom (by omega), positive_ofAtom (by omega), decide_eq_true_iff]
      exact ⟨by omega, Iff.rfl⟩
  · rintro rfl
    exact l.ofInt?_toInt

theorem toInt_negate (l : Literal) : l.negate.toInt = -l.toInt := by
  unfold toInt
  rw [atom_negate, positive_negate]
  cases l.positive <;> simp

theorem le_iff {l m : Literal} : l ≤ m ↔ l.index ≤ m.index := Iff.rfl

theorem lt_iff {l m : Literal} : l < m ↔ l.index < m.index := Iff.rfl

theorem ne_of_lt {l m : Literal} (h : l < m) : l ≠ m := fun e => Nat.ne_of_lt h (congrArg index e)

theorem lt_trans {l m n : Literal} (h : l < m) (h' : m < n) : l < n := Nat.lt_trans h h'

/-- Of a literal and its negation the positive one comes first. -/
theorem lt_negate_iff {l : Literal} : l < l.negate ↔ l.positive = true := by
  rw [lt_iff, l.index_eq, l.negate.index_eq, atom_negate, positive_negate]
  cases l.positive <;> simp

end Literal

end Cdcl
