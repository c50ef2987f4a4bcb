import Cdcl.Clause.Key
import Cdcl.FloatOrder
import Cdcl.Pcg32
/-!
# Chance — what a run leaves open

A run draws truth values and numbers from a source of randomness, and sorts clauses by activity without regard to the
order of equals.  Neither is fixed: a `Chance` is any source, and any such sort, that keeps what is documented of them.  A
draw that is true with a probability between zero and one has an answer, as has a number below a bound that is not zero, and
the number is below the bound.  What is sorted holds what it held, in ascending order.

The generator that is run is one of them (`Pcg32.chance`), with a sort that leaves equals in their order.
-/
namespace Cdcl

structure Chance where
  /-- What the next draws depend on.  What was drawn so far can be written as a number, so that no source of randomness is
  lost by this. -/
  state : Nat
  word : Nat → UInt32 × Nat
  drawBool : Float → Nat → Option (Bool × Nat)
  drawBelow : Nat → Nat → Option (Nat × Nat)
  sort : List (ClauseKey × Float) → List (ClauseKey × Float)
  drawBool_isSome : ∀ p n, 0.0 ≤ p → p ≤ 1.0 → (drawBool p n).isSome
  drawBelow_isSome : ∀ bound n, bound ≠ 0 → (drawBelow bound n).isSome
  lt_of_drawBelow : ∀ bound n a m, drawBelow bound n = some (a, m) → a < bound
  sort_perm : ∀ list, (sort list).Perm list
  sort_ascending : ∀ list, (sort list).Pairwise fun a b => orderKey a.2 ≤ orderKey b.2

namespace Chance

variable (r : Chance)

def next32 : UInt32 × Chance :=
  let (w, state) := r.word r.state
  (w, { r with state })

/-- True with the given probability. -/
def chance? (p : Float) : Option (Bool × Chance) := do
  let (b, state) ← r.drawBool p r.state
  pure (b, { r with state })

/-- A number below a bound. -/
def below? (bound : Nat) : Option (Nat × Chance) := do
  let (a, state) ← r.drawBelow bound r.state
  pure (a, { r with state })

variable {r}

/-- **Every draw with a declared probability has an answer.** -/
theorem exists_chance (r : Chance) {p : Float} (hz : 0.0 ≤ p) (ho : p ≤ 1.0) : ∃ drawn, r.chance? p = some drawn := by
  obtain ⟨drawn, h⟩ := Option.isSome_iff_exists.1 (r.drawBool_isSome p r.state hz ho)
  exact ⟨(drawn.1, { r with state := drawn.2 }), by simp [chance?, h]⟩

theorem exists_below (r : Chance) {bound : Nat} (hb : bound ≠ 0) : ∃ drawn, r.below? bound = some drawn := by
  obtain ⟨drawn, h⟩ := Option.isSome_iff_exists.1 (r.drawBelow_isSome bound r.state hb)
  exact ⟨(drawn.1, { r with state := drawn.2 }), by simp [below?, h]⟩

/-- **A number drawn below a bound is below it.** -/
theorem lt_of_below? {r' : Chance} {bound n : Nat} (h : r.below? bound = some (n, r')) : n < bound := by
  obtain ⟨⟨a, state⟩, hdrawn, ha⟩ := Option.bind_eq_some_iff.1 h
  cases ha
  exact r.lt_of_drawBelow bound r.state _ _ hdrawn

end Chance

/-! ## The generator that is run -/

namespace Pcg32

variable {r : Pcg32}

theorem exists_chance (r : Pcg32) {p : Float} (hz : 0.0 ≤ p) (ho : p ≤ 1.0) : ∃ drawn, r.chance? p = some drawn := by
  unfold chance?
  split
  · exact ⟨_, rfl⟩
  · rename_i hne
    rw [if_pos ⟨hz, (FloatOrder.beq_or_lt_of_le ho).resolve_left hne⟩]
    exact ⟨_, rfl⟩

theorem exists_below (r : Pcg32) {bound : Nat} (h : bound ≠ 0) : ∃ drawn, r.below? bound = some drawn := by
  unfold below?
  rw [if_neg h]
  dsimp only
  generalize (if decide (4294967295 < bound) = true then 18446744073709551616 else 4294967296) = size
  split <;> exact ⟨_, rfl⟩

/-- The clauses in ascending order of activity, equals in the order they had. -/
def sortByActivity (list : List (ClauseKey × Float)) : List (ClauseKey × Float) :=
  list.mergeSort fun a b => decide (orderKey a.2 ≤ orderKey b.2)

theorem pairwise_sortByActivity (list : List (ClauseKey × Float)) :
    (sortByActivity list).Pairwise fun a b => orderKey a.2 ≤ orderKey b.2 := by
  refine (List.pairwise_mergeSort (fun a b d hab hbd => ?_) (fun a b => ?_) _).imp of_decide_eq_true
  · simp only [decide_eq_true_eq] at *
    omega
  · simp only [Bool.or_eq_true, decide_eq_true_eq]
    omega

/-- The generator whose state is a word. -/
def ofState (n : Nat) : Pcg32 := ⟨.ofNat n⟩

/-- The generator as a source of randomness, its state given as a number. -/
def chance (r : Pcg32) : Chance where
  state := r.state.toNat
  word n := ((ofState n).next32.1, (ofState n).next32.2.state.toNat)
  drawBool p n := ((ofState n).chance? p).map fun drawn => (drawn.1, drawn.2.state.toNat)
  drawBelow bound n := ((ofState n).below? bound).map fun drawn => (drawn.1, drawn.2.state.toNat)
  sort := sortByActivity
  drawBool_isSome p n hz ho := by
    obtain ⟨drawn, h⟩ := (ofState n).exists_chance hz ho
    rw [h]
    rfl
  drawBelow_isSome bound n hb := by
    obtain ⟨drawn, h⟩ := (ofState n).exists_below hb
    rw [h]
    rfl
  lt_of_drawBelow bound n a m h := by
    obtain ⟨drawn, hdrawn, hm⟩ := Option.map_eq_some_iff.1 h
    cases hm
    exact lt_of_below? hdrawn
  sort_perm list := List.mergeSort_perm list _
  sort_ascending := pairwise_sortByActivity

instance : Coe Pcg32 Chance := ⟨chance⟩

theorem ofState_toNat (r : Pcg32) : ofState r.state.toNat = r := congrArg Pcg32.mk UInt64.ofNat_toNat

theorem next32_chance (r : Pcg32) : r.chance.next32 = (r.next32.1, r.next32.2.chance) := by
  simp [Chance.next32, chance, ofState_toNat]

/-- **As a source of randomness the generator draws as it does by itself.** -/
theorem chance?_chance (r : Pcg32) (p : Float) :
    r.chance.chance? p = (r.chance? p).map fun drawn => (drawn.1, drawn.2.chance) := by
  show ((((ofState r.state.toNat).chance? p).map _).bind _ : Option (Bool × Chance)) = _
  rw [ofState_toNat]
  cases r.chance? p <;> rfl

theorem below?_chance (r : Pcg32) (bound : Nat) :
    r.chance.below? bound = (r.below? bound).map fun drawn => (drawn.1, drawn.2.chance) := by
  show ((((ofState r.state.toNat).below? bound).map _).bind _ : Option (Nat × Chance)) = _
  rw [ofState_toNat]
  cases r.below? bound <;> rfl

end Pcg32

def Chance.default : Chance := Pcg32.default.chance

instance : Inhabited Chance := ⟨.default⟩

end Cdcl
