import Cdcl.IndexHeap
/-!
# IndexHeap.Sifting — what changes of the order leave alone

Sifting moves indices between slots.  The values, the indices on the heap, and a pending restore stay as they are
(`Rearranged`).  No operation that puts an index on the heap, or takes one off, changes a value.
-/
namespace Cdcl
namespace IndexHeap

variable {V : Type}

/-- Two heaps with the same values and the same indices, however these stand. -/
structure Rearranged (g h : IndexHeap V) : Prop where
  values : g.values = h.values
  heap : g.heap.Perm h.heap
  pending : g.pending = h.pending

namespace Rearranged

theorem refl (h : IndexHeap V) : Rearranged h h := ⟨rfl, .refl _, rfl⟩

theorem trans {f g h : IndexHeap V} (hfg : Rearranged f g) (hgh : Rearranged g h) : Rearranged f h :=
  ⟨hfg.values.trans hgh.values, hfg.heap.trans hgh.heap, hfg.pending.trans hgh.pending⟩

end Rearranged

theorem rearranged_exchange (h : IndexHeap V) (a b : Nat) : Rearranged (h.exchange a b) h := by
  unfold exchange
  split
  · rename_i hi hj
    refine ⟨rfl, ?_, rfl⟩
    dsimp only
    rw [Array.swapIfInBounds_def, dif_pos (Array.getElem?_eq_some_iff.1 hi).1,
      dif_pos (Array.getElem?_eq_some_iff.1 hj).1]
    exact Array.swap_perm ..
  · exact .refl h

/-! ## Values while indices come and go -/

@[simp] theorem values_pushLast (h : IndexHeap V) (i : Nat) : (h.pushLast i).values = h.values := rfl

@[simp] theorem values_takeSlot (h : IndexHeap V) (i slot : Nat) : (h.takeSlot i slot).values = h.values := by
  unfold takeSlot
  dsimp only
  split
  · rfl
  · split <;> rfl

@[simp] theorem pending_takeSlot (h : IndexHeap V) (i slot : Nat) : (h.takeSlot i slot).pending = h.pending := by
  unfold takeSlot
  dsimp only
  split
  · rfl
  · split <;> rfl

@[simp] theorem values_activateDeferred (h : IndexHeap V) (i : Nat) : (h.activateDeferred i).2.values = h.values := by
  unfold activateDeferred
  split <;> rfl

@[simp] theorem values_removeDeferred (h : IndexHeap V) (i : Nat) : (h.removeDeferred i).2.values = h.values := by
  unfold removeDeferred
  split
  · rfl
  · dsimp only
    split <;> exact values_takeSlot ..

section Order

variable [LT V] [DecidableLT V]

/-! ## Sifting -/

theorem rearranged_siftDownFor (fuel : Nat) (h : IndexHeap V) (slot : Nat) :
    Rearranged (siftDownFor fuel h slot) h := by
  fun_induction siftDownFor fuel h slot with
  | case4 fuel h slot _ best _ ih => exact ih.trans (h.rearranged_exchange slot best)
  | _ => exact .refl _

theorem rearranged_siftDown (h : IndexHeap V) (slot : Nat) : Rearranged (h.siftDown slot) h :=
  rearranged_siftDownFor ..

theorem rearranged_siftUpFor (fuel : Nat) (h : IndexHeap V) (slot : Nat) :
    Rearranged (siftUpFor fuel h slot) h := by
  fun_induction siftUpFor fuel h slot with
  | case3 fuel h slot _ _ ih => exact ih.trans (h.rearranged_exchange ..)
  | _ => exact .refl _

theorem rearranged_siftUp (h : IndexHeap V) (slot : Nat) : Rearranged (h.siftUp slot) h := rearranged_siftUpFor ..

theorem rearranged_orderBelow : ∀ (n : Nat) (h : IndexHeap V), Rearranged (orderBelow n h) h
  | 0, h => .refl h
  | n + 1, h => (rearranged_orderBelow n (h.siftDown n)).trans (h.rearranged_siftDown n)

@[simp] theorem values_restore (h : IndexHeap V) : h.restore.values = h.values := (rearranged_orderBelow ..).values

theorem perm_restore (h : IndexHeap V) : h.restore.heap.Perm h.heap := (rearranged_orderBelow ..).heap

/-! ## On the heap and off -/

@[simp] theorem values_activate (h : IndexHeap V) (i : Nat) : (h.activate i).2.values = h.values := by
  unfold activate
  split
  · dsimp only
    split
    · rfl
    · rw [(rearranged_siftUp ..).values, values_pushLast]
  · dsimp only
    split
    · rfl
    · rw [(rearranged_siftDown ..).values, (rearranged_siftUp ..).values]

@[simp] theorem values_remove (h : IndexHeap V) (i : Nat) : (h.remove i).2.values = h.values := by
  unfold remove
  split
  · rfl
  · dsimp only
    split
    · rw [(rearranged_siftDown ..).values, (rearranged_siftUp ..).values, values_takeSlot]
    · exact values_takeSlot ..

@[simp] theorem values_settle (h : IndexHeap V) (i : Nat) : (h.settle i).values = h.values := by
  unfold settle
  split
  · rfl
  · split
    · rfl
    · rw [(rearranged_siftUp ..).values, (rearranged_siftDown ..).values]

@[simp] theorem values_popMax (h : IndexHeap V) : h.popMax.2.values = h.values := by
  unfold popMax
  dsimp only
  split <;> split <;> simp

end Order

end IndexHeap
end Cdcl
