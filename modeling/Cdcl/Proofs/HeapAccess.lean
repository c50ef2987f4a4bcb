import Cdcl.Proofs.HeapMembers
import Cdcl.Proofs.Outcome
import Mathlib.Data.List.Nodup
import Mathlib.Data.List.Perm.Subperm
/-!
# HeapAccess — a heap looks at no place that is not there

Each call of a heap does what its operation says, or ends in a fault, and on a linked heap it does not end in one.  So every
slot that sifting compares or exchanges is on the heap, and the index there has a value and a slot of its own; there is a
place for each index that is put on (`Linked.size_lt`); and nothing is taken off an empty heap.
-/
namespace Cdcl
namespace IndexHeap

open Run

variable {V : Type} {h : IndexHeap V} {i slot a b : Nat}

namespace Linked

/-- **The indices on a heap are different.** -/
theorem nodup (l : h.Linked) : h.heap.toList.Nodup := by
  rw [List.nodup_iff_getElem?_ne_getElem?]
  intro a b hab hb he
  rw [Array.length_toList] at hb
  rw [Array.getElem?_toList, Array.getElem?_toList, Array.getElem?_eq_getElem hb] at he
  exact absurd (l.slot_inj he (Array.getElem?_eq_getElem hb)) (Nat.ne_of_lt hab)

/-- **There is a place for each index that is not on the heap.** -/
theorem size_lt (l : h.Linked) (hi : i < h.count) (hoff : h.slot? i = none) : h.heap.size < h.values.size := by
  have hnodup : (i :: h.heap.toList).Nodup :=
    List.nodup_cons.2 ⟨fun hm => l.not_mem_of_slot hoff (Array.mem_toList_iff.1 hm), l.nodup⟩
  have hsub : i :: h.heap.toList ⊆ List.range h.count :=
    List.cons_subset.2 ⟨List.mem_range.2 hi, fun j hj => List.mem_range.2 (l.lt_of_mem (Array.mem_toList_iff.1 hj))⟩
  have hle := (List.subperm_of_subset hnodup hsub).length_le
  rwa [List.length_cons, Array.length_toList, List.length_range] at hle

theorem lt_slots (l : h.Linked) (hi : i < h.count) : i < h.slots.size := by
  rw [l.size]
  exact hi

theorem lt_of_getElem? (l : h.Linked) (hi : h.heap[slot]? = some i) : i < h.count := l.lt_of_mem (Array.mem_of_getElem? hi)

theorem getElem?_ne_none (l : h.Linked) (hi : i < h.count) : h.slots[i]? ≠ none := by
  rw [Array.getElem?_eq_getElem (l.lt_slots hi)]
  nofun

end Linked

theorem slot?_of_getElem? {o : Option Nat} (ho : h.slots[i]? = some o) : h.slot? i = o := by
  rw [slot?_eq, ho]
  rfl

namespace Call

theorem gives_value {v : V} (hv : h.value? i = some v) {fit : Prop} : Gives (value i) h fit v h := by
  unfold value
  rw [gives_bind_get]
  exact .inl (expect_eq_ok_iff.2 ⟨hv, rfl⟩)

theorem gives_revalue {v : V} : Gives (revalue i v) h (i < h.count) () (h.revalue i v) := by
  unfold revalue
  exact gives_bind_get.2 (gives_bind_require decide_eq_true fun _ => gives_modify)

theorem gives_exchange : Gives (exchange a b) h (h.Linked ∧ a < h.heap.size ∧ b < h.heap.size) () (h.exchange a b) := by
  unfold exchange
  refine gives_bind_get.2 (gives_bind_expect (fun hfit => ?_) fun i hi => ?_)
  · rw [Array.getElem?_eq_getElem hfit.2.1]
    nofun
  refine gives_bind_expect (fun hfit => ?_) fun j hj => ?_
  · rw [Array.getElem?_eq_getElem hfit.2.2]
    nofun
  refine gives_bind_require (fun hfit => ?_) fun _ => gives_modify
  rw [Bool.and_eq_true, decide_eq_true_eq, decide_eq_true_eq]
  exact ⟨hfit.1.lt_slots (hfit.1.lt_of_getElem? hi), hfit.1.lt_slots (hfit.1.lt_of_getElem? hj)⟩

/-- The value at a slot of the heap is there. -/
theorem gives_bind_valueAt {β : Type} {f : V → Run (IndexHeap V) β} {fit : Prop} {x : β} {t : IndexHeap V}
    (hfit : fit → h.Linked ∧ slot < h.heap.size)
    (hf : ∀ i v, h.heap[slot]? = some i → h.values[i]? = some v → Gives (f v) h fit x t) :
    Gives (valueAt slot >>= f) h fit x t := by
  unfold valueAt value
  rw [bind_assoc, gives_bind_get, bind_assoc]
  refine gives_bind_expect (fun ok => ?_) fun i hi => ?_
  · rw [Array.getElem?_eq_getElem (hfit ok).2]
    exact Option.some_ne_none _
  rw [bind_assoc, gives_bind_get]
  refine gives_bind_expect (fun ok => ?_) fun v hv => hf i v hi hv
  rw [value?, Array.getElem?_eq_getElem ((hfit ok).1.lt_of_getElem? hi)]
  exact Option.some_ne_none _

/-- Where an index with a value is on the heap is known. -/
theorem gives_bind_slot {β : Type} {f : Option Nat → Run (IndexHeap V) β} {fit : Prop} {x : β} {t : IndexHeap V}
    (hfit : fit → h.Linked ∧ i < h.count) (hf : Gives (f (h.slot? i)) h fit x t) : Gives (Call.slot i >>= f) h fit x t := by
  unfold Call.slot
  rw [bind_assoc, gives_bind_get]
  refine gives_bind_expect (fun ok => (hfit ok).1.getElem?_ne_none (hfit ok).2) fun o ho => ?_
  rw [← slot?_of_getElem? ho]
  exact hf

theorem gives_unlessPending {m : Run (IndexHeap V) Unit} {fit : Prop} {g : IndexHeap V} (hm : Gives m h fit () g) :
    Gives (unlessPending m) h fit () (if h.pending then h else g) := by
  unfold unlessPending
  rw [gives_bind_get]
  cases h.pending with
  | true => exact gives_pure
  | false => exact hm

theorem gives_onHeap {m : Run (IndexHeap V) Unit} {fit : Prop} {g : IndexHeap V}
    (hm : slot < h.heap.size → Gives m h fit () g) :
    Gives (onHeap slot m) h fit () (if slot < h.heap.size then g else h) := by
  unfold onHeap
  rw [gives_bind_get]
  split
  · exact hm ‹_›
  · exact gives_pure

theorem gives_pushLast :
    Gives (pushLast i) h (h.Linked ∧ i < h.count ∧ h.slot? i = none) () (h.pushLast i) := by
  unfold pushLast
  refine gives_bind_get.2 (gives_bind_require (fun ok => ?_) fun _ => gives_modify)
  rw [Bool.and_eq_true, decide_eq_true_eq, decide_eq_true_eq]
  exact ⟨ok.1.size_lt ok.2.1 ok.2.2, ok.1.lt_slots ok.2.1⟩

theorem gives_activateDeferred :
    Gives (activateDeferred i) h (h.Linked ∧ i < h.count) (h.activateDeferred i).1 (h.activateDeferred i).2 := by
  unfold activateDeferred IndexHeap.activateDeferred
  refine gives_bind_slot id ?_
  cases hi : h.slot? i with
  | none => exact gives_pushLast.bind (.inl rfl) (fun ok => ⟨ok.1, ok.2, hi⟩) fun _ => trivial
  | some slot => exact gives_pure

theorem gives_takeSlot : Gives (takeSlot i slot) h (h.Linked ∧ h.slot? i = some slot) () (h.takeSlot i slot) := by
  unfold takeSlot
  have hlt : h.Linked ∧ h.slot? i = some slot → slot < h.heap.size := fun ok =>
    (Array.getElem?_eq_some_iff.1 ((ok.1.slot i slot).1 ok.2)).1
  refine gives_bind_get.2 (gives_bind_require (fun ok => decide_eq_true (Nat.zero_lt_of_lt (hlt ok))) fun hpos => ?_)
  refine gives_bind_expect (fun ok => ?_) fun moved hmoved => ?_
  · rw [Array.getElem?_eq_getElem (Nat.sub_one_lt_of_lt (hlt ok))]
    nofun
  refine gives_bind_require (fun ok => ?_) fun _ => gives_modify
  rw [Bool.and_eq_true, Bool.and_eq_true, decide_eq_true_eq, decide_eq_true_eq, decide_eq_true_eq]
  exact ⟨⟨hlt ok, ok.1.lt_slots (ok.1.lt_of_getElem? hmoved)⟩, ok.1.lt_slots (ok.1.lt_of_slot ok.2)⟩

theorem gives_removeDeferred :
    Gives (removeDeferred i) h (h.Linked ∧ i < h.count) (h.removeDeferred i).1 (h.removeDeferred i).2 := by
  unfold removeDeferred
  refine gives_bind_slot id ?_
  rw [IndexHeap.removeDeferred]
  cases hi : h.slot? i with
  | none => exact gives_pure
  | some slot =>
    refine gives_takeSlot.bind ?_ (fun ok => ⟨ok.1, hi⟩) fun _ => trivial
    exact (gives_onHeap fun _ => gives_modify).bind gives_pure id id

section Order

variable [LT V] [DecidableLT V]

theorem gives_lessAt :
    Gives (lessAt a b) h (h.Linked ∧ a < h.heap.size ∧ b < h.heap.size) (h.slotLT a b) h := by
  unfold lessAt
  refine gives_bind_valueAt (fun ok => ⟨ok.1, ok.2.1⟩) fun i v hi hv => ?_
  refine gives_bind_valueAt (fun ok => ⟨ok.1, ok.2.2⟩) fun j w hj hw => ?_
  have hless : h.slotLT a b = decide (v < w) := by
    unfold slotLT
    rw [hi, hj]
    dsimp only
    rw [hv, hw]
  rw [hless]
  exact gives_pure

/-! ## Sifting -/

theorem gives_greatestNear :
    Gives (greatestNear slot) h (h.Linked ∧ 2 * slot + 1 < h.heap.size) (h.greatestNear slot) h := by
  unfold greatestNear IndexHeap.greatestNear
  dsimp only
  have hleft : h.Linked ∧ 2 * slot + 1 < h.heap.size → h.Linked ∧ slot < h.heap.size ∧ 2 * slot + 1 < h.heap.size :=
    fun ok => ⟨ok.1, by omega, ok.2⟩
  refine gives_lessAt.bind ?_ hleft id
  have hbest : h.heap.size ≤ 2 * slot + 1 ∨ (if h.slotLT slot (2 * slot + 1) = true then 2 * slot + 1 else slot) < h.heap.size := by
    split <;> omega
  generalize (if h.slotLT slot (2 * slot + 1) = true then 2 * slot + 1 else slot) = best at hbest
  rw [gives_bind_get]
  refine gives_ite (fun hright => ?_) fun hright => ?_
  · rw [decide_eq_true hright, Bool.true_and]
    exact gives_lessAt.bind gives_pure (fun ok => ⟨ok.1, by omega, hright⟩) id
  · rw [decide_eq_false hright, Bool.false_and]
    exact gives_pure

/-- The slot of the greatest value is on the heap, where a child is. -/
theorem greatestNear_lt (hleft : 2 * slot + 1 < h.heap.size) : h.greatestNear slot < h.heap.size := by
  have hbest : (if h.slotLT slot (2 * slot + 1) = true then 2 * slot + 1 else slot) < h.heap.size := by
    split <;> omega
  unfold IndexHeap.greatestNear
  dsimp only
  generalize (if h.slotLT slot (2 * slot + 1) = true then 2 * slot + 1 else slot) = best at hbest
  split
  · rename_i hright
    rw [Bool.and_eq_true, decide_eq_true_eq] at hright
    exact hright.1
  · exact hbest

/-- **Sifting down looks at slots of the heap only.** -/
theorem gives_siftDownFor : ∀ (fuel slot : Nat) (h : IndexHeap V),
    Gives (siftDownFor fuel slot) h h.Linked () (h.siftDownFor fuel slot)
  | 0, _, _ => gives_pure
  | fuel + 1, slot, h => by
    unfold siftDownFor IndexHeap.siftDownFor
    rw [gives_bind_get]
    by_cases hend : h.heap.size ≤ 2 * slot + 1
    · rw [if_pos hend, if_pos hend]
      exact gives_pure
    rw [if_neg hend, if_neg hend]
    have hleft := Nat.lt_of_not_le hend
    refine gives_greatestNear.bind ?_ (fun l => ⟨l, hleft⟩) id
    by_cases hbest : h.greatestNear slot = slot
    · rw [if_pos hbest, if_pos hbest]
      exact gives_pure
    rw [if_neg hbest, if_neg hbest]
    exact gives_exchange.bind (gives_siftDownFor fuel _ _) (fun l => ⟨l, by omega, greatestNear_lt hleft⟩)
      fun l => linked_exchange l ..

theorem gives_siftDown : Gives (siftDown slot) h h.Linked () (h.siftDown slot) :=
  gives_bind_get.2 (gives_siftDownFor h.heap.size slot h)

theorem gives_siftUpFor : ∀ (fuel slot : Nat) (h : IndexHeap V),
    Gives (siftUpFor fuel slot) h (h.Linked ∧ slot < h.heap.size) () (h.siftUpFor fuel slot)
  | 0, _, _ => gives_pure
  | fuel + 1, slot, h => by
    unfold siftUpFor IndexHeap.siftUpFor
    by_cases hroot : slot = 0
    · rw [if_pos hroot, if_pos hroot]
      exact gives_pure
    rw [if_neg hroot, if_neg hroot]
    have hlt : parent slot < slot := parent_lt (Nat.pos_of_ne_zero hroot)
    refine gives_lessAt.bind ?_ (fun ok => ⟨ok.1, Nat.lt_trans hlt ok.2, ok.2⟩) id
    by_cases hless : h.slotLT (parent slot) slot = true
    · rw [if_pos hless, if_pos hless]
      refine gives_exchange.bind (gives_siftUpFor fuel _ _) (fun ok => ⟨ok.1, ok.2, Nat.lt_trans hlt ok.2⟩) fun ok => ?_
      refine ⟨linked_exchange ok.1 .., ?_⟩
      rw [(h.rearranged_exchange ..).heap.size_eq]
      exact Nat.lt_trans hlt ok.2
    · rw [if_neg hless, if_neg hless]
      exact gives_pure

theorem gives_siftUp : Gives (siftUp slot) h (h.Linked ∧ slot < h.heap.size) () (h.siftUp slot) :=
  gives_siftUpFor slot slot h

theorem gives_orderBelow : ∀ (n : Nat) (h : IndexHeap V), Gives (orderBelow n) h h.Linked () (IndexHeap.orderBelow n h)
  | 0, _ => gives_pure
  | n + 1, _ => gives_siftDown.bind (gives_orderBelow n _) id fun l => linked_siftDown l n

theorem gives_restore : Gives restore h h.Linked () h.restore :=
  gives_bind_get.2 ((gives_orderBelow _ h).bind gives_modify id id)

theorem gives_settleAt :
    Gives (settleAt slot) h (h.Linked ∧ slot < h.heap.size) () (if h.pending then h else (h.siftUp slot).siftDown slot) :=
  gives_unlessPending (gives_siftUp.bind gives_siftDown id fun ok => linked_siftUp ok.1 slot)

/-! ## On the heap and off -/

theorem gives_activate :
    Gives (activate i) h (h.Linked ∧ i < h.count) (h.activate i).1 (h.activate i).2 := by
  unfold activate IndexHeap.activate
  refine gives_bind_slot id ?_
  cases hi : h.slot? i with
  | none =>
    refine gives_pushLast.bind ?_ (fun ok => ⟨ok.1, ok.2, hi⟩) fun ok =>
      linked_pushLast ok.1 ok.2 hi
    have hlt : (h.pushLast i).heap.size - 1 < (h.pushLast i).heap.size := by simp [IndexHeap.pushLast]
    exact gives_bind_get.2 ((gives_unlessPending (gives_siftUp.mono fun l => ⟨l, hlt⟩)).bind gives_pure id id)
  | some slot =>
    exact gives_settleAt.bind gives_pure (fun ok => ⟨ok.1, (Array.getElem?_eq_some_iff.1 ((ok.1.slot i slot).1 hi)).1⟩) id

theorem gives_remove : Gives (remove i) h (h.Linked ∧ i < h.count) (h.remove i).1 (h.remove i).2 := by
  unfold remove
  refine gives_bind_slot id ?_
  cases hi : h.slot? i with
  | none =>
    rw [IndexHeap.remove, hi]
    exact gives_pure
  | some slot =>
    have hremove : h.remove i = (true, if slot < (h.takeSlot i slot).heap.size then
        if (h.takeSlot i slot).pending then h.takeSlot i slot else ((h.takeSlot i slot).siftUp slot).siftDown slot
        else h.takeSlot i slot) := by
      rw [IndexHeap.remove, hi]
      dsimp only
      cases (h.takeSlot i slot).pending <;> simp
    rw [hremove]
    refine gives_takeSlot.bind ?_ (fun ok => ⟨ok.1, hi⟩) fun ok =>
      linked_takeSlot ok.1 hi
    exact (gives_onHeap fun hlt => gives_settleAt.mono fun l => ⟨l, hlt⟩).bind gives_pure id id

theorem gives_settle : Gives (settle i) h (h.Linked ∧ i < h.count) () (h.settle i) := by
  refine gives_unlessPending (gives_bind_slot id ?_)
  cases hi : h.slot? i with
  | none => exact gives_pure
  | some slot =>
    refine gives_siftDown.bind gives_siftUp (fun ok => ok.1) fun ok => ⟨linked_siftDown ok.1 slot, ?_⟩
    rw [(rearranged_siftDown h slot).heap.size_eq]
    exact (Array.getElem?_eq_some_iff.1 ((ok.1.slot i slot).1 hi)).1

theorem gives_restoreIfPending : Gives restoreIfPending h h.Linked () (if h.pending then h.restore else h) := by
  unfold restoreIfPending
  rw [gives_bind_get]
  split
  · exact gives_restore
  · exact gives_pure

/-- **The greatest index is taken off without a look at a place that is not there.** -/
theorem gives_popMax : Gives popMax h h.Linked h.popMax.1 h.popMax.2 := by
  unfold popMax
  refine gives_restoreIfPending.bind ?_ id linked_restored
  rw [IndexHeap.popMax]
  generalize (if h.pending = true then h.restore else h) = g
  rw [gives_bind_get]
  cases hi : g.heap[0]? with
  | none => exact gives_pure
  | some i => exact gives_remove.bind gives_pure (fun l => ⟨l, l.lt_of_getElem? hi⟩) id

end Order
end Call
end IndexHeap
end Cdcl
