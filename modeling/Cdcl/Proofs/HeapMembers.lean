import Cdcl.IndexHeap.Sifting
/-!
# HeapMembers — which indices are on the heap

A heap is linked if the slot an index knows is where the index stands.  Every operation keeps a heap linked, and is
described by what it does to the set of indices on the heap: sifting nothing, putting on adds one index, and taking the
greatest takes one off.  Only an empty heap has no greatest index (`popMax_eq_none`).
-/
namespace Cdcl
namespace IndexHeap

variable {V : Type}

/-- Each index on the heap knows its slot, and no other index does. -/
structure Linked (h : IndexHeap V) : Prop where
  size : h.slots.size = h.values.size
  slot : ∀ i p, h.slot? i = some p ↔ h.heap[p]? = some i

theorem slot?_eq (h : IndexHeap V) (i : Nat) : h.slot? i = h.slots[i]?.getD none := by
  rw [slot?, Array.getD_eq_getD_getElem?]

theorem slot?_eq_none_of_le {h : IndexHeap V} {i : Nat} (hi : h.slots.size ≤ i) : h.slot? i = none := by
  rw [slot?_eq, Array.getElem?_eq_none hi]
  rfl

namespace Linked

variable {h : IndexHeap V} {i j p q : Nat}

theorem lt_of_slot (l : h.Linked) (hi : h.slot? i = some p) : i < h.count := by
  by_cases hlt : i < h.slots.size
  · rw [l.size] at hlt
    exact hlt
  · rw [slot?_eq_none_of_le (by omega)] at hi
    cases hi

theorem mem_iff (l : h.Linked) : i ∈ h.heap ↔ ∃ p, h.slot? i = some p := by
  simp only [l.slot, Array.mem_iff_getElem?]

theorem not_mem_of_slot (l : h.Linked) (hoff : h.slot? i = none) : i ∉ h.heap := fun hi => by
  obtain ⟨p, hp⟩ := l.mem_iff.1 hi
  rw [hoff] at hp
  cases hp

theorem slot_of_not_mem (l : h.Linked) (hi : i ∉ h.heap) : h.slot? i = none :=
  Option.eq_none_iff_forall_ne_some.2 fun p hp => hi (l.mem_iff.2 ⟨p, hp⟩)

theorem lt_of_mem (l : h.Linked) (hi : i ∈ h.heap) : i < h.count := by
  obtain ⟨p, hp⟩ := l.mem_iff.1 hi
  exact l.lt_of_slot hp

theorem slot_inj (l : h.Linked) (hp : h.heap[p]? = some i) (hq : h.heap[q]? = some i) : p = q :=
  Option.some.inj (((l.slot i p).2 hp).symm.trans ((l.slot i q).2 hq))

end Linked

theorem linked_empty : ({} : IndexHeap V).Linked := ⟨rfl, fun i p => by simp [slot?]⟩

/-! ## Values -/

theorem linked_revalue {h : IndexHeap V} (l : h.Linked) (i : Nat) (v : V) : (h.revalue i v).Linked :=
  ⟨by simp [revalue, l.size], l.slot⟩

theorem linked_mapValues {h : IndexHeap V} (l : h.Linked) (f : V → V) : (h.mapValues f).Linked :=
  ⟨by simp [mapValues, l.size], l.slot⟩

theorem add_of_lt [Inhabited V] {h : IndexHeap V} {i : Nat} (hi : i < h.count) (v : V) :
    h.add i v = (false, h.revalue i v) := if_pos hi

theorem add_of_count_le [Inhabited V] {h : IndexHeap V} {i : Nat} (hi : h.count ≤ i) (v : V) :
    h.add i v =
      (true,
        { h with
          values := (h.values ++ Array.replicate (i - h.count) default).push v
          slots := h.slots ++ Array.replicate (i - h.count + 1) none }) := if_neg (Nat.not_lt.2 hi)

theorem add_count [Inhabited V] (h : IndexHeap V) (v : V) :
    (h.add h.count v).2 = { h with values := h.values.push v, slots := h.slots.push none } := by
  rw [add_of_count_le (Nat.le_refl _), Nat.sub_self, Array.replicate_zero, Array.append_empty]
  rfl

/-- An index that is given a value gives the default to those before it that have none. -/
theorem value?_add [Inhabited V] (h : IndexHeap V) (i j : Nat) (v : V) :
    (h.add i v).2.value? j =
      if j = i then some v else if j < i then some ((h.value? j).getD default) else h.value? j := by
  by_cases hi : h.count ≤ i
  · have hsize : (h.values ++ Array.replicate (i - h.count) default).size = i := by
      rw [Array.size_append, Array.size_replicate]
      exact Nat.add_sub_cancel' hi
    rw [add_of_count_le hi]
    unfold value?
    rw [Array.getElem?_push, hsize]
    by_cases hj : j < h.values.size
    · have hji : j < i := Nat.lt_of_lt_of_le hj hi
      rw [Array.getElem?_append_left hj, Array.getElem?_eq_getElem hj, if_pos hji]
      rfl
    · rw [Array.getElem?_append_right (Nat.not_lt.1 hj), Array.getElem?_replicate,
        Array.getElem?_eq_none (Nat.not_lt.1 hj)]
      have hlt : j - h.values.size < i - h.count ↔ j < i := by
        unfold count
        omega
      simp only [hlt, Option.getD_none]
  · have hlt := Nat.not_le.1 hi
    rw [add_of_lt hlt]
    dsimp only
    rw [value?_revalue]
    by_cases hj : j = i
    · rw [if_pos ⟨hj.symm, hlt⟩, if_pos hj]
    · rw [if_neg fun he => hj he.1.symm, if_neg hj]
      by_cases hji : j < i
      · rw [if_pos hji, value?, Array.getElem?_eq_getElem (Nat.lt_trans hji hlt), Option.getD_some]
      · rw [if_neg hji]

theorem linked_add [Inhabited V] {h : IndexHeap V} (l : h.Linked) (i : Nat) (v : V) : (h.add i v).2.Linked := by
  by_cases hi : h.count ≤ i
  · rw [add_of_count_le hi]
    dsimp only
    constructor
    · simp [l.size, count]
    · intro j p
      rw [← l.slot j p, slot?_eq, slot?_eq]
      dsimp only
      by_cases hj : j < h.slots.size
      · rw [Array.getElem?_append_left hj]
      · rw [Array.getElem?_append_right (Nat.not_lt.1 hj), Array.getElem?_eq_none (Nat.not_lt.1 hj),
          Array.getElem?_replicate]
        split <;> rfl
  · rw [add_of_lt (Nat.not_le.1 hi)]
    exact linked_revalue l i v

/-! ## Sifting -/

theorem linked_exchange {h : IndexHeap V} (l : h.Linked) (a b : Nat) : (h.exchange a b).Linked := by
  unfold exchange
  split
  · rename_i i j hi hj
    have hia := (l.slot i a).2 hi
    have hjb := (l.slot j b).2 hj
    obtain ⟨ha, hai⟩ := Array.getElem?_eq_some_iff.1 hi
    obtain ⟨hb, hbj⟩ := Array.getElem?_eq_some_iff.1 hj
    have hil : i < h.slots.size := l.size ▸ l.lt_of_slot hia
    have hjl : j < h.slots.size := l.size ▸ l.lt_of_slot hjb
    rw [slot?_eq, Array.getElem?_eq_getElem hil, Option.getD_some] at hia
    rw [slot?_eq, Array.getElem?_eq_getElem hjl, Option.getD_some] at hjb
    refine ⟨by simp [l.size], fun k p => ?_⟩
    rw [slot?_eq, Array.swapIfInBounds_def, dif_pos hil, dif_pos hjl, Array.swapIfInBounds_def, dif_pos ha, dif_pos hb,
      Array.getElem?_swap, Array.getElem?_swap, hia, hjb, hai, hbj]
    have hk := l.slot k p
    rw [slot?_eq] at hk
    -- only what stands at the slot at hand matters
    have hpa : a = p → h.heap[p]? = some i := fun e => e ▸ hi
    have hpb : b = p → h.heap[p]? = some j := fun e => e ▸ hj
    have hki : h.heap[p]? = some i → p = a := fun hp => l.slot_inj hp hi
    have hkj : h.heap[p]? = some j → p = b := fun hp => l.slot_inj hp hj
    have hab : i = j → a = b := fun e => l.slot_inj hi (e ▸ hj)
    generalize h.heap[p]? = stands at hk hpa hpb hki hkj ⊢
    clear hi hj hia hjb hai hbj
    grind
  · exact l

section Order

variable [LT V] [DecidableLT V]

theorem linked_siftDownFor (fuel : Nat) {h : IndexHeap V} (l : h.Linked) (slot : Nat) :
    (siftDownFor fuel h slot).Linked := by
  fun_induction siftDownFor fuel h slot with
  | case4 fuel h slot _ best _ ih => exact ih (linked_exchange l slot best)
  | _ => exact l

theorem linked_siftDown {h : IndexHeap V} (l : h.Linked) (slot : Nat) : (h.siftDown slot).Linked :=
  linked_siftDownFor _ l _

theorem linked_siftUpFor (fuel : Nat) {h : IndexHeap V} (l : h.Linked) (slot : Nat) :
    (siftUpFor fuel h slot).Linked := by
  fun_induction siftUpFor fuel h slot with
  | case3 fuel h slot _ _ ih => exact ih (linked_exchange l ..)
  | _ => exact l

theorem linked_siftUp {h : IndexHeap V} (l : h.Linked) (slot : Nat) : (h.siftUp slot).Linked := linked_siftUpFor _ l _

theorem linked_orderBelow : ∀ (n : Nat) {h : IndexHeap V}, h.Linked → (orderBelow n h).Linked
  | 0, _, l => l
  | n + 1, _, l => linked_orderBelow n (linked_siftDown l n)

theorem linked_restore {h : IndexHeap V} (l : h.Linked) : h.restore.Linked := by
  have := linked_orderBelow (h.heap.size / 2) l
  exact ⟨this.size, this.slot⟩

theorem mem_siftDown {h : IndexHeap V} {slot i : Nat} : i ∈ (h.siftDown slot).heap ↔ i ∈ h.heap :=
  (rearranged_siftDown h slot).heap.mem_iff

theorem mem_siftUp {h : IndexHeap V} {slot i : Nat} : i ∈ (h.siftUp slot).heap ↔ i ∈ h.heap :=
  (rearranged_siftUp h slot).heap.mem_iff

theorem linked_settle {h : IndexHeap V} (l : h.Linked) (i : Nat) : (h.settle i).Linked := by
  unfold settle
  split
  · exact l
  · split
    · exact l
    · exact linked_siftUp (linked_siftDown l _) _

theorem mem_settle {h : IndexHeap V} {i j : Nat} : j ∈ (h.settle i).heap ↔ j ∈ h.heap := by
  unfold settle
  split
  · rfl
  · split
    · rfl
    · rw [mem_siftUp, mem_siftDown]

end Order

/-! ## Putting on -/

theorem linked_pushLast {h : IndexHeap V} (l : h.Linked) {i : Nat} (hi : i < h.count) (hoff : h.slot? i = none) :
    (h.pushLast i).Linked := by
  refine ⟨by simp [pushLast, l.size], fun j p => ?_⟩
  have hil : i < h.slots.size := l.size ▸ hi
  have hj := l.slot j p
  have hi' := l.slot i p
  rw [slot?_eq] at hj hi' hoff ⊢
  simp only [pushLast, Array.getElem?_setIfInBounds, Array.getElem?_push]
  by_cases hij : i = j
  · subst hij
    rw [hoff] at hi'
    by_cases hp : p = h.heap.size
    · simp [hp, hil]
    · rw [if_neg hp, ← hi', if_pos rfl, if_pos hil]
      simp
      omega
  · rw [if_neg hij, hj]
    by_cases hp : p = h.heap.size
    · subst hp
      simp [hij]
    · rw [if_neg hp]

section Order

variable [LT V] [DecidableLT V]

theorem linked_activate {h : IndexHeap V} (l : h.Linked) {i : Nat} (hi : i < h.count) : (h.activate i).2.Linked := by
  unfold activate
  split
  · rename_i hoff
    dsimp only
    split
    · exact linked_pushLast l hi hoff
    · exact linked_siftUp (linked_pushLast l hi hoff) _
  · dsimp only
    split
    · exact l
    · exact linked_siftDown (linked_siftUp l _) _

theorem mem_activate {h : IndexHeap V} (l : h.Linked) {i j : Nat} :
    j ∈ (h.activate i).2.heap ↔ j = i ∨ j ∈ h.heap := by
  unfold activate
  split
  · dsimp only
    split
    · simp [pushLast, or_comm]
    · rw [mem_siftUp]
      simp [pushLast, or_comm]
  · rename_i hon
    have hi : i ∈ h.heap := l.mem_iff.2 ⟨_, hon⟩
    dsimp only
    split
    · exact ⟨.inr, fun hj => hj.elim (· ▸ hi) id⟩
    · rw [mem_siftDown, mem_siftUp]
      exact ⟨.inr, fun hj => hj.elim (· ▸ hi) id⟩

end Order

theorem linked_activateDeferred {h : IndexHeap V} (l : h.Linked) {i : Nat} (hi : i < h.count) :
    (h.activateDeferred i).2.Linked := by
  unfold activateDeferred
  split
  · rename_i hoff
    have := linked_pushLast l hi hoff
    exact ⟨this.size, this.slot⟩
  · exact l

theorem mem_activateDeferred {h : IndexHeap V} (l : h.Linked) {i j : Nat} :
    j ∈ (h.activateDeferred i).2.heap ↔ j = i ∨ j ∈ h.heap := by
  unfold activateDeferred
  split
  · simp [pushLast, or_comm]
  · rename_i hon
    have hi : i ∈ h.heap := l.mem_iff.2 ⟨_, hon⟩
    exact ⟨.inr, fun hj => hj.elim (· ▸ hi) id⟩

/-! ## Taking off -/

theorem slot?_takeSlot {h : IndexHeap V} (l : h.Linked) {i slot moved : Nat} (hi : h.slot? i = some slot)
    (hmoved : h.heap[h.heap.size - 1]? = some moved) (j : Nat) :
    (h.takeSlot i slot).slot? j = if j = i then none else if j = moved then some slot else h.slot? j := by
  have hil : i < h.slots.size := l.size ▸ l.lt_of_slot hi
  have hml : moved < h.slots.size := l.size ▸ l.lt_of_slot ((l.slot _ _).2 hmoved)
  unfold takeSlot
  simp only [hmoved]
  split
  · rename_i hlast
    have hmi : moved = i := Option.some.inj (hmoved.symm.trans (hlast ▸ (l.slot i slot).1 hi))
    simp only [slot?_eq, Array.getElem?_setIfInBounds]
    grind
  · simp only [slot?_eq, Array.getElem?_setIfInBounds, Array.size_setIfInBounds]
    grind

theorem getElem?_heap_takeSlot {h : IndexHeap V} (l : h.Linked) {i slot moved : Nat} (hi : h.slot? i = some slot)
    (hmoved : h.heap[h.heap.size - 1]? = some moved) (p : Nat) :
    (h.takeSlot i slot).heap[p]? =
      if h.heap.size - 1 ≤ p then none else if p = slot then some moved else h.heap[p]? := by
  have hs := (Array.getElem?_eq_some_iff.1 ((l.slot i slot).1 hi)).1
  unfold takeSlot
  simp only [hmoved]
  split
  · simp only [Array.getElem?_pop]
    grind
  · simp only [Array.getElem?_pop, Array.getElem?_setIfInBounds, Array.size_setIfInBounds]
    grind

/-- **Taking an index off keeps the heap linked**: what stood last now stands where the index stood. -/
theorem linked_takeSlot {h : IndexHeap V} (l : h.Linked) {i slot : Nat} (hi : h.slot? i = some slot) :
    (h.takeSlot i slot).Linked := by
  have hs := (Array.getElem?_eq_some_iff.1 ((l.slot i slot).1 hi)).1
  obtain ⟨moved, hmoved⟩ : ∃ moved, h.heap[h.heap.size - 1]? = some moved :=
    ⟨_, Array.getElem?_eq_getElem (by omega)⟩
  constructor
  · rw [values_takeSlot, ← l.size]
    unfold takeSlot
    simp only [hmoved]
    split <;> simp
  · intro j p
    rw [slot?_takeSlot l hi hmoved, getElem?_heap_takeSlot l hi hmoved]
    have hj := l.slot j p
    have hm := (l.slot moved _).2 hmoved
    have hinj : ∀ {k q r}, h.heap[q]? = some k → h.heap[r]? = some k → q = r := l.slot_inj
    have hii := (l.slot i slot).1 hi
    have hlt : h.heap[p]? = some j → p < h.heap.size := fun e => (Array.getElem?_eq_some_iff.1 e).1
    grind

theorem mem_takeSlot {h : IndexHeap V} (l : h.Linked) {i slot : Nat} (hi : h.slot? i = some slot) {j : Nat} :
    j ∈ (h.takeSlot i slot).heap ↔ j ∈ h.heap ∧ j ≠ i := by
  have hs := (Array.getElem?_eq_some_iff.1 ((l.slot i slot).1 hi)).1
  obtain ⟨moved, hmoved⟩ : ∃ moved, h.heap[h.heap.size - 1]? = some moved :=
    ⟨_, Array.getElem?_eq_getElem (by omega)⟩
  rw [(linked_takeSlot l hi).mem_iff, l.mem_iff]
  simp only [slot?_takeSlot l hi hmoved]
  have hm := (l.slot moved _).2 hmoved
  by_cases hji : j = i
  · simp [hji]
  · by_cases hjm : j = moved
    · subst hjm
      simp [hji, hm]
    · simp [hji, hjm]

theorem size_heap_takeSlot {h : IndexHeap V} (l : h.Linked) {i slot : Nat} (hi : h.slot? i = some slot) :
    (h.takeSlot i slot).heap.size = h.heap.size - 1 := by
  have hs := (Array.getElem?_eq_some_iff.1 ((l.slot i slot).1 hi)).1
  unfold takeSlot
  simp only [Array.getElem?_eq_getElem (show h.heap.size - 1 < h.heap.size by omega)]
  split <;> simp

theorem linked_removeDeferred {h : IndexHeap V} (l : h.Linked) (i : Nat) : (h.removeDeferred i).2.Linked := by
  unfold removeDeferred
  split
  · exact l
  · rename_i hi
    have := linked_takeSlot l hi
    dsimp only
    split
    · exact ⟨this.size, this.slot⟩
    · exact this

theorem mem_removeDeferred {h : IndexHeap V} (l : h.Linked) {i j : Nat} :
    j ∈ (h.removeDeferred i).2.heap ↔ j ∈ h.heap ∧ j ≠ i := by
  unfold removeDeferred
  split
  · rename_i hoff
    exact ⟨fun hj => ⟨hj, fun e => l.not_mem_of_slot hoff (e ▸ hj)⟩, (·.1)⟩
  · rename_i hi
    dsimp only
    split <;> exact mem_takeSlot l hi

section Order

variable [LT V] [DecidableLT V]

/-- What is left of a heap from which an index was taken. -/
structure Without (h : IndexHeap V) (i : Nat) (g : IndexHeap V) : Prop where
  linked : g.Linked
  values : g.values = h.values
  mem : ∀ j, j ∈ g.heap ↔ j ∈ h.heap ∧ j ≠ i
  size : g.heap.size + 1 = h.heap.size

theorem without_remove {h : IndexHeap V} (l : h.Linked) {i : Nat} (hi : i ∈ h.heap) : Without h i (h.remove i).2 := by
  obtain ⟨slot, hslot⟩ := l.mem_iff.1 hi
  have hpos := (Array.getElem?_eq_some_iff.1 ((l.slot i slot).1 hslot)).1
  have hsize := size_heap_takeSlot l hslot
  have ht : Without h i (h.takeSlot i slot) :=
    ⟨linked_takeSlot l hslot, values_takeSlot .., fun _ => mem_takeSlot l hslot, by omega⟩
  unfold remove
  simp only [hslot]
  split
  · have hr := (rearranged_siftDown ((h.takeSlot i slot).siftUp slot) slot).trans (rearranged_siftUp _ slot)
    refine ⟨linked_siftDown (linked_siftUp ht.linked _) _, hr.values.trans ht.values, fun j => ?_, ?_⟩
    · rw [hr.heap.mem_iff, ht.mem]
    · rw [hr.heap.size_eq, ht.size]
  · exact ht

theorem linked_remove {h : IndexHeap V} (l : h.Linked) (i : Nat) : (h.remove i).2.Linked := by
  by_cases hi : i ∈ h.heap
  · exact (without_remove l hi).linked
  · unfold remove
    rw [l.slot_of_not_mem hi]
    exact l

theorem mem_remove {h : IndexHeap V} (l : h.Linked) {i j : Nat} : j ∈ (h.remove i).2.heap ↔ j ∈ h.heap ∧ j ≠ i := by
  by_cases hi : i ∈ h.heap
  · exact (without_remove l hi).mem j
  · unfold remove
    rw [l.slot_of_not_mem hi]
    exact ⟨fun hj => ⟨hj, fun e => hi (e ▸ hj)⟩, (·.1)⟩

theorem linked_restored {h : IndexHeap V} (l : h.Linked) : (if h.pending then h.restore else h).Linked := by
  split
  · exact linked_restore l
  · exact l

theorem perm_restored (h : IndexHeap V) : (if h.pending then h.restore else h).heap.Perm h.heap := by
  split
  · exact perm_restore h
  · exact .refl _

/-- **Only an empty heap has no greatest index.** -/
theorem popMax_eq_none {h g : IndexHeap V} (l : h.Linked) (hp : h.popMax = (none, g)) :
    g.Linked ∧ g.values = h.values ∧ h.heap.size = 0 ∧ g.heap.size = 0 := by
  have hv : g.values = h.values := by rw [← values_popMax h, hp]
  unfold popMax at hp
  dsimp only at hp
  split at hp
  · rename_i hnone
    cases hp
    have hsize : (if h.pending then h.restore else h).heap.size = 0 := by
      have := Array.getElem?_eq_none_iff.1 hnone
      omega
    exact ⟨linked_restored l, hv, by rw [← (perm_restored h).size_eq, hsize], hsize⟩
  · cases hp

/-- **The greatest index is taken off the heap, and no other.** -/
theorem popMax_eq_some {h g : IndexHeap V} {i : Nat} (l : h.Linked) (hp : h.popMax = (some i, g)) :
    i ∈ h.heap ∧ Without h i g := by
  have hv : g.values = h.values := by rw [← values_popMax h, hp]
  unfold popMax at hp
  dsimp only at hp
  split at hp
  · cases hp
  · rename_i hsome
    cases hp
    have hmem : i ∈ (if h.pending then h.restore else h).heap := Array.mem_of_getElem? hsome
    have hw := without_remove (linked_restored l) hmem
    have hperm := perm_restored h
    refine ⟨hperm.mem_iff.1 hmem, hw.linked, hv, fun j => ?_, ?_⟩
    · rw [hw.mem, hperm.mem_iff]
    · rw [hw.size, hperm.size_eq]

end Order

end IndexHeap
end Cdcl
