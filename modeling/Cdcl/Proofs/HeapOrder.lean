import Cdcl.Proofs.HeapMembers
import Mathlib.Logic.Equiv.Basic
import Mathlib.Order.Lattice
/-!
# HeapOrder — parents stand above their children

A heap with no restore pending is ordered: no index stands above one of greater value (`Ordered`).  A change at one slot
leaves a hole there (`Holed`): everything is in order but around that slot, and what is below the slot is in order with
what is above it.  Sifting closes the hole, or moves it one slot up or down to where one side is in order.

A restore orders the heap from the last parent to the root, so it starts from a heap of which nothing is known
(`ordered_restore`).
-/
namespace Cdcl
namespace IndexHeap

variable {V : Type}

/-- The value of the index that stands at a slot. -/
def slotValue? (h : IndexHeap V) (p : Nat) : Option V := h.heap[p]?.bind h.value?

theorem slotValue?_eq_some_iff {h : IndexHeap V} {p : Nat} {v : V} :
    h.slotValue? p = some v ↔ ∃ i, h.heap[p]? = some i ∧ h.value? i = some v := by
  simp [slotValue?, Option.bind_eq_some_iff]

theorem lt_of_slotValue? {h : IndexHeap V} {p : Nat} {v : V} (hv : h.slotValue? p = some v) : p < h.heap.size := by
  obtain ⟨i, hi, -⟩ := slotValue?_eq_some_iff.1 hv
  exact (Array.getElem?_eq_some_iff.1 hi).1

theorem value?_of_lt {h : IndexHeap V} {i : Nat} (hi : i < h.count) : ∃ v, h.value? i = some v :=
  ⟨_, Array.getElem?_eq_getElem hi⟩

/-- Every index on the heap has a value. -/
theorem Linked.slotValue? {h : IndexHeap V} (l : h.Linked) {p : Nat} (hp : p < h.heap.size) :
    ∃ v, h.slotValue? p = some v := by
  have hi : h.heap[p]? = some h.heap[p] := Array.getElem?_eq_getElem hp
  obtain ⟨v, hv⟩ := value?_of_lt (l.lt_of_slot ((l.slot _ p).2 hi))
  exact ⟨v, slotValue?_eq_some_iff.2 ⟨_, hi, hv⟩⟩

theorem slotValue?_exchange {h : IndexHeap V} {a b : Nat} (ha : a < h.heap.size) (hb : b < h.heap.size) (p : Nat) :
    (h.exchange a b).slotValue? p = h.slotValue? (Equiv.swap a b p) := by
  have hheap : (h.exchange a b).heap[p]? = h.heap[Equiv.swap a b p]? := by
    unfold exchange
    simp only [Array.getElem?_eq_getElem ha, Array.getElem?_eq_getElem hb]
    rw [Array.swapIfInBounds_def, dif_pos ha, dif_pos hb, Array.getElem?_swap]
    by_cases hpb : b = p
    · subst hpb
      rw [if_pos rfl, Equiv.swap_apply_right, Array.getElem?_eq_getElem ha]
    · by_cases hpa : a = p
      · subst hpa
        rw [if_neg hpb, if_pos rfl, Equiv.swap_apply_left, Array.getElem?_eq_getElem hb]
      · rw [if_neg hpb, if_neg hpa, Equiv.swap_apply_of_ne_of_ne (Ne.symm hpa) (Ne.symm hpb)]
  have hvalue : (h.exchange a b).value? = h.value? := by
    funext i
    rw [value?, (h.rearranged_exchange a b).values, value?]
  unfold slotValue?
  rw [hheap, hvalue]

theorem size_exchange (h : IndexHeap V) (a b : Nat) : (h.exchange a b).heap.size = h.heap.size :=
  (h.rearranged_exchange a b).heap.size_eq

/-- What is left after a slot was taken stands where it stood, but for the slot itself. -/
theorem slotValue?_takeSlot {h : IndexHeap V} (l : h.Linked) {i slot q : Nat} (hi : h.slot? i = some slot)
    (hq : q ≠ slot ∨ (h.takeSlot i slot).heap.size ≤ slot) {v : V}
    (hv : (h.takeSlot i slot).slotValue? q = some v) : h.slotValue? q = some v := by
  have hs := (Array.getElem?_eq_some_iff.1 ((l.slot i slot).1 hi)).1
  have hlt := lt_of_slotValue? hv
  obtain ⟨j, hj, hjv⟩ := slotValue?_eq_some_iff.1 hv
  rw [size_heap_takeSlot l hi] at hlt hq
  rw [getElem?_heap_takeSlot l hi (Array.getElem?_eq_getElem (by omega)), if_neg (by omega), if_neg (by omega)] at hj
  rw [value?, values_takeSlot] at hjv
  exact slotValue?_eq_some_iff.2 ⟨j, hj, hjv⟩

section Order

variable [LinearOrder V]

/-- What stands at a slot is at most what stands at another. -/
def Beneath (h : IndexHeap V) (p q : Nat) : Prop :=
  ∀ v w, h.slotValue? p = some v → h.slotValue? q = some w → v ≤ w

theorem Beneath.refl (h : IndexHeap V) (p : Nat) : h.Beneath p p := fun _ _ hv hw =>
  (Option.some.inj (hv.symm.trans hw)).le

theorem Beneath.trans {h : IndexHeap V} (l : h.Linked) {p q r : Nat} (hpq : h.Beneath p q) (hqr : h.Beneath q r)
    (hq : q < h.heap.size) : h.Beneath p r := by
  intro v w hv hw
  obtain ⟨u, hu⟩ := l.slotValue? hq
  exact (hpq v u hv hu).trans (hqr u w hu hw)

theorem beneath_of_size_le {h : IndexHeap V} {p q : Nat} (hp : h.heap.size ≤ p) : h.Beneath p q := by
  intro v w hv
  exact absurd (lt_of_slotValue? hv) (Nat.not_lt.2 hp)

theorem beneath_exchange {h : IndexHeap V} {a b : Nat} (ha : a < h.heap.size) (hb : b < h.heap.size) {p q : Nat} :
    (h.exchange a b).Beneath p q ↔ h.Beneath (Equiv.swap a b p) (Equiv.swap a b q) := by
  simp only [Beneath, slotValue?_exchange ha hb]

theorem slotLT_iff {h : IndexHeap V} {a b : Nat} :
    h.slotLT a b = true ↔ ∃ v w, h.slotValue? a = some v ∧ h.slotValue? b = some w ∧ v < w := by
  unfold slotLT slotValue? value?
  cases h.heap[a]? with
  | none => simp
  | some i =>
    cases h.heap[b]? with
    | none => simp
    | some j =>
      simp only [Option.bind_some]
      cases h.values[i]? <;> cases h.values[j]? <;> simp

theorem beneath_of_slotLT {h : IndexHeap V} {a b : Nat} (hab : h.slotLT a b = true) : h.Beneath a b := by
  obtain ⟨v, w, hv, hw, hlt⟩ := slotLT_iff.1 hab
  intro v' w' hv' hw'
  rw [hv] at hv'
  rw [hw] at hw'
  cases hv'
  cases hw'
  exact hlt.le

theorem beneath_of_not_slotLT {h : IndexHeap V} {a b : Nat} (hab : ¬ h.slotLT a b = true) : h.Beneath b a := by
  intro w v hw hv
  by_contra hlt
  exact hab (slotLT_iff.2 ⟨v, w, hv, hw, not_le.1 hlt⟩)

theorem Beneath.slotLT {h : IndexHeap V} (l : h.Linked) {a b c : Nat} (hab : h.Beneath a b) (hbc : h.slotLT b c = true)
    (ha : a < h.heap.size) : h.slotLT a c = true := by
  obtain ⟨v, hv⟩ := l.slotValue? ha
  obtain ⟨w, u, hw, hu, hlt⟩ := slotLT_iff.1 hbc
  exact slotLT_iff.2 ⟨v, u, hv, hu, (hab v w hv hw).trans_lt hlt⟩

theorem lt_of_slotLT {h : IndexHeap V} {a b : Nat} (hab : h.slotLT a b = true) :
    a < h.heap.size ∧ b < h.heap.size := by
  obtain ⟨v, w, hv, hw, -⟩ := slotLT_iff.1 hab
  exact ⟨lt_of_slotValue? hv, lt_of_slotValue? hw⟩

/-! ## Order and holes -/

/-- From a slot on, what stands at a slot is at least what stands at its children. -/
def OrderedFrom (n : Nat) (h : IndexHeap V) : Prop := ∀ p, 0 < p → n ≤ parent p → h.Beneath p (parent p)

/-- The heap is in order but around one slot: apart from the slot there is order, and across the slot too. -/
structure Holed (n hole : Nat) (h : IndexHeap V) : Prop where
  apart : ∀ p, 0 < p → n ≤ parent p → p ≠ hole → parent p ≠ hole → h.Beneath p (parent p)
  across : ∀ c, 0 < c → parent c = hole → 0 < hole → n ≤ parent hole → h.Beneath c (parent hole)

/-- What stands at a slot is at most what stands at its parent. -/
def FitsAbove (n slot : Nat) (h : IndexHeap V) : Prop := 0 < slot → n ≤ parent slot → h.Beneath slot (parent slot)

/-- What stands at a slot is at least what stands at its children. -/
def FitsBelow (slot : Nat) (h : IndexHeap V) : Prop := ∀ c, 0 < c → parent c = slot → h.Beneath c slot

theorem Holed.ordered {n hole : Nat} {h : IndexHeap V} (o : Holed n hole h) (above : FitsAbove n hole h)
    (below : FitsBelow hole h) : OrderedFrom n h := by
  intro p hp hn
  by_cases hh : p = hole
  · subst hh
    exact above hp hn
  · by_cases hc : parent p = hole
    · rw [hc]
      exact below p hp hc
    · exact o.apart p hp hn hh hc

/-- Nothing but what stands at the slot is new. -/
theorem OrderedFrom.holed {h g : IndexHeap V} (l : h.Linked) (o : OrderedFrom 0 h) {slot : Nat}
    (old : ∀ q v, q ≠ slot → g.slotValue? q = some v → h.slotValue? q = some v) : Holed 0 slot g := by
  constructor
  · intro p hp _ hne hne' v w hv hw
    exact o p hp (Nat.zero_le _) v w (old p v hne hv) (old _ w hne' hw)
  · intro c hc hcs hpos _ v w hv hw
    have hcv := old c v (by have := parent_lt hc; omega) hv
    have hslot : slot < h.heap.size := by
      have := parent_lt hc
      have := lt_of_slotValue? hcv
      omega
    have hc' : h.Beneath c slot := hcs ▸ o c hc (Nat.zero_le _)
    exact (hc'.trans l (o slot hpos (Nat.zero_le _)) hslot) v w hcv (old _ w (Nat.ne_of_lt (parent_lt hpos)) hw)

theorem OrderedFrom.congr {n : Nat} {h g : IndexHeap V} (o : OrderedFrom n h)
    (old : ∀ q v, g.slotValue? q = some v → h.slotValue? q = some v) : OrderedFrom n g := by
  intro p hp hn v w hv hw
  exact o p hp hn v w (old p v hv) (old _ w hw)

/-- **The root stands above every slot of an ordered heap.** -/
theorem OrderedFrom.beneath_root {h : IndexHeap V} (l : h.Linked) (o : OrderedFrom 0 h) :
    ∀ p, p < h.heap.size → h.Beneath p 0 := by
  intro p
  induction p using Nat.strongRecOn with
  | ind p ih =>
    intro hp
    by_cases h0 : p = 0
    · subst h0
      exact .refl h 0
    · have hlt := parent_lt (Nat.pos_of_ne_zero h0)
      exact (o p (Nat.pos_of_ne_zero h0) (Nat.zero_le _)).trans l (ih _ hlt (Nat.lt_trans hlt hp)) (Nat.lt_trans hlt hp)

theorem OrderedFrom.greatest_of_root {h : IndexHeap V} (l : h.Linked) (o : OrderedFrom 0 h) {i : Nat}
    (hi : h.heap[0]? = some i) : ∃ v, h.value? i = some v ∧ ∀ j ∈ h.heap, ∃ w, h.value? j = some w ∧ w ≤ v := by
  obtain ⟨v, hv⟩ := value?_of_lt (l.lt_of_slot ((l.slot i 0).2 hi))
  refine ⟨v, hv, fun j hj => ?_⟩
  obtain ⟨p, hp⟩ := Array.mem_iff_getElem?.1 hj
  obtain ⟨w, hw⟩ := value?_of_lt (l.lt_of_mem hj)
  have hbeneath := o.beneath_root l p (Array.getElem?_eq_some_iff.1 hp).1
  exact ⟨w, hw, hbeneath w v (slotValue?_eq_some_iff.2 ⟨j, hp, hw⟩) (slotValue?_eq_some_iff.2 ⟨i, hi, hv⟩)⟩

/-! ## Sifting up -/

/-- What stood at the parent fits above its new children; the hole is now at the parent. -/
theorem Holed.exchange_up {h : IndexHeap V} (l : h.Linked) {slot : Nat} (o : Holed 0 slot h) (hpos : 0 < slot)
    (hlt : h.slotLT (parent slot) slot = true) :
    Holed 0 (parent slot) (h.exchange slot (parent slot)) ∧
      FitsBelow (parent slot) (h.exchange slot (parent slot)) := by
  obtain ⟨hp, hs⟩ := lt_of_slotLT hlt
  have hup := parent_lt hpos
  have hrise := beneath_of_slotLT hlt
  -- children of the slot, and of its parent, before the exchange
  have hchild : ∀ c, 0 < c → parent c = slot → h.Beneath c (parent slot) := fun c hc hcs =>
    o.across c hc hcs hpos (Nat.zero_le _)
  have hsibling : ∀ c, 0 < c → parent c = parent slot → c ≠ slot → h.Beneath c (parent slot) := by
    intro c hc hcp hne
    have := o.apart c hc (Nat.zero_le _) hne (hcp ▸ Nat.ne_of_lt hup)
    rwa [hcp] at this
  refine ⟨⟨?_, ?_⟩, ?_⟩
  · intro p hp0 _ hne hne'
    rw [beneath_exchange hs hp, Equiv.swap_apply_def, Equiv.swap_apply_def]
    rw [if_neg hne, if_neg hne']
    by_cases hps : p = slot
    · exact absurd (hps ▸ rfl) hne'
    · rw [if_neg hps]
      by_cases hcs : parent p = slot
      · rw [if_pos hcs]
        exact hchild p hp0 hcs
      · rw [if_neg hcs]
        exact o.apart p hp0 (Nat.zero_le _) hps hcs
  · intro c hc hcp hpos' _
    have hup' := parent_lt hpos'
    have habove : h.Beneath (parent slot) (parent (parent slot)) :=
      o.apart _ hpos' (Nat.zero_le _) (Nat.ne_of_lt hup) (by have := parent_lt hpos'; omega)
    rw [beneath_exchange hs hp, Equiv.swap_apply_of_ne_of_ne (by omega) (Nat.ne_of_lt hup')]
    by_cases hcs : c = slot
    · rw [hcs, Equiv.swap_apply_left]
      exact habove
    · rw [Equiv.swap_apply_of_ne_of_ne hcs (by have := parent_lt hc; omega)]
      exact (hsibling c hc hcp hcs).trans l habove hp
  · intro c hc hcp
    rw [beneath_exchange hs hp, Equiv.swap_apply_right]
    by_cases hcs : c = slot
    · rw [hcs, Equiv.swap_apply_left]
      exact hrise
    · rw [Equiv.swap_apply_of_ne_of_ne hcs (by have := parent_lt hc; omega)]
      exact (hsibling c hc hcp hcs).trans l hrise hp

theorem ordered_siftUpFor (fuel : Nat) {h : IndexHeap V} (l : h.Linked) {slot : Nat} (o : Holed 0 slot h)
    (below : FitsBelow slot h) (hfuel : slot ≤ fuel) : OrderedFrom 0 (siftUpFor fuel h slot) := by
  fun_induction siftUpFor fuel h slot with
  | case1 h slot => exact o.ordered (fun hpos => by omega) below
  | case2 fuel h => exact o.ordered (fun hpos => absurd hpos (Nat.lt_irrefl 0)) below
  | case3 fuel h slot hne hlt ih =>
    have hpos := Nat.pos_of_ne_zero hne
    obtain ⟨o', below'⟩ := o.exchange_up l hpos hlt
    exact ih (linked_exchange l ..) o' below' (by have := parent_lt hpos; omega)
  | case4 fuel h slot hne hlt => exact o.ordered (fun _ _ => beneath_of_not_slotLT hlt) below

/-- **Sifting up from a hole**: what stands there stays, for it fits above, or the heap is in order. -/
theorem siftUp_of_holed {h : IndexHeap V} (l : h.Linked) {slot : Nat} (o : Holed 0 slot h) :
    h.siftUp slot = h ∧ FitsAbove 0 slot h ∨ OrderedFrom 0 (h.siftUp slot) := by
  cases slot with
  | zero => exact .inl ⟨rfl, fun hpos => absurd hpos (Nat.lt_irrefl 0)⟩
  | succ n =>
    by_cases hlt : h.slotLT (parent (n + 1)) (n + 1) = true
    · obtain ⟨o', below'⟩ := o.exchange_up l n.succ_pos hlt
      refine .inr ?_
      unfold siftUp siftUpFor
      rw [if_neg n.succ_ne_zero, if_pos hlt]
      exact ordered_siftUpFor n (linked_exchange l ..) o' below' (Nat.le_of_lt_succ (parent_lt n.succ_pos))
    · refine .inl ⟨?_, fun _ _ => beneath_of_not_slotLT hlt⟩
      unfold siftUp siftUpFor
      rw [if_neg n.succ_ne_zero, if_neg hlt]

/-! ## Sifting down -/

theorem greatestNear_eq (h : IndexHeap V) (slot : Nat) :
    h.greatestNear slot =
      if 2 * slot + 2 < h.heap.size ∧
          h.slotLT (if h.slotLT slot (2 * slot + 1) = true then 2 * slot + 1 else slot) (2 * slot + 2) = true
      then 2 * slot + 2
      else if h.slotLT slot (2 * slot + 1) = true then 2 * slot + 1 else slot := by
  unfold greatestNear
  simp only [Bool.and_eq_true, decide_eq_true_eq]

/-- No child is greater than the greatest, and the greatest is a child only if it is greater than the slot. -/
theorem greatestNear_spec {h : IndexHeap V} (l : h.Linked) (slot : Nat) :
    (∀ c, 0 < c → parent c = slot → h.Beneath c (h.greatestNear slot)) ∧
      (h.greatestNear slot = slot ∨
        parent (h.greatestNear slot) = slot ∧ slot < h.greatestNear slot ∧
          h.slotLT slot (h.greatestNear slot) = true) := by
  rw [greatestNear_eq]
  -- the greater of the slot and its left child
  generalize hbest : (if h.slotLT slot (2 * slot + 1) = true then 2 * slot + 1 else slot) = best
  have hself : h.Beneath slot best := by
    split at hbest <;> subst hbest
    · exact beneath_of_slotLT ‹_›
    · exact .refl h slot
  have hleft : h.Beneath (2 * slot + 1) best := by
    split at hbest <;> subst hbest
    · exact .refl h _
    · exact beneath_of_not_slotLT ‹_›
  by_cases hright : 2 * slot + 2 < h.heap.size ∧ h.slotLT best (2 * slot + 2) = true
  · rw [if_pos hright]
    obtain ⟨hsize, hlt⟩ := hright
    refine ⟨fun c hc hcs => ?_, .inr ⟨parent_right slot, by omega, hself.slotLT l hlt (by omega)⟩⟩
    obtain he | he := eq_left_or_right hc
    · rw [he, hcs]
      exact hleft.trans l (beneath_of_slotLT hlt) (lt_of_slotLT hlt).1
    · rw [he, hcs]
      exact .refl h _
  · rw [if_neg hright]
    constructor
    · intro c hc hcs
      obtain he | he := eq_left_or_right hc
      · rw [he, hcs]
        exact hleft
      · rw [he, hcs]
        by_cases hsize : 2 * slot + 2 < h.heap.size
        · exact beneath_of_not_slotLT fun hlt => hright ⟨hsize, hlt⟩
        · exact beneath_of_size_le (Nat.not_lt.1 hsize)
    · split at hbest <;> subst hbest
      · exact .inr ⟨parent_left slot, by omega, ‹_›⟩
      · exact .inl rfl

/-- What stood at the greatest child fits where its parent was; the hole is now at the child. -/
theorem Holed.exchange_down {h : IndexHeap V} (l : h.Linked) {n slot : Nat} (hn : n ≤ slot) (o : Holed n slot h)
    (hne : h.greatestNear slot ≠ slot) :
    Holed n (h.greatestNear slot) (h.exchange slot (h.greatestNear slot)) ∧
      FitsAbove n (h.greatestNear slot) (h.exchange slot (h.greatestNear slot)) := by
  obtain ⟨hmost, hnear⟩ := greatestNear_spec l slot
  obtain ⟨hparent, hdown, hlt⟩ := hnear.resolve_left hne
  revert hmost hparent hdown hlt
  generalize h.greatestNear slot = best
  intro hmost hparent hdown hlt
  obtain ⟨hs, hb⟩ := lt_of_slotLT hlt
  refine ⟨⟨?_, ?_⟩, ?_⟩
  · intro p hp0 hnp hne hne'
    have hup := parent_lt hp0
    rw [beneath_exchange hs hb]
    by_cases hps : p = slot
    · subst hps
      rw [Equiv.swap_apply_left, Equiv.swap_apply_of_ne_of_ne (Nat.ne_of_lt hup) hne']
      exact o.across best (by omega) hparent hp0 hnp
    · rw [Equiv.swap_apply_of_ne_of_ne hps hne]
      by_cases hcs : parent p = slot
      · rw [hcs, Equiv.swap_apply_left]
        exact hmost p hp0 hcs
      · rw [Equiv.swap_apply_of_ne_of_ne hcs hne']
        exact o.apart p hp0 hnp hps hcs
  · intro c hc hcb _ _
    have hup := parent_lt hc
    rw [beneath_exchange hs hb, hparent, Equiv.swap_apply_left,
      Equiv.swap_apply_of_ne_of_ne (by omega) (by omega), ← hcb]
    exact o.apart c hc (by omega) (by omega) (by omega)
  · intro _ _
    rw [beneath_exchange hs hb, hparent, Equiv.swap_apply_left, Equiv.swap_apply_right]
    exact beneath_of_slotLT hlt

theorem ordered_siftDownFor (fuel : Nat) {h : IndexHeap V} (l : h.Linked) {n slot : Nat} (hn : n ≤ slot)
    (o : Holed n slot h) (above : FitsAbove n slot h) (hfuel : h.heap.size ≤ slot + fuel) :
    OrderedFrom n (siftDownFor fuel h slot) := by
  fun_induction siftDownFor fuel h slot with
  | case1 h slot =>
    refine o.ordered above fun c hc hcs => beneath_of_size_le ?_
    have := parent_lt hc
    omega
  | case2 fuel h slot hsize =>
    refine o.ordered above fun c hc hcs => beneath_of_size_le ?_
    have := eq_left_or_right hc
    omega
  | case3 fuel h slot hsize best he =>
    have below := (greatestNear_spec l slot).1
    rw [show h.greatestNear slot = slot from he] at below
    exact o.ordered above below
  | case4 fuel h slot hsize best hne ih =>
    obtain ⟨o', above'⟩ := o.exchange_down l hn hne
    have hlt : slot < best := ((greatestNear_spec l slot).2.resolve_left hne).2.1
    refine ih (linked_exchange l ..) (by omega) o' above' ?_
    rw [size_exchange]
    omega

/-- **Sifting down from a hole**: what stands there stays, for it fits below, or the heap is in order. -/
theorem siftDown_of_holed {h : IndexHeap V} (l : h.Linked) {n slot : Nat} (hn : n ≤ slot) (o : Holed n slot h) :
    h.siftDown slot = h ∧ FitsBelow slot h ∨ OrderedFrom n (h.siftDown slot) := by
  unfold siftDown
  cases hf : h.heap.size with
  | zero => exact .inl ⟨rfl, fun c _ _ => beneath_of_size_le (by omega)⟩
  | succ fuel =>
    unfold siftDownFor
    by_cases hsize : h.heap.size ≤ 2 * slot + 1
    · rw [if_pos hsize]
      refine .inl ⟨rfl, fun c hc hcs => beneath_of_size_le ?_⟩
      have := eq_left_or_right hc
      omega
    · rw [if_neg hsize]
      dsimp only
      obtain ⟨hmost, hnear⟩ := greatestNear_spec l slot
      by_cases he : h.greatestNear slot = slot
      · rw [if_pos he]
        rw [he] at hmost
        exact .inl ⟨rfl, hmost⟩
      · rw [if_neg he]
        obtain ⟨o', above'⟩ := o.exchange_down l hn he
        have hlt := (hnear.resolve_left he).2.1
        refine .inr (ordered_siftDownFor fuel (linked_exchange l ..) (by omega) o' above' ?_)
        rw [size_exchange]
        omega

/-! ## Both ways -/

theorem OrderedFrom.siftUp {h : IndexHeap V} (l : h.Linked) (o : OrderedFrom 0 h) (slot : Nat) :
    OrderedFrom 0 (h.siftUp slot) :=
  ordered_siftUpFor slot l (o.holed l fun _ _ _ hv => hv) (fun c hc hcs => hcs ▸ o c hc (Nat.zero_le _)) (Nat.le_refl _)

theorem OrderedFrom.siftDown {h : IndexHeap V} (l : h.Linked) (o : OrderedFrom 0 h) (slot : Nat) :
    OrderedFrom 0 (h.siftDown slot) :=
  ordered_siftDownFor _ l (Nat.zero_le _) (o.holed l fun _ _ _ hv => hv) (fun hpos hn => o slot hpos hn)
    (Nat.le_add_left ..)

/-- **A hole is closed by sifting both ways**, in either order: at most one of the two moves anything. -/
theorem Holed.siftUp_siftDown {h : IndexHeap V} (l : h.Linked) {slot : Nat} (o : Holed 0 slot h) :
    OrderedFrom 0 ((h.siftUp slot).siftDown slot) := by
  obtain ⟨hstay, above⟩ | hdone := siftUp_of_holed l o
  · rw [hstay]
    obtain ⟨hstay', below⟩ | hdone' := siftDown_of_holed l (Nat.zero_le _) o
    · rw [hstay']
      exact o.ordered above below
    · exact hdone'
  · exact hdone.siftDown (linked_siftUp l slot) slot

theorem Holed.siftDown_siftUp {h : IndexHeap V} (l : h.Linked) {slot : Nat} (o : Holed 0 slot h) :
    OrderedFrom 0 ((h.siftDown slot).siftUp slot) := by
  obtain ⟨hstay, below⟩ | hdone := siftDown_of_holed l (Nat.zero_le _) o
  · rw [hstay]
    obtain ⟨hstay', above⟩ | hdone' := siftUp_of_holed l o
    · rw [hstay']
      exact o.ordered above below
    · exact hdone'
  · exact hdone.siftUp (linked_siftDown l slot) slot

/-! ## Restoring -/

/-- A slot below an ordered part joins it by sifting down. -/
theorem OrderedFrom.siftDown_pred {h : IndexHeap V} (l : h.Linked) {n : Nat} (o : OrderedFrom (n + 1) h) :
    OrderedFrom n (h.siftDown n) := by
  have hole : Holed n n h := by
    constructor
    · intro p hp hn _ hne
      exact o p hp (by omega)
    · intro c _ _ hpos hn
      have := parent_lt hpos
      omega
  refine ordered_siftDownFor _ l (Nat.le_refl n) hole (fun hpos hn => ?_) (Nat.le_add_left ..)
  have := parent_lt hpos
  omega

theorem ordered_orderBelow : ∀ (n : Nat) {h : IndexHeap V}, h.Linked → OrderedFrom n h → OrderedFrom 0 (orderBelow n h)
  | 0, _, _, o => o
  | n + 1, _, l, o => ordered_orderBelow n (linked_siftDown l n) (o.siftDown_pred l)

/-- **A restore puts any heap in order.** -/
theorem ordered_restore {h : IndexHeap V} (l : h.Linked) : OrderedFrom 0 h.restore := by
  -- the slots from the half on have no children
  have leaves : OrderedFrom (h.heap.size / 2) h := by
    intro p hp hn
    have := eq_left_or_right hp
    exact beneath_of_size_le (by omega)
  exact (ordered_orderBelow _ l leaves).congr fun _ _ hv => hv

/-! ## Every operation keeps the order -/

/-- Unless a restore is pending, every parent's value is at least its children's. -/
def Ordered (h : IndexHeap V) : Prop := h.pending = false → OrderedFrom 0 h

theorem ordered_empty : ({} : IndexHeap V).Ordered := fun _ _ _ _ => beneath_of_size_le (Nat.zero_le _)

theorem ordered_restored {h : IndexHeap V} (l : h.Linked) (o : h.Ordered) :
    OrderedFrom 0 (if h.pending then h.restore else h) := by
  split
  · exact ordered_restore l
  · exact o (by simp_all)

theorem ordered_mapValues {h : IndexHeap V} (o : h.Ordered) {f : V → V} (hf : Monotone f) :
    (h.mapValues f).Ordered := by
  have hvalue : ∀ q, (h.mapValues f).slotValue? q = (h.slotValue? q).map f := by
    intro q
    unfold slotValue?
    rw [Option.map_bind]
    congr 1
    funext i
    simp [value?, mapValues]
  intro hp p hp0 hn v w hv hw
  rw [hvalue] at hv hw
  obtain ⟨v', hv', rfl⟩ := Option.map_eq_some_iff.1 hv
  obtain ⟨w', hw', rfl⟩ := Option.map_eq_some_iff.1 hw
  exact hf (o hp p hp0 hn v' w' hv' hw')

theorem ordered_add [Inhabited V] {h : IndexHeap V} (l : h.Linked) (o : h.Ordered) {i : Nat} (hi : h.count ≤ i) (v : V) :
    (h.add i v).2.Ordered := by
  rw [add_of_count_le hi]
  refine fun hp => (o hp).congr fun q w hw => ?_
  obtain ⟨j, hj, hjw⟩ := slotValue?_eq_some_iff.1 hw
  have hlt : j < h.values.size := l.lt_of_slot ((l.slot j q).2 hj)
  refine slotValue?_eq_some_iff.2 ⟨j, hj, ?_⟩
  rwa [value?, Array.getElem?_push_lt (by simp; omega), Array.getElem_append_left hlt,
    ← Array.getElem?_eq_getElem hlt] at hjw

/-- **An index whose value was changed is put in its place.** -/
theorem ordered_settle_revalue {h : IndexHeap V} (l : h.Linked) (o : h.Ordered) (i : Nat) (v : V) :
    ((h.revalue i v).settle i).Ordered := by
  intro hp
  unfold settle at hp ⊢
  by_cases hpend : (h.revalue i v).pending = true
  · rw [if_pos hpend] at hp
    simp_all
  · rw [if_neg hpend]
    have o' := o (Bool.eq_false_iff.2 hpend)
    have hslot : (h.revalue i v).slot? i = h.slot? i := rfl
    -- no other slot holds the index
    have old : ∀ q w, h.heap[q]? ≠ some i → (h.revalue i v).slotValue? q = some w → h.slotValue? q = some w := by
      intro q w hq hw
      obtain ⟨j, hj, hjw⟩ := slotValue?_eq_some_iff.1 hw
      have hne : i ≠ j := fun e => hq (e ▸ hj)
      rw [value?_revalue, if_neg fun he => hne he.1] at hjw
      exact slotValue?_eq_some_iff.2 ⟨j, hj, hjw⟩
    rw [hslot]
    cases hs : h.slot? i with
    | none => exact o'.congr fun q w => old q w fun hq => by simp [(l.slot i q).2 hq] at hs
    | some slot =>
      refine Holed.siftDown_siftUp (linked_revalue l i v) (o'.holed l fun q w hne => old q w fun hq => hne ?_)
      exact Option.some.inj (((l.slot i q).2 hq).symm.trans hs)

theorem ordered_activate {h : IndexHeap V} (l : h.Linked) (o : h.Ordered) {i : Nat} (hi : i < h.count) :
    (h.activate i).2.Ordered := by
  unfold activate
  cases hs : h.slot? i with
  | none =>
    dsimp only
    intro hp
    split at hp
    · simp_all
    · rename_i hpend
      rw [if_neg hpend]
      have o' := o (Bool.eq_false_iff.2 hpend)
      have hole : Holed 0 h.heap.size (h.pushLast i) := o'.holed l fun q v hne hv => by
        obtain ⟨j, hj, hjv⟩ := slotValue?_eq_some_iff.1 hv
        rw [pushLast, Array.getElem?_push, if_neg hne] at hj
        exact slotValue?_eq_some_iff.2 ⟨j, hj, hjv⟩
      have hsize : (h.pushLast i).heap.size = h.heap.size + 1 := Array.size_push ..
      rw [hsize, Nat.add_sub_cancel]
      refine ordered_siftUpFor _ (linked_pushLast l hi hs) hole (fun c hc hcs => ?_) (Nat.le_refl _)
      have := parent_lt hc
      exact beneath_of_size_le (by omega)
  | some slot =>
    dsimp only
    intro hp
    split at hp
    · simp_all
    · rename_i hpend
      rw [if_neg hpend]
      exact ((o (Bool.eq_false_iff.2 hpend)).siftUp l slot).siftDown (linked_siftUp l slot) slot

theorem ordered_activateDeferred {h : IndexHeap V} (o : h.Ordered) (i : Nat) : (h.activateDeferred i).2.Ordered := by
  unfold activateDeferred
  split
  · exact fun hp => absurd hp (by simp)
  · exact o

theorem ordered_remove {h : IndexHeap V} (l : h.Linked) (o : h.Ordered) (i : Nat) : (h.remove i).2.Ordered := by
  unfold remove
  cases hs : h.slot? i with
  | none => exact o
  | some slot =>
    dsimp only
    intro hp
    rw [apply_ite pending] at hp
    simp only [pending_takeSlot, (rearranged_siftDown _ _).pending, (rearranged_siftUp _ _).pending, ite_self] at hp
    have o' := o hp
    by_cases hsize : slot < (h.takeSlot i slot).heap.size
    · have hole : Holed 0 slot (h.takeSlot i slot) := o'.holed l fun q v hne => slotValue?_takeSlot l hs (.inl hne)
      simp only [hsize, hp, pending_takeSlot, decide_true, Bool.not_false, Bool.and_self, if_true]
      exact hole.siftUp_siftDown (linked_takeSlot l hs)
    · simp only [hsize, decide_false, Bool.false_and, Bool.false_eq_true, if_false]
      exact o'.congr fun q v => slotValue?_takeSlot l hs (.inr (Nat.not_lt.1 hsize))

theorem ordered_removeDeferred {h : IndexHeap V} (l : h.Linked) (o : h.Ordered) (i : Nat) :
    (h.removeDeferred i).2.Ordered := by
  unfold removeDeferred
  cases hs : h.slot? i with
  | none => exact o
  | some slot =>
    dsimp only
    by_cases hsize : slot < (h.takeSlot i slot).heap.size
    · rw [if_pos hsize]
      exact fun hp => absurd hp (by simp)
    · rw [if_neg hsize]
      intro hp
      rw [pending_takeSlot] at hp
      exact (o hp).congr fun q v => slotValue?_takeSlot l hs (.inr (Nat.not_lt.1 hsize))

theorem ordered_popMax {h : IndexHeap V} (l : h.Linked) (o : h.Ordered) : h.popMax.2.Ordered := by
  have o' := ordered_restored l o
  unfold popMax
  dsimp only
  split
  · exact fun _ => o'
  · exact ordered_remove (linked_restored l) (fun _ => o') _

/-- **What is taken off first is greatest**, whether or not a restore was pending. -/
theorem greatest_of_popMax {h g : IndexHeap V} (l : h.Linked) (o : h.Ordered) {i : Nat} (hp : h.popMax = (some i, g)) :
    ∃ v, h.value? i = some v ∧ ∀ j ∈ h.heap, ∃ w, h.value? j = some w ∧ w ≤ v := by
  have hvalues : (if h.pending then h.restore else h).values = h.values := by split <;> simp
  have hroot : (if h.pending then h.restore else h).heap[0]? = some i := by
    unfold popMax at hp
    dsimp only at hp
    split at hp
    · cases hp
    · rename_i hroot
      cases hp
      exact hroot
  obtain ⟨v, hv, hmost⟩ := (ordered_restored l o).greatest_of_root (linked_restored l) hroot
  simp only [value?, hvalues, (perm_restored h).mem_iff] at hv hmost
  exact ⟨v, hv, hmost⟩

end Order

end IndexHeap
end Cdcl
