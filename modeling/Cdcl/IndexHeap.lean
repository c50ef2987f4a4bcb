import Cdcl.Run
/-!
# IndexHeap — a heap of indices by value

Every index below `count` has a value.  Some indices are on the heap, where an index stands above those of lesser value,
and each index knows its slot.  Values stay when indices are put on the heap or taken off.

An index may be put on the heap, or taken off, without restoring the order.  Then a restore is pending: nothing is
sifted until the heap is ordered as a whole, before the next greatest index is taken.
-/
namespace Cdcl

structure IndexHeap (V : Type) where
  /-- The value of each index. -/
  values : Array V := #[]
  /-- The slot of each index that is on the heap. -/
  slots : Array (Option Nat) := #[]
  /-- The indices on the heap, by slot. -/
  heap : Array Nat := #[]
  pending : Bool := false

namespace IndexHeap

variable {V : Type}

instance : Inhabited (IndexHeap V) := ⟨{}⟩

/-- How many indices have a value. -/
def count (h : IndexHeap V) : Nat := h.values.size

/-- How many indices are on the heap. -/
def activeCount (h : IndexHeap V) : Nat := h.heap.size

def isEmpty (h : IndexHeap V) : Bool := h.heap.isEmpty

def knows (h : IndexHeap V) (i : Nat) : Bool := decide (i < h.values.size)

/-- Where the index is on the heap. -/
def slot? (h : IndexHeap V) (i : Nat) : Option Nat := h.slots.getD i none

def contains (h : IndexHeap V) (i : Nat) : Bool := (h.slot? i).isSome

def value? (h : IndexHeap V) (i : Nat) : Option V := h.values[i]?

/-! ## Values -/

def revalue (h : IndexHeap V) (i : Nat) (v : V) : IndexHeap V := { h with values := h.values.setIfInBounds i v }

def mapValues (h : IndexHeap V) (f : V → V) : IndexHeap V := { h with values := h.values.map f }

theorem value?_revalue (h : IndexHeap V) (i j : Nat) (v : V) :
    (h.revalue i v).value? j = if i = j ∧ i < h.count then some v else h.value? j := by
  simp only [value?, revalue, count, Array.getElem?_setIfInBounds]
  grind

/-- Gives an index a value, and every index before it that has none the default.  Answers whether the index is new. -/
def add [Inhabited V] (h : IndexHeap V) (i : Nat) (v : V) : Bool × IndexHeap V :=
  if i < h.values.size then (false, h.revalue i v)
  else
    let fresh := i - h.values.size
    (true,
      { h with
        values := (h.values ++ Array.replicate fresh default).push v
        slots := h.slots ++ Array.replicate (fresh + 1) none })

/-! ## Sifting -/

section Order

variable [LT V] [DecidableLT V]

/-- Whether the value at one slot is less than the value at another. -/
@[inline] def slotLT (h : IndexHeap V) (a b : Nat) : Bool :=
  match h.heap[a]?, h.heap[b]? with
  | some i, some j =>
    match h.values[i]?, h.values[j]? with
    | some v, some w => decide (v < w)
    | _, _ => false
  | _, _ => false

def parent (slot : Nat) : Nat := (slot - 1) / 2

theorem parent_lt {slot : Nat} (h : 0 < slot) : parent slot < slot := by
  unfold parent
  omega

@[simp] theorem parent_left (slot : Nat) : parent (2 * slot + 1) = slot := by
  unfold parent
  omega

@[simp] theorem parent_right (slot : Nat) : parent (2 * slot + 2) = slot := by
  unfold parent
  omega

theorem eq_left_or_right {slot : Nat} (h : 0 < slot) : slot = 2 * parent slot + 1 ∨ slot = 2 * parent slot + 2 := by
  unfold parent
  omega

def exchange (h : IndexHeap V) (a b : Nat) : IndexHeap V :=
  match h.heap[a]?, h.heap[b]? with
  | some i, some j =>
    { h with slots := h.slots.swapIfInBounds i j, heap := h.heap.swapIfInBounds a b }
  | _, _ => h

/-- The slot, among a slot and its children, of the greatest value; the slot itself if no child is greater. -/
def greatestNear (h : IndexHeap V) (slot : Nat) : Nat :=
  let left := 2 * slot + 1
  let right := 2 * slot + 2
  let best := if h.slotLT slot left then left else slot
  if right < h.heap.size && h.slotLT best right then right else best

/-- Moves what is at a slot down while a child is greater. -/
def siftDownFor : Nat → IndexHeap V → Nat → IndexHeap V
  | 0, h, _ => h
  | fuel + 1, h, slot =>
    if h.heap.size ≤ 2 * slot + 1 then h
    else
      let best := h.greatestNear slot
      if best = slot then h else siftDownFor fuel (h.exchange slot best) best

/-- A slot goes down at most once for each slot of the heap. -/
def siftDown (h : IndexHeap V) (slot : Nat) : IndexHeap V := siftDownFor h.heap.size h slot

/-- Moves what is at a slot up while its parent is less. -/
def siftUpFor : Nat → IndexHeap V → Nat → IndexHeap V
  | 0, h, _ => h
  | fuel + 1, h, slot =>
    if slot = 0 then h
    else if h.slotLT (parent slot) slot then siftUpFor fuel (h.exchange slot (parent slot)) (parent slot)
    else h

/-- A parent stands at a lesser slot, so the slot bounds the steps. -/
def siftUp (h : IndexHeap V) (slot : Nat) : IndexHeap V := siftUpFor slot h slot

/-- Sifts down from the slots below a bound, the last first. -/
def orderBelow : Nat → IndexHeap V → IndexHeap V
  | 0, h => h
  | n + 1, h => orderBelow n (h.siftDown n)

/-- Orders the heap as a whole, from the last parent to the root. -/
def restore (h : IndexHeap V) : IndexHeap V := { orderBelow (h.heap.size / 2) h with pending := false }

/-! ## On the heap and off -/

def pushLast (h : IndexHeap V) (i : Nat) : IndexHeap V :=
  { h with slots := h.slots.setIfInBounds i (some h.heap.size), heap := h.heap.push i }

/-- Puts an index on the heap.  Answers whether it was off. -/
def activate (h : IndexHeap V) (i : Nat) : Bool × IndexHeap V :=
  match h.slot? i with
  | none =>
    let h := h.pushLast i
    (true, if h.pending then h else h.siftUp (h.heap.size - 1))
  | some slot => (false, if h.pending then h else (h.siftUp slot).siftDown slot)

/-- Puts an index on the heap, and leaves the order for later. -/
def activateDeferred (h : IndexHeap V) (i : Nat) : Bool × IndexHeap V :=
  match h.slot? i with
  | none => (true, { h.pushLast i with pending := true })
  | some _ => (false, h)

/-- Takes what is at a slot off the heap; what was at the last slot takes its place. -/
def takeSlot (h : IndexHeap V) (i slot : Nat) : IndexHeap V :=
  let last := h.heap.size - 1
  match h.heap[last]? with
  | none => h
  | some moved =>
    if slot = last then { h with slots := h.slots.setIfInBounds i none, heap := h.heap.pop }
    else
      { h with
        slots := (h.slots.setIfInBounds moved (some slot)).setIfInBounds i none
        heap := (h.heap.setIfInBounds slot moved).pop }

/-- Takes an index off the heap.  Answers whether it was on. -/
def remove (h : IndexHeap V) (i : Nat) : Bool × IndexHeap V :=
  match h.slot? i with
  | none => (false, h)
  | some slot =>
    let h := h.takeSlot i slot
    (true, if slot < h.heap.size && !h.pending then (h.siftUp slot).siftDown slot else h)

/-- Takes an index off the heap, and leaves the order for later. -/
def removeDeferred (h : IndexHeap V) (i : Nat) : Bool × IndexHeap V :=
  match h.slot? i with
  | none => (false, h)
  | some slot =>
    let h := h.takeSlot i slot
    (true, if slot < h.heap.size then { h with pending := true } else h)

/-- Restores the order around an index whose value has changed, if it is on the heap.  A pending restore will place it,
so then nothing is done. -/
def settle (h : IndexHeap V) (i : Nat) : IndexHeap V :=
  if h.pending then h
  else
    match h.slot? i with
    | none => h
    | some slot => (h.siftDown slot).siftUp slot

/-- Takes the index of the greatest value off the heap, after a pending restore. -/
def popMax (h : IndexHeap V) : Option Nat × IndexHeap V :=
  let h := if h.pending then h.restore else h
  match h.heap[0]? with
  | none => (none, h)
  | some i => (some i, (h.remove i).2)

/-- Takes every index off the heap, in the order `popMax` gives them. -/
def drain (h : IndexHeap V) : List Nat × IndexHeap V :=
  go h.heap.size h
where
  go : Nat → IndexHeap V → List Nat × IndexHeap V
    | 0, h => ([], h.popMax.2)
    | n + 1, h =>
      match h.popMax with
      | (none, h) => ([], h)
      | (some i, h) =>
        let (rest, h) := go n h
        (i :: rest, h)

/-! ## Calls

The operations as they are run: wherever an array is looked at or changed, the place is there, or the call ends in a fault.
An index without a value has no place in the arrays, and nothing is taken off a heap that is empty. -/

namespace Call

def add [Inhabited V] (i : Nat) (v : V) : Run (IndexHeap V) Bool := modifyGet (·.add i v)

def value (i : Nat) : Run (IndexHeap V) V := do Run.expect ((← get).value? i)

def revalue (i : Nat) (v : V) : Run (IndexHeap V) Unit := do
  Run.require ((← get).knows i)
  modify (·.revalue i v)

/-- Changes all values, if each has a changed value. -/
def mapValues (f : V → Option V) : Run (IndexHeap V) Unit := do
  let values ← Run.expect ((← get).values.mapM f)
  modify ({ · with values })

/-- Where the index is on the heap. -/
def slot (i : Nat) : Run (IndexHeap V) (Option Nat) := do Run.expect (← get).slots[i]?

/-- The value of the index at a slot. -/
def valueAt (slot : Nat) : Run (IndexHeap V) V := do value (← Run.expect (← get).heap[slot]?)

/-- Whether the value at one slot is less than the value at another. -/
def lessAt (a b : Nat) : Run (IndexHeap V) Bool := do
  let v ← valueAt a
  let w ← valueAt b
  pure (decide (v < w))

def exchange (a b : Nat) : Run (IndexHeap V) Unit := do
  let h ← get
  let i ← Run.expect h.heap[a]?
  let j ← Run.expect h.heap[b]?
  Run.require (decide (i < h.slots.size) && decide (j < h.slots.size))
  modify (·.exchange a b)

def greatestNear (slot : Nat) : Run (IndexHeap V) Nat := do
  let left := 2 * slot + 1
  let right := 2 * slot + 2
  let best := if ← lessAt slot left then left else slot
  if right < (← get).heap.size then pure (if ← lessAt best right then right else best) else pure best

def siftDownFor : Nat → Nat → Run (IndexHeap V) Unit
  | 0, _ => pure ()
  | fuel + 1, slot => do
    if (← get).heap.size ≤ 2 * slot + 1 then pure ()
    else
      let best ← greatestNear slot
      if best = slot then pure ()
      else
        exchange slot best
        siftDownFor fuel best

def siftDown (slot : Nat) : Run (IndexHeap V) Unit := do siftDownFor (← get).heap.size slot

def siftUpFor : Nat → Nat → Run (IndexHeap V) Unit
  | 0, _ => pure ()
  | fuel + 1, slot => do
    if slot = 0 then pure ()
    else if ← lessAt (parent slot) slot then
      exchange slot (parent slot)
      siftUpFor fuel (parent slot)
    else pure ()

def siftUp (slot : Nat) : Run (IndexHeap V) Unit := siftUpFor slot slot

def orderBelow : Nat → Run (IndexHeap V) Unit
  | 0 => pure ()
  | n + 1 => do
    siftDown n
    orderBelow n

def restore : Run (IndexHeap V) Unit := do
  orderBelow ((← get).heap.size / 2)
  modify ({ · with pending := false })

/-- There is a place on the heap for each index that has a value. -/
def pushLast (i : Nat) : Run (IndexHeap V) Unit := do
  let h ← get
  Run.require (decide (h.heap.size < h.values.size) && decide (i < h.slots.size))
  modify (·.pushLast i)

def unlessPending (m : Run (IndexHeap V) Unit) : Run (IndexHeap V) Unit := do if !(← get).pending then m

/-- Does something for a slot, if it is a slot of the heap. -/
def onHeap (slot : Nat) (m : Run (IndexHeap V) Unit) : Run (IndexHeap V) Unit := do
  if slot < (← get).heap.size then m

/-- Restores the order around a slot where an index was put or taken away. -/
def settleAt (slot : Nat) : Run (IndexHeap V) Unit := unlessPending do
  siftUp slot
  siftDown slot

def activate (i : Nat) : Run (IndexHeap V) Bool := do
  match ← slot i with
  | none =>
    pushLast i
    unlessPending (siftUp ((← get).heap.size - 1))
    pure true
  | some slot =>
    settleAt slot
    pure false

def activateDeferred (i : Nat) : Run (IndexHeap V) Bool := do
  match ← slot i with
  | none =>
    pushLast i
    modify ({ · with pending := true })
    pure true
  | some _ => pure false

def takeSlot (i slot : Nat) : Run (IndexHeap V) Unit := do
  let h ← get
  Run.require (decide (0 < h.heap.size))
  let moved ← Run.expect h.heap[h.heap.size - 1]?
  Run.require (decide (slot < h.heap.size) && decide (moved < h.slots.size) && decide (i < h.slots.size))
  modify (·.takeSlot i slot)

def remove (i : Nat) : Run (IndexHeap V) Bool := do
  match ← slot i with
  | none => pure false
  | some slot =>
    takeSlot i slot
    onHeap slot (settleAt slot)
    pure true

def removeDeferred (i : Nat) : Run (IndexHeap V) Bool := do
  match ← slot i with
  | none => pure false
  | some slot =>
    takeSlot i slot
    onHeap slot (modify ({ · with pending := true }))
    pure true

def settle (i : Nat) : Run (IndexHeap V) Unit := unlessPending do
  match ← slot i with
  | none => pure ()
  | some slot =>
    siftDown slot
    siftUp slot

def restoreIfPending : Run (IndexHeap V) Unit := do if (← get).pending then restore

def popMax : Run (IndexHeap V) (Option Nat) := do
  restoreIfPending
  match (← get).heap[0]? with
  | none => pure none
  | some i =>
    let _ ← remove i
    pure (some i)

end Call

end Order

end IndexHeap

end Cdcl
