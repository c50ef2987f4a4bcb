import Cdcl.Proofs.HeapAccess
import Cdcl.Proofs.HeapOrder
import Mathlib.Data.Finset.Card
import Mathlib.Order.Hom.Basic
/-!
# PriorityQueue — a heap stands for a set of indices with values

All that a heap may be asked is a `Request`.  What a heap stands for is a plain set of active indices, each with a value
(`Plain`), and `Plain.Does` says what a request does to that: of the greatest index it asks no more than that it is
active, and that no active index has a greater value.  Nothing there tells a deferred request from one that is not.

A heap does what its plain set may do, and answers alike (`Represents.serve`); it stops only where an index without a
value is asked of (`Represents.fault`).  So after any requests the heap tells what the plain set holds, and draining it
gives every active index once, the greatest first (`trace_priorityQueue`).
-/
namespace Cdcl
namespace IndexHeap

variable {V : Type}

/-! ## Calls -/

namespace Call

variable {h : IndexHeap V} {i : Nat}

/-- An index without a value has no place on the heap. -/
theorem slot_of_count_le (l : h.Linked) (hi : h.count ≤ i) : slot i h = .error .fault h := by
  have hnone : h.slots[i]? = none := Array.getElem?_eq_none (l.size ▸ hi)
  refine (Run.bind_of_ok (Run.get_apply h)).trans ?_
  rw [hnone]
  rfl

theorem revalue_of_count_le (hi : h.count ≤ i) (v : V) : revalue i v h = .error .fault h := by
  have hknown : h.knows i = false := decide_eq_false (Nat.not_lt.2 hi)
  have hstop : Run.require (h.knows i) h = .error .fault h := by
    rw [hknown]
    rfl
  exact (Run.bind_of_ok (Run.get_apply h)).trans (Run.bind_of_error hstop)

theorem settle_revalue_of_lt [LT V] [DecidableLT V] (l : h.Linked) (hi : i < h.count) (v : V) :
    settle i (h.revalue i v) = .ok () ((h.revalue i v).settle i) :=
  gives_settle.eq_ok ⟨linked_revalue l i v, by simpa [count, IndexHeap.revalue] using hi⟩

end Call

variable [LinearOrder V]

/-! ## Requests -/

/-- What may be asked of a heap.  A value that is changed is settled at once, and all values are changed by what keeps
their order. -/
inductive Request (V : Type) [LinearOrder V]
  | add (i : Nat) (v : V)
  | revalue (i : Nat) (v : V)
  | activate (deferred : Bool) (i : Nat)
  | remove (deferred : Bool) (i : Nat)
  | restore
  | popMax
  | mapValues (f : V →o V)

inductive Answer
  | done
  | told (b : Bool)
  | found (i : Option Nat)
deriving DecidableEq

/-- Serves a request by the calls of the heap. -/
def Request.perform [Inhabited V] : Request V → Run (IndexHeap V) Answer
  | .add i v => do
    let fresh ← Call.add i v
    unless fresh do Call.settle i
    pure (.told fresh)
  | .revalue i v => do
    Call.revalue i v
    Call.settle i
    pure .done
  | .activate deferred i => do
    pure (.told (← if deferred then Call.activateDeferred i else Call.activate i))
  | .remove deferred i => do
    pure (.told (← if deferred then Call.removeDeferred i else Call.remove i))
  | .restore => do
    Call.restore
    pure .done
  | .popMax => do pure (.found (← Call.popMax))
  | .mapValues f => do
    Call.mapValues fun v => some (f v)
    pure .done

section

variable [Inhabited V] {h : IndexHeap V} {i : Nat}

theorem perform_add_fresh (hi : h.count ≤ i) (v : V) :
    (Request.add i v).perform h = .ok (.told true) (h.add i v).2 := by
  have hadd : Call.add i v h = .ok true (h.add i v).2 := by
    show EStateM.Result.ok (h.add i v).1 (h.add i v).2 = _
    rw [add_of_count_le hi]
  exact (Run.bind_of_ok hadd).trans rfl

theorem perform_add_known (l : h.Linked) (hi : i < h.count) (v : V) :
    (Request.add i v).perform h = .ok (.told false) ((h.revalue i v).settle i) := by
  have hadd : Call.add i v h = .ok false (h.revalue i v) := by
    show EStateM.Result.ok (h.add i v).1 (h.add i v).2 = _
    rw [add_of_lt hi]
  exact (Run.bind_of_ok hadd).trans (Run.bind_of_ok (Call.settle_revalue_of_lt l hi v))

theorem perform_revalue (l : h.Linked) (hi : i < h.count) (v : V) :
    (Request.revalue i v).perform h = .ok .done ((h.revalue i v).settle i) :=
  (Run.bind_of_ok (Call.gives_revalue.eq_ok hi)).trans (Run.bind_of_ok (Call.settle_revalue_of_lt l hi v))

theorem perform_activate (l : h.Linked) (hi : i < h.count) (deferred : Bool) :
    (Request.activate deferred i).perform h =
      .ok (.told (if deferred then h.activateDeferred i else h.activate i).1)
        (if deferred then h.activateDeferred i else h.activate i).2 := by
  cases deferred with
  | true => exact Run.bind_of_ok (Call.gives_activateDeferred.eq_ok ⟨l, hi⟩)
  | false => exact Run.bind_of_ok (Call.gives_activate.eq_ok ⟨l, hi⟩)

theorem perform_remove (l : h.Linked) (hi : i < h.count) (deferred : Bool) :
    (Request.remove deferred i).perform h =
      .ok (.told (if deferred then h.removeDeferred i else h.remove i).1)
        (if deferred then h.removeDeferred i else h.remove i).2 := by
  cases deferred with
  | true => exact Run.bind_of_ok (Call.gives_removeDeferred.eq_ok ⟨l, hi⟩)
  | false => exact Run.bind_of_ok (Call.gives_remove.eq_ok ⟨l, hi⟩)

theorem perform_restore (l : h.Linked) : (Request.restore : Request V).perform h = .ok .done h.restore :=
  Run.bind_of_ok (Call.gives_restore.eq_ok l)

theorem perform_popMax (l : h.Linked) : (Request.popMax : Request V).perform h = .ok (.found h.popMax.1) h.popMax.2 :=
  Run.bind_of_ok (Call.gives_popMax.eq_ok l)

theorem perform_mapValues (h : IndexHeap V) (f : V →o V) :
    (Request.mapValues f).perform h = .ok .done (h.mapValues f) := by
  have hall : h.values.mapM (fun v => some (f v)) = some (h.values.map f) := Array.mapM_pure ..
  have hexpect : Run.expect (h.values.mapM fun v => some (f v)) h = .ok (h.values.map f) h :=
    Run.expect_eq_ok_iff.2 ⟨hall, rfl⟩
  have hmap : Call.mapValues (fun v => some (f v)) h = .ok () (h.mapValues f) := Run.bind_of_ok hexpect
  exact Run.bind_of_ok hmap

end

/-! ## The plain set -/

/-- A value for some indices, and the set of those that are active. -/
structure Plain (V : Type) where
  value : Nat → Option V := fun _ => none
  active : Finset Nat := ∅

namespace Plain

/-- Gives an index a value, and every index before it that has none the default. -/
def given [Inhabited V] (p : Plain V) (i : Nat) (v : V) : Plain V :=
  { p with value := fun j => if j = i then some v else if j < i then some ((p.value j).getD default) else p.value j }

/-- An active index such that no active index has a greater value. -/
def Greatest (p : Plain V) (i : Nat) : Prop :=
  i ∈ p.active ∧ ∃ v, p.value i = some v ∧ ∀ j ∈ p.active, ∃ w, p.value j = some w ∧ w ≤ v

end Plain

/-- An index that is asked of has a value. -/
def Request.Fits (p : Plain V) : Request V → Prop
  | .revalue i _ | .activate _ i | .remove _ i => (p.value i).isSome
  | _ => True

/-- What a request may do to a plain set, and what it answers. -/
inductive Plain.Does [Inhabited V] (p : Plain V) : Request V → Answer → Plain V → Prop
  | add (i : Nat) (v : V) : p.Does (.add i v) (.told (p.value i).isNone) (p.given i v)
  | revalue (i : Nat) (v : V) :
      p.Does (.revalue i v) .done { p with value := fun j => if j = i then some v else p.value j }
  | activate (deferred : Bool) (i : Nat) :
      p.Does (.activate deferred i) (.told (decide (i ∉ p.active))) { p with active := insert i p.active }
  | remove (deferred : Bool) (i : Nat) :
      p.Does (.remove deferred i) (.told (decide (i ∈ p.active))) { p with active := p.active.erase i }
  | restore : p.Does .restore .done p
  | none : p.active = ∅ → p.Does .popMax (.found none) p
  | greatest {i : Nat} : p.Greatest i → p.Does .popMax (.found (some i)) { p with active := p.active.erase i }
  | mapValues (f : V →o V) : p.Does (.mapValues f) .done { p with value := fun i => (p.value i).map f }

/-- What was asked of a plain set, each time of an index with a value, the last first, and what it came to. -/
inductive Plain.Trace [Inhabited V] : List (Request V × Answer) → Plain V → Prop
  | nil : Trace [] {}
  | cons {past : List (Request V × Answer)} {p q : Plain V} {r : Request V} {a : Answer} :
      Trace past p → r.Fits p → p.Does r a q → Trace ((r, a) :: past) q

/-! ## On the heap and off, in either mode -/

/-- An index was put on the heap or taken off, and nothing else. -/
structure Changed (h : IndexHeap V) (told : Bool) (on : Nat → Prop) (x : Bool × IndexHeap V) : Prop where
  told : x.1 = told
  linked : x.2.Linked
  ordered : x.2.Ordered
  values : x.2.values = h.values
  mem : ∀ j, j ∈ x.2.heap ↔ on j

theorem changed_activate {h : IndexHeap V} (l : h.Linked) (o : h.Ordered) {i : Nat} (hi : i < h.count)
    (deferred : Bool) :
    Changed h (h.slot? i).isNone (fun j => j = i ∨ j ∈ h.heap)
      (if deferred then h.activateDeferred i else h.activate i) := by
  cases deferred with
  | true =>
    refine ⟨?_, linked_activateDeferred l hi, ordered_activateDeferred o i, values_activateDeferred h i,
      fun j => mem_activateDeferred l⟩
    rw [if_pos rfl]
    unfold activateDeferred
    cases h.slot? i <;> rfl
  | false =>
    refine ⟨?_, linked_activate l hi, ordered_activate l o hi, values_activate h i, fun j => mem_activate l⟩
    rw [if_neg Bool.false_ne_true]
    unfold activate
    cases h.slot? i <;> rfl

theorem changed_remove {h : IndexHeap V} (l : h.Linked) (o : h.Ordered) (i : Nat) (deferred : Bool) :
    Changed h (h.slot? i).isSome (fun j => j ∈ h.heap ∧ j ≠ i)
      (if deferred then h.removeDeferred i else h.remove i) := by
  cases deferred with
  | true =>
    refine ⟨?_, linked_removeDeferred l i, ordered_removeDeferred l o i, values_removeDeferred h i,
      fun j => mem_removeDeferred l⟩
    rw [if_pos rfl]
    unfold removeDeferred
    cases h.slot? i <;> rfl
  | false =>
    refine ⟨?_, linked_remove l i, ordered_remove l o i, values_remove h i, fun j => mem_remove l⟩
    rw [if_neg Bool.false_ne_true]
    unfold remove
    cases h.slot? i <;> rfl

/-! ## What a heap stands for -/

structure Represents (h : IndexHeap V) (p : Plain V) : Prop where
  linked : h.Linked
  ordered : h.Ordered
  value : ∀ i, h.value? i = p.value i
  mem : ∀ i, i ∈ h.heap ↔ i ∈ p.active

theorem represents_empty : Represents ({} : IndexHeap V) {} :=
  ⟨linked_empty, ordered_empty, fun _ => rfl, fun i => by simp⟩

namespace Represents

variable {h : IndexHeap V} {p : Plain V}

theorem isSome_iff (rep : Represents h p) {i : Nat} : (p.value i).isSome ↔ i < h.count := by
  rw [← rep.value]
  simp [value?, count]

theorem isNone_slot? (rep : Represents h p) (i : Nat) : (h.slot? i).isNone = decide (i ∉ p.active) := by
  rw [Bool.eq_iff_iff, decide_eq_true_eq, ← rep.mem, rep.linked.mem_iff, Option.isNone_iff_eq_none]
  simp [Option.eq_none_iff_forall_ne_some]

theorem isSome_slot? (rep : Represents h p) (i : Nat) : (h.slot? i).isSome = decide (i ∈ p.active) := by
  rw [Bool.eq_iff_iff, decide_eq_true_eq, ← rep.mem, rep.linked.mem_iff, Option.isSome_iff_exists]

theorem changed (rep : Represents h p) {told : Bool} {on : Nat → Prop} {x : Bool × IndexHeap V}
    (c : Changed h told on x) {active : Finset Nat} (hon : ∀ j, on j ↔ j ∈ active) :
    Represents x.2 { p with active } := by
  refine ⟨c.linked, c.ordered, fun i => ?_, fun j => (c.mem j).trans (hon j)⟩
  rw [value?, c.values]
  exact rep.value i

theorem add_fresh [Inhabited V] (rep : Represents h p) {i : Nat} (hi : h.count ≤ i) (v : V) :
    Represents (h.add i v).2 (p.given i v) := by
  refine ⟨linked_add rep.linked i v, ordered_add rep.linked rep.ordered hi v, fun j => ?_, ?_⟩
  · rw [value?_add, rep.value]
    rfl
  · rw [add_of_count_le hi]
    exact rep.mem

theorem settle_revalue (rep : Represents h p) {i : Nat} (hi : i < h.count) (v : V) :
    Represents ((h.revalue i v).settle i) { p with value := fun j => if j = i then some v else p.value j } := by
  refine ⟨linked_settle (linked_revalue rep.linked i v) i, ordered_settle_revalue rep.linked rep.ordered i v,
    fun j => ?_, fun j => ?_⟩
  · rw [value?, values_settle, ← value?, value?_revalue, rep.value]
    simp [hi, eq_comm]
  · rw [mem_settle]
    exact rep.mem j

/-- An index that had a value has those before it valued too. -/
theorem given_eq [Inhabited V] (rep : Represents h p) {i : Nat} (hi : i < h.count) (v : V) :
    p.given i v = { p with value := fun j => if j = i then some v else p.value j } := by
  unfold Plain.given
  congr 1
  funext j
  by_cases hj : j < i
  · obtain ⟨w, hw⟩ := Option.isSome_iff_exists.1 (rep.isSome_iff.2 (Nat.lt_trans hj hi))
    simp [hj, hw]
  · simp [hj]

theorem restore (rep : Represents h p) : Represents h.restore p := by
  refine ⟨linked_restore rep.linked, fun _ => ordered_restore rep.linked, fun i => ?_, fun i => ?_⟩
  · rw [value?, values_restore]
    exact rep.value i
  · rw [(perm_restore h).mem_iff]
    exact rep.mem i

theorem mapValues (rep : Represents h p) (f : V →o V) :
    Represents (h.mapValues f) { p with value := fun i => (p.value i).map f } := by
  refine ⟨linked_mapValues rep.linked f, ordered_mapValues rep.ordered f.monotone, fun i => ?_, rep.mem⟩
  simp [← rep.value, value?, IndexHeap.mapValues]

theorem activate (rep : Represents h p) {i : Nat} (hi : i < h.count) (deferred : Bool) :
    (if deferred then h.activateDeferred i else h.activate i).1 = decide (i ∉ p.active) ∧
      Represents (if deferred then h.activateDeferred i else h.activate i).2
        { p with active := insert i p.active } := by
  have c := changed_activate rep.linked rep.ordered hi deferred
  refine ⟨c.told.trans (rep.isNone_slot? i), rep.changed c fun j => ?_⟩
  rw [rep.mem, Finset.mem_insert]

theorem remove (rep : Represents h p) (i : Nat) (deferred : Bool) :
    (if deferred then h.removeDeferred i else h.remove i).1 = decide (i ∈ p.active) ∧
      Represents (if deferred then h.removeDeferred i else h.remove i).2
        { p with active := p.active.erase i } := by
  have c := changed_remove rep.linked rep.ordered i deferred
  refine ⟨c.told.trans (rep.isSome_slot? i), rep.changed c fun j => ?_⟩
  rw [rep.mem, Finset.mem_erase, and_comm]

/-- **The greatest active index is taken off, or none is active.** -/
theorem popMax [Inhabited V] (rep : Represents h p) :
    ∃ q, p.Does .popMax (.found h.popMax.1) q ∧ Represents h.popMax.2 q := by
  have o := ordered_popMax rep.linked rep.ordered
  cases hp : h.popMax with
  | mk found g =>
    rw [hp] at o
    cases found with
    | none =>
      obtain ⟨hlinked, hvalues, hsize, hsize'⟩ := popMax_eq_none rep.linked hp
      have hnone : ∀ i, i ∉ p.active := fun i hi => by simpa [Array.size_eq_zero_iff.1 hsize] using (rep.mem i).2 hi
      refine ⟨p, .none (Finset.eq_empty_of_forall_notMem hnone), hlinked, o, fun i => ?_, fun i => ?_⟩
      · rw [value?, hvalues]
        exact rep.value i
      · simp [Array.size_eq_zero_iff.1 hsize', hnone]
    | some i =>
      obtain ⟨hi, hw⟩ := popMax_eq_some rep.linked hp
      obtain ⟨v, hv, hmost⟩ := greatest_of_popMax rep.linked rep.ordered hp
      simp only [rep.value, rep.mem] at hi hv hmost
      refine ⟨_, .greatest ⟨hi, v, hv, hmost⟩, hw.linked, o, fun j => ?_, fun j => ?_⟩
      · rw [value?, hw.values]
        exact rep.value j
      · rw [hw.mem, rep.mem, Finset.mem_erase, and_comm]

/-! ## Serving a request -/

/-- **A heap serves every request of an index with a value**, and does what its plain set may do. -/
theorem serve [Inhabited V] (rep : Represents h p) (r : Request V) (fits : r.Fits p) :
    ∃ a g q, r.perform h = .ok a g ∧ p.Does r a q ∧ Represents g q := by
  cases r with
  | add i v =>
    refine ⟨.told (p.value i).isNone, ?_⟩
    by_cases hi : h.count ≤ i
    · refine ⟨_, _, ?_, .add i v, rep.add_fresh hi v⟩
      have hnone : (p.value i).isNone = true := by
        simpa [Option.isNone_iff_eq_none] using fun hs => Nat.not_lt.2 hi (rep.isSome_iff.1 hs)
      rw [perform_add_fresh hi, hnone]
    · have hlt := Nat.not_le.1 hi
      refine ⟨_, _, ?_, .add i v, rep.given_eq hlt v ▸ rep.settle_revalue hlt v⟩
      have hsome : (p.value i).isNone = false := by simpa using rep.isSome_iff.2 hlt
      rw [perform_add_known rep.linked hlt, hsome]
  | revalue i v =>
    have hi := rep.isSome_iff.1 fits
    exact ⟨_, _, _, perform_revalue rep.linked hi v, .revalue i v, rep.settle_revalue hi v⟩
  | activate deferred i =>
    have hi := rep.isSome_iff.1 fits
    obtain ⟨htold, rep'⟩ := rep.activate hi deferred
    exact ⟨_, _, _, perform_activate rep.linked hi deferred, htold ▸ .activate deferred i, rep'⟩
  | remove deferred i =>
    have hi := rep.isSome_iff.1 fits
    obtain ⟨htold, rep'⟩ := rep.remove i deferred
    exact ⟨_, _, _, perform_remove rep.linked hi deferred, htold ▸ .remove deferred i, rep'⟩
  | restore => exact ⟨_, _, _, perform_restore rep.linked, .restore, rep.restore⟩
  | popMax =>
    obtain ⟨q, hdoes, rep'⟩ := rep.popMax
    exact ⟨_, _, q, perform_popMax rep.linked, hdoes, rep'⟩
  | mapValues f => exact ⟨_, _, _, perform_mapValues h f, .mapValues f, rep.mapValues f⟩

/-- A heap stops where an index without a value is asked of. -/
theorem fault [Inhabited V] (rep : Represents h p) (r : Request V) (fits : ¬ r.Fits p) :
    r.perform h = .error .fault h := by
  cases r with
  | revalue i v =>
    exact Run.bind_of_error (Call.revalue_of_count_le (Nat.not_lt.1 fun hi => fits (rep.isSome_iff.2 hi)) v)
  | activate deferred i =>
    have hslot := Call.slot_of_count_le rep.linked (Nat.not_lt.1 fun hi => fits (rep.isSome_iff.2 hi))
    cases deferred <;> exact Run.bind_of_error (Run.bind_of_error hslot)
  | remove deferred i =>
    have hslot := Call.slot_of_count_le rep.linked (Nat.not_lt.1 fun hi => fits (rep.isSome_iff.2 hi))
    cases deferred <;> exact Run.bind_of_error (Run.bind_of_error hslot)
  | _ => exact absurd trivial fits

/-! ## Draining -/

theorem activeCount (rep : Represents h p) : h.activeCount = p.active.card := by
  have he : h.heap.toList.toFinset = p.active := by
    ext i
    rw [List.mem_toFinset, Array.mem_toList_iff, rep.mem]
  rw [← he, List.toFinset_card_of_nodup rep.linked.nodup]
  rfl

end Represents

/-- Every active index once, the greatest first. -/
structure Plain.Drains (p : Plain V) (drained : List Nat) : Prop where
  nodup : drained.Nodup
  mem : ∀ i, i ∈ drained ↔ i ∈ p.active
  sorted : drained.Pairwise fun i j => ∃ v w, p.value i = some v ∧ p.value j = some w ∧ w ≤ v

theorem Plain.drains_nil {p : Plain V} (hp : p.active = ∅) : p.Drains [] := by
  constructor
  · exact List.nodup_nil
  · simp [hp]
  · exact .nil

/-- The greatest index goes before what drains the others. -/
theorem Plain.Greatest.drains {p : Plain V} {i : Nat} (hi : p.Greatest i) {drained : List Nat}
    (hd : Plain.Drains { p with active := p.active.erase i } drained) : p.Drains (i :: drained) := by
  have hmem : ∀ j, j ∈ drained ↔ j ≠ i ∧ j ∈ p.active := by
    intro j
    rw [hd.mem, Finset.mem_erase]
  constructor
  · rw [List.nodup_cons, hmem]
    exact ⟨fun h => h.1 rfl, hd.nodup⟩
  · intro j
    rw [List.mem_cons, hmem]
    by_cases hj : j = i
    · simp [hj, hi.1]
    · simp [hj]
  · rw [List.pairwise_cons]
    refine ⟨fun j hj => ?_, hd.sorted⟩
    obtain ⟨v, hv, hmost⟩ := hi.2
    obtain ⟨w, hw, hle⟩ := hmost j ((hmem j).1 hj).2
    exact ⟨v, w, hv, hw, hle⟩

/-- **Draining gives every active index once, the greatest first**, and leaves none. -/
theorem drains_go [Inhabited V] (n : Nat) {h : IndexHeap V} {p : Plain V} (rep : Represents h p)
    (hn : p.active.card ≤ n) :
    p.Drains (drain.go n h).1 ∧ Represents (drain.go n h).2 { p with active := ∅ } := by
  induction n generalizing h p with
  | zero =>
    have hempty : p.active = ∅ := Finset.card_eq_zero.1 (Nat.le_zero.1 hn)
    obtain ⟨q, hdoes, rep'⟩ := rep.popMax
    refine ⟨Plain.drains_nil hempty, ?_⟩
    generalize h.popMax.1 = found at hdoes
    cases hdoes with
    | none _ => rwa [← hempty]
    | greatest hi => exact absurd hi.1 (by simp [hempty])
  | succ n ih =>
    obtain ⟨q, hdoes, rep'⟩ := rep.popMax
    unfold drain.go
    cases hp : h.popMax with
    | mk found g =>
      rw [hp] at hdoes rep'
      dsimp only at hdoes rep' ⊢
      cases hdoes with
      | none hempty => exact ⟨Plain.drains_nil hempty, by rwa [← hempty]⟩
      | greatest hi =>
        obtain ⟨hd, hrest⟩ := ih rep' (by rw [Finset.card_erase_of_mem hi.1]; omega)
        exact ⟨hi.drains hd, hrest⟩

/-! ## Any requests -/

/-- What a heap tells of the plain set it stands for. -/
structure Tells (h : IndexHeap V) (p : Plain V) : Prop where
  nodup : h.heap.toList.Nodup
  slot : ∀ i q, h.slot? i = some q ↔ h.heap[q]? = some i
  contains : ∀ i, h.contains i = true ↔ i ∈ p.active
  activeCount : h.activeCount = p.active.card
  value : ∀ i, h.value? i = p.value i
  valued : ∀ i ∈ p.active, (p.value i).isSome
  ordered : h.pending = false → ∀ q c, c = 2 * q + 1 ∨ c = 2 * q + 2 → ∀ v w, h.slotValue? q = some v →
    h.slotValue? c = some w → w ≤ v

theorem Represents.tells {h : IndexHeap V} {p : Plain V} (rep : Represents h p) : Tells h p := by
  refine ⟨rep.linked.nodup, rep.linked.slot, fun i => ?_, rep.activeCount, rep.value, fun i hi => ?_,
    fun hp q c hc v w hv hw => ?_⟩
  · unfold contains
    rw [rep.isSome_slot?, decide_eq_true_eq]
  · exact rep.isSome_iff.2 (rep.linked.lt_of_mem ((rep.mem i).2 hi))
  · have hparent : parent c = q := by
      obtain rfl | rfl := hc
      · exact parent_left q
      · exact parent_right q
    exact rep.ordered hp c (by omega) (Nat.zero_le _) w v hw (hparent ▸ hv)

/-- What was asked of a heap, a plain set may have been asked too. -/
theorem represents_of_trace [Inhabited V] {past : List (Request V × Answer)} {h : IndexHeap V}
    (ht : Run.Trace Request.perform {} past h) : ∃ p, Plain.Trace past p ∧ Represents h p := by
  induction ht with
  | nil => exact ⟨{}, .nil, represents_empty⟩
  | @cons past h g r a _ hr ih =>
    obtain ⟨p, hp, rep⟩ := ih
    by_cases fits : r.Fits p
    · obtain ⟨a', g', q, hr', hdoes, rep'⟩ := rep.serve r fits
      rw [hr] at hr'
      cases hr'
      exact ⟨q, .cons hp fits hdoes, rep'⟩
    · rw [rep.fault r fits] at hr
      cases hr

/-- **A heap is a priority queue**, whichever mode indices are put on the heap and taken off in.  After any requests
there is a plain set that may have been asked the same and answered alike, and the heap tells what that set holds.  The
heap serves the requests of indices with a value, and no others; and draining it gives every active index once, the
greatest first, and leaves none. -/
theorem trace_priorityQueue [Inhabited V] {past : List (Request V × Answer)} {h : IndexHeap V}
    (ht : Run.Trace Request.perform {} past h) :
    ∃ p, Plain.Trace past p ∧ Tells h p ∧ (∀ r : Request V, (∃ a g, r.perform h = .ok a g) ↔ r.Fits p) ∧
      p.Drains h.drain.1 ∧ Tells h.drain.2 { p with active := ∅ } := by
  obtain ⟨p, hp, rep⟩ := represents_of_trace ht
  obtain ⟨hd, hrest⟩ := drains_go h.heap.size rep rep.activeCount.ge
  refine ⟨p, hp, rep.tells, fun r => ⟨fun ⟨a, g, hr⟩ => ?_, fun fits => ?_⟩, hd, hrest.tells⟩
  · by_contra fits
    rw [rep.fault r fits] at hr
    cases hr
  · obtain ⟨a, g, -, hr, -⟩ := rep.serve r fits
    exact ⟨a, g, hr⟩

/-- Two indices, one put on the heap in each mode: the one of the greater value is taken off first. -/
theorem trace_priorityQueue_two :
    ∃ h : IndexHeap Nat,
      Run.Trace Request.perform {}
        [(.popMax, .found (some 0)), (.activate false 0, .told true), (.add 0 7, .told false),
          (.activate true 2, .told true), (.add 2 5, .told true)] h ∧
      ∃ p, Plain.Trace
          [(.popMax, .found (some 0)), (.activate false 0, .told true), (.add 0 7, .told false),
            (.activate true 2, .told true), (.add 2 5, .told true)] p ∧
        Tells h p ∧ p.Drains h.drain.1 := by
  have ht : Run.Trace Request.perform ({} : IndexHeap Nat)
      [(.popMax, .found (some 0)), (.activate false 0, .told true), (.add 0 7, .told false),
        (.activate true 2, .told true), (.add 2 5, .told true)] _ :=
    .cons (.cons (.cons (.cons (.cons .nil rfl) rfl) rfl) rfl) rfl
  obtain ⟨p, hp, htells, -, hdrains, -⟩ := trace_priorityQueue ht
  exact ⟨_, ht, p, hp, htells, hdrains⟩

end IndexHeap
end Cdcl
