import Cdcl.AtomTable.Values
import Cdcl.Proofs.HeapAccess
/-!
# ActivityHeap — atoms without a value are on the heap

Every change of the table keeps atoms without a value on the activity heap (`Stocked`): an atom that loses its value is
put on the heap, a further atom comes with it, and changes of activity leave the heap its indices.  Taking the most
active atom off takes no other.

The calls of a stocked table that ask of atoms it knows find what they look for: there is an activity for each atom, and
the calls of the heap are those of a linked one.
-/
namespace Cdcl
namespace AtomTable

/-- Every atom without a value is on the activity heap. -/
structure Stocked (t : AtomTable) : Prop where
  linked : t.activity.Linked
  size : t.activity.count = t.count
  free : ∀ a < t.count, t.value a = none → a ∈ t.activity.heap

theorem Stocked.lt_activity {t : AtomTable} (h : t.Stocked) {a : Nat} (ha : a < t.count) : a < t.activity.count := by
  rw [h.size]
  exact ha

theorem stocked_make (options : AtomOptions) : Stocked { options } :=
  ⟨IndexHeap.linked_empty, rfl, fun _ h => absurd h (Nat.not_lt_zero _)⟩

theorem stocked_push {t : AtomTable} (h : t.Stocked) (previous : Bool) : (t.push previous).Stocked := by
  have hcount : t.records.size = t.activity.count := h.size.symm
  have hlinked := IndexHeap.linked_add h.linked t.activity.count 0.0
  have hadd := IndexHeap.add_count t.activity 0.0
  have hknown : t.activity.count < (t.activity.add t.activity.count 0.0).2.count := by
    rw [hadd]
    simp [IndexHeap.count]
  unfold push
  dsimp only
  rw [hcount]
  refine ⟨IndexHeap.linked_activate hlinked hknown, ?_, fun a ha hv => ?_⟩
  · show ((t.activity.add t.activity.count 0.0).2.activate t.activity.count).2.values.size = _
    rw [IndexHeap.values_activate, hadd]
    simp only [AtomTable.count, Array.size_push]
    exact congrArg (· + 1) h.size
  · refine (IndexHeap.mem_activate hlinked).2 ?_
    by_cases he : a = t.activity.count
    · exact .inl he
    · refine .inr ?_
      rw [hadd]
      simp only [AtomTable.count, Array.size_push] at ha
      have hlt : a < t.count := by
        unfold AtomTable.count
        omega
      refine h.free a hlt ?_
      rw [← value_push t previous a]
      exact hv

theorem stocked_dropValue {t : AtomTable} (h : t.Stocked) {a : Nat} (ha : a < t.count) (deferred : Bool) :
    (t.dropValue a deferred).Stocked := by
  have hk := h.lt_activity ha
  have hfree : ∀ b < (t.dropValue a deferred).count, (t.dropValue a deferred).value b = none →
      b = a ∨ b ∈ t.activity.heap := by
    intro b hb hv
    rw [value_dropValue] at hv
    rw [count_dropValue] at hb
    split at hv
    · exact .inl ‹_›
    · exact .inr (h.free b hb hv)
  cases deferred with
  | true =>
    refine ⟨IndexHeap.linked_activateDeferred h.linked hk, ?_, fun b hb hv =>
      (IndexHeap.mem_activateDeferred h.linked).2 (hfree b hb hv)⟩
    show (t.activity.activateDeferred a).2.values.size = _
    rw [IndexHeap.values_activateDeferred, count_dropValue]
    exact h.size
  | false =>
    refine ⟨IndexHeap.linked_activate h.linked hk, ?_, fun b hb hv =>
      (IndexHeap.mem_activate h.linked).2 (hfree b hb hv)⟩
    show (t.activity.activate a).2.values.size = _
    rw [IndexHeap.values_activate, count_dropValue]
    exact h.size

theorem stocked_scaleActivity {t : AtomTable} (h : t.Stocked) (factor : Float) : (t.scaleActivity factor).Stocked :=
  ⟨IndexHeap.linked_mapValues h.linked _, by
    show (t.activity.values.map _).size = _
    rw [Array.size_map]
    exact h.size, h.free⟩

theorem stocked_raise {t : AtomTable} (h : t.Stocked) (a : Nat) : (t.raise a).Stocked := by
  refine ⟨IndexHeap.linked_settle (IndexHeap.linked_revalue h.linked a _) a, ?_, fun b hb hv => ?_⟩
  · show ((t.activity.revalue a _).settle a).values.size = _
    rw [IndexHeap.values_settle]
    show (t.activity.values.setIfInBounds a _).size = _
    rw [Array.size_setIfInBounds]
    exact h.size
  · exact IndexHeap.mem_settle.2 (h.free b hb hv)

theorem stocked_bump {t : AtomTable} (h : t.Stocked) (a : Nat) : (t.bump a).Stocked := by
  unfold bump
  split
  · exact stocked_raise (stocked_scaleActivity h _) a
  · exact stocked_raise h a

theorem stocked_noteDecision {t : AtomTable} (h : t.Stocked) : t.noteDecision.Stocked := by
  unfold noteDecision
  split
  · have hreset : Stocked { t with sinceDecay := 0 } := ⟨h.linked, h.size, h.free⟩
    exact stocked_scaleActivity hreset _
  · exact ⟨h.linked, h.size, h.free⟩

/-- An atom taken off the heap is missed there until it gets a value. -/
structure StockedBut (t : AtomTable) (a : Nat) : Prop where
  linked : t.activity.Linked
  size : t.activity.count = t.count
  free : ∀ b < t.count, t.value b = none → b = a ∨ b ∈ t.activity.heap

/-- **An atom taken off the heap that has a value leaves the heap stocked**; one without a value is missed. -/
theorem popMostActive_eq_some {t u : AtomTable} {a : Nat} (h : t.Stocked) (hp : t.popMostActive = (some a, u)) :
    u.records = t.records ∧ a < t.count ∧ u.StockedBut a ∧ u.activity.heap.size + 1 = t.activity.heap.size := by
  unfold popMostActive at hp
  cases hpop : t.activity.popMax with
  | mk top activity =>
    rw [hpop] at hp
    cases hp
    obtain ⟨hmem, hw⟩ := IndexHeap.popMax_eq_some h.linked hpop
    refine ⟨rfl, h.size ▸ h.linked.lt_of_mem hmem, ⟨hw.linked, ?_, fun b hb hv => ?_⟩, hw.size⟩
    · show activity.values.size = _
      rw [hw.values]
      exact h.size
    · by_cases he : b = a
      · exact .inl he
      · exact .inr ((hw.mem b).2 ⟨h.free b hb hv, he⟩)

/-- **With nothing on the heap every atom has a value.** -/
theorem popMostActive_eq_none {t u : AtomTable} (h : t.Stocked) (hp : t.popMostActive = (none, u)) :
    u.records = t.records ∧ u.Stocked ∧ ∀ a < t.count, t.value a ≠ none := by
  unfold popMostActive at hp
  cases hpop : t.activity.popMax with
  | mk top activity =>
    rw [hpop] at hp
    cases hp
    obtain ⟨hlinked, hvalues, hempty, -⟩ := IndexHeap.popMax_eq_none h.linked hpop
    have hall : ∀ a < t.count, t.value a ≠ none := fun a ha hv => by
      have hmem := h.free a ha hv
      rw [Array.eq_empty_of_size_eq_zero hempty] at hmem
      simp at hmem
    refine ⟨rfl, ⟨hlinked, ?_, fun a ha hv => absurd hv (hall a ha)⟩, hall⟩
    show activity.values.size = _
    rw [hvalues]
    exact h.size

theorem StockedBut.stocked {t : AtomTable} {a : Nat} (h : t.StockedBut a) (ha : t.value a ≠ none) : t.Stocked :=
  ⟨h.linked, h.size, fun b hb hv => (h.free b hb hv).resolve_left fun e => ha (e ▸ hv)⟩

/-! ## Calls -/

namespace Call

open Run

variable {t : AtomTable} {a : Nat} {fit : Prop}

theorem gives_onActivity {α : Type} {m : Run (IndexHeap Float) α} {x : α} {h : IndexHeap Float}
    (hm : Gives m t.activity fit x h) : Gives (onActivity m) t fit x { t with activity := h } := by
  unfold onActivity
  rcases hm with hm | ⟨hn, u, hm⟩
  · exact .inl (by dsimp only; rw [hm])
  · exact .inr ⟨hn, { t with activity := u }, by dsimp only; rw [hm]⟩

/-- The activity of an atom is there. -/
theorem gives_bind_activity {β : Type} {f : Float → Run AtomTable β} {x : β} {u : AtomTable}
    (hfit : fit → t.Stocked ∧ a < t.count) (hf : Gives (f (t.activityOf a)) t fit x u) :
    Gives (activity a >>= f) t fit x u := by
  cases hv : t.activity.value? a with
  | none =>
    have hstop : IndexHeap.Call.value a t.activity = .error .fault t.activity := by
      unfold IndexHeap.Call.value
      rw [bind_of_ok (get_apply _), hv]
      rfl
    refine .inr ⟨fun ok => ?_, t, bind_of_error ?_⟩
    · exact absurd (Array.getElem?_eq_none_iff.1 hv) (Nat.not_le.2 ((hfit ok).1.lt_activity (hfit ok).2))
    · unfold activity onActivity
      dsimp only
      rw [hstop]
  | some v =>
    have hactivity : t.activityOf a = v := by rw [activityOf, hv, Option.getD_some]
    rw [hactivity] at hf
    exact (gives_onActivity (IndexHeap.Call.gives_value hv)).bind hf id id

theorem gives_raise : Gives (raise a) t (t.Stocked ∧ a < t.count) () (t.raise a) := by
  unfold raise AtomTable.raise
  refine gives_bind_activity id ?_
  rw [gives_bind_get]
  refine gives_onActivity ?_
  refine IndexHeap.Call.gives_revalue.bind IndexHeap.Call.gives_settle (fun ok => ok.1.lt_activity ok.2) fun ok => ?_
  refine ⟨IndexHeap.linked_revalue ok.1.linked a _, ?_⟩
  unfold IndexHeap.count IndexHeap.revalue
  rw [Array.size_setIfInBounds]
  exact ok.1.lt_activity ok.2

/-- **An atom's activity is raised without a look at a place that is not there.** -/
theorem gives_bump : Gives (bump a) t (t.Stocked ∧ a < t.count) () (t.bump a) := by
  unfold bump AtomTable.bump
  refine gives_bind_activity id ?_
  rw [gives_bind_get, gives_bind_get]
  by_cases hmax : t.options.bump.max < t.activityOf a + t.options.bump.value
  · rw [if_pos hmax, if_pos hmax]
    exact gives_raise.mono fun ok => ⟨stocked_scaleActivity ok.1 _, ok.2⟩
  · rw [if_neg hmax, if_neg hmax]
    exact gives_raise

theorem gives_change {f : AtomTable → AtomTable} : Gives (change a f) t (a < t.count) () (f t) := by
  unfold change
  exact gives_bind_get.2 (gives_bind_require decide_eq_true fun _ => gives_modify)

theorem gives_setLevel {level : Nat} : Gives (setLevel a level) t (a < t.count) () (t.setLevel a level) := gives_change

theorem gives_dropValue {deferred : Bool} :
    Gives (dropValue a deferred) t (t.Stocked ∧ a < t.count) () (t.dropValue a deferred) := by
  unfold dropValue AtomTable.dropValue
  refine gives_change.bind ?_ (fun ok => ok.2) id
  have hheap : t.Stocked ∧ a < t.count → t.activity.Linked ∧ a < t.activity.count := fun ok =>
    ⟨ok.1.linked, ok.1.lt_activity ok.2⟩
  cases deferred with
  | true => exact (gives_onActivity IndexHeap.Call.gives_activateDeferred).bind gives_pure hheap id
  | false => exact (gives_onActivity IndexHeap.Call.gives_activate).bind gives_pure hheap id

theorem gives_popMostActive : Gives popMostActive t t.Stocked t.popMostActive.1 t.popMostActive.2 :=
  (gives_onActivity IndexHeap.Call.gives_popMax).mono fun ok => ok.linked

/-- A further atom has a place on the heap. -/
theorem gives_fresh {previous : Bool} (hroom : t.records.size ≤ atomMax) :
    Gives (fresh previous) t t.Stocked t.records.size (t.push previous) := by
  unfold fresh
  rw [gives_bind_get]
  dsimp only
  rw [if_pos hroom]
  have hknown : t.Stocked → (t.activity.add t.records.size 0.0).2.Linked ∧
      t.records.size < (t.activity.add t.records.size 0.0).2.count := fun ok => by
    have hsize : t.activity.count = t.records.size := ok.size
    refine ⟨IndexHeap.linked_add ok.linked _ _, ?_⟩
    rw [← hsize, IndexHeap.add_count]
    simp [IndexHeap.count]
  have hheap : Gives (do
      let _ ← IndexHeap.Call.add t.records.size 0.0
      let _ ← IndexHeap.Call.activate t.records.size) t.activity t.Stocked ()
      ((t.activity.add t.records.size 0.0).2.activate t.records.size).2 :=
    Gives.bind (.inl rfl) (IndexHeap.Call.gives_activate.bind gives_pure id id) (fun _ => trivial) hknown
  exact (gives_onActivity hheap).bind (.inl rfl) id fun _ => trivial

/-- A further atom comes where there is room for it; where there is none nothing changes. -/
theorem meets_fresh {previous : Bool} {Q : Nat → AtomTable → Prop} {E : AtomTable → Prop}
    (hroom : t.records.size ≤ atomMax → Q t.records.size (t.push previous)) (hfull : E t) :
    Meets (fresh previous) t Q E := by
  by_cases h : t.records.size ≤ atomMax
  · exact (gives_fresh h).meets (hroom h)
  · unfold fresh
    rw [meets_bind, meets_get]
    dsimp only
    rw [if_neg h]
    exact hfull

end Call

end AtomTable
end Cdcl
