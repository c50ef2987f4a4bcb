import Cdcl.Watches
/-!
# Watches.Lists — the lists after each change

An element is removed by putting the last one into its place, so lists keep their elements but not their order.
`removeAll` leaves the elements that differ from a given one, and `removeFirst` takes one of them out.  The other
changes are described by what they do to the lists of each literal.
-/
namespace Cdcl
namespace Watches

/-! ## Removing elements -/

section

variable {α : Type}

theorem push_removeAt {list : Array α} {i : Nat} (h : i < list.size) :
    (removeAt list i).push list[i] = list.swap i (list.size - 1) := by
  unfold removeAt
  rw [Array.getElem?_eq_getElem (by omega)]
  apply Array.ext
  · simp
    omega
  · intro j hj hj'
    simp only [Array.getElem_push, Array.getElem_swap, Array.getElem_pop, Array.size_pop,
      Array.size_setIfInBounds]
    rw [Array.size_swap] at hj'
    by_cases hlast : j < list.size - 1
    · rw [dif_pos hlast, Array.getElem_setIfInBounds (by omega)]
      by_cases hi : i = j
      · rw [if_pos hi, if_pos hi.symm]
      · rw [if_neg hi, if_neg (Ne.symm hi), if_neg (by omega)]
    · obtain rfl : j = list.size - 1 := by omega
      rw [dif_neg hlast, if_pos rfl]
      split
      · rename_i hi
        simp only [hi]
      · rfl

/-- **Removing at an index removes the element there, and no other.** -/
theorem perm_removeAt {list : Array α} {i : Nat} (h : i < list.size) : ((removeAt list i).push list[i]).Perm list := by
  rw [push_removeAt h]
  exact Array.swap_perm ..

theorem size_removeAt {list : Array α} {i : Nat} (h : i < list.size) : (removeAt list i).size = list.size - 1 := by
  have := (perm_removeAt h).size_eq
  rw [Array.size_push] at this
  omega

theorem getElem_removeAt {list : Array α} {i j : Nat} (hij : j < i) (h : i < list.size)
    (hj : j < (removeAt list i).size) : (removeAt list i)[j] = list[j] := by
  have hp := congrArg (·[j]?) (push_removeAt h)
  have hsize := size_removeAt h
  simp only [Array.getElem?_push, Array.getElem?_swap] at hp
  rw [if_neg (by omega), if_neg (by omega), if_neg (by omega), Array.getElem?_eq_getElem hj,
    Array.getElem?_eq_getElem (by omega), Option.some.injEq] at hp
  exact hp

variable [BEq α] [LawfulBEq α]

/-- Where no element equals the given one, none is removed. -/
theorem filter_bne_eq_self {x : α} {list : Array α} (h : ∀ j (hj : j < list.size), list[j] ≠ x) :
    list.toList.filter (· != x) = list.toList := by
  refine List.filter_eq_self.2 fun y hy => ?_
  obtain ⟨j, hj, rfl⟩ := List.getElem_of_mem hy
  simpa using h j (by simpa using hj)

/-- From an index on, with nothing to remove before it. -/
theorem perm_removeAll_from (x : α) (fuel : Nat) (list : Array α) (i : Nat) (hfuel : list.size ≤ fuel + i)
    (hbefore : ∀ j (hj : j < list.size), j < i → list[j] ≠ x) :
    (removeAll x fuel list i).toList.Perm (list.toList.filter (· != x)) := by
  fun_induction removeAll x fuel list i with
  | case1 list i => rw [filter_bne_eq_self fun j hj => hbefore j hj (by omega)]
  | case2 fuel list i hnone =>
    rw [Array.getElem?_eq_none_iff] at hnone
    rw [filter_bne_eq_self fun j hj => hbefore j hj (by omega)]
  | case3 fuel list i y hy hyx ih =>
    obtain ⟨hi, rfl⟩ := Array.getElem?_eq_some_iff.1 hy
    have hsize := size_removeAt hi
    refine (ih (by omega) fun j hj hji => ?_).trans ?_
    · rw [getElem_removeAt hji hi]
      exact hbefore j (by omega) hji
    · have hp := (Array.perm_iff_toList_perm.1 (perm_removeAt hi)).filter (· != x)
      rw [Array.toList_push, List.filter_append, List.filter_cons_of_neg (by simpa using hyx), List.filter_nil,
        List.append_nil] at hp
      exact hp
  | case4 fuel list i y hy hyx ih =>
    obtain ⟨hi, rfl⟩ := Array.getElem?_eq_some_iff.1 hy
    refine ih (by omega) fun j hj hji => ?_
    rcases Nat.lt_succ_iff_lt_or_eq.1 hji with h | rfl
    · exact hbefore j hj h
    · simpa using hyx

/-- **Removing all elements equal to a given one leaves the others.** -/
theorem perm_removeAll (x : α) (list : Array α) :
    (removeAll x list.size list 0).toList.Perm (list.toList.filter (· != x)) :=
  perm_removeAll_from x list.size list 0 (by omega) fun j _ hj => absurd hj (by omega)

/-- **Removing the first element equal to a given one takes one of them out.** -/
theorem perm_removeFirst (x : α) (list : Array α) : (removeFirst x list).toList.Perm (list.toList.erase x) := by
  unfold removeFirst
  split
  · rename_i i hi
    obtain ⟨hi, hx, _⟩ := Array.findIdx?_eq_some_iff_getElem.1 hi
    have hp := Array.perm_iff_toList_perm.1 (perm_removeAt hi)
    rw [Array.toList_push, eq_of_beq hx] at hp
    have := ((List.perm_append_singleton x _).symm.trans hp).erase x
    rwa [List.erase_cons_head] at this
  · rename_i hnone
    rw [Array.findIdx?_eq_none_iff] at hnone
    rw [List.erase_of_not_mem fun hx => by simpa using hnone x (by simpa using hx)]

end

/-! ## The lists of a literal -/

@[simp] theorem binaryOf_pushAtom (w : Watches) (l : Literal) : w.pushAtom.binaryOf l = w.binaryOf l := by
  simp only [binaryOf, pushAtom, Array.getD_eq_getD_getElem?, Array.getElem?_push]
  grind

@[simp] theorem longOf_pushAtom (w : Watches) (l : Literal) : w.pushAtom.longOf l = w.longOf l := by
  simp only [longOf, pushAtom, Array.getD_eq_getD_getElem?, Array.getElem?_push]
  grind

theorem longOf_watchLong (w : Watches) {l : Literal} (key : ClauseKey) (h : l.index < w.long.size) (m : Literal) :
    (w.watchLong l key).longOf m = if m = l then (w.longOf l).push key else w.longOf m := by
  simp only [longOf, watchLong, Array.getD_eq_getD_getElem?, Array.getElem?_modify, Literal.index_inj]
  grind

theorem longOf_unwatchLong (w : Watches) (l : Literal) (key : ClauseKey) (m : Literal) :
    (w.unwatchLong l key).longOf m =
      if m = l then removeAll key (w.longOf l).size (w.longOf l) 0 else w.longOf m := by
  simp only [longOf, unwatchLong, Array.getD_eq_getD_getElem?, Array.getElem?_modify, Literal.index_inj]
  by_cases h : m = l
  · subst h
    cases w.long[m.index]? <;> simp [removeAll]
  · rw [if_neg (Ne.symm h), if_neg h]

theorem longOf_takeLong (w : Watches) (l m : Literal) :
    (w.takeLong l).2.longOf m = if m = l then #[] else w.longOf m := by
  simp only [longOf, takeLong, Array.getD_eq_getD_getElem?, Array.getElem?_setIfInBounds, Literal.index_inj]
  grind

theorem longOf_restoreLong (w : Watches) {l : Literal} (list : Array ClauseKey) (h : l.index < w.long.size)
    (m : Literal) :
    (w.restoreLong l list).longOf m = if m = l then list ++ w.longOf l else w.longOf m := by
  simp only [longOf, restoreLong, Array.getD_eq_getD_getElem?, Array.getElem?_modify, Literal.index_inj]
  by_cases hm : m = l
  · subst hm
    rw [if_pos rfl, if_pos rfl, Array.getElem?_eq_getElem h]
    simp only [Option.map_some, Option.getD_some]
    split
    · rename_i he
      rw [Array.isEmpty_iff.1 he, Array.append_empty]
    · rfl
  · rw [if_neg (Ne.symm hm), if_neg hm]

@[simp] theorem knows_watchLong (w : Watches) (l m : Literal) (key : ClauseKey) :
    (w.watchLong l key).knows m = w.knows m := by
  rw [Bool.eq_iff_iff, knows_iff, knows_iff]
  simp [watchLong]

@[simp] theorem knows_unwatchLong (w : Watches) (l m : Literal) (key : ClauseKey) :
    (w.unwatchLong l key).knows m = w.knows m := by
  rw [Bool.eq_iff_iff, knows_iff, knows_iff]
  simp [unwatchLong]

theorem binaryOf_watchBinary (w : Watches) {a b : Literal} (ha : w.knows a = true) (hb : w.knows b = true)
    (hne : a ≠ b) (l : Literal) :
    (w.watchBinary a b).binaryOf l =
      if l = a then (w.binaryOf a).push b else if l = b then (w.binaryOf b).push a else w.binaryOf l := by
  have ha := (knows_iff.1 ha).1
  have hb := (knows_iff.1 hb).1
  simp only [binaryOf, watchBinary, Array.getD_eq_getD_getElem?, Array.getElem?_modify, Literal.index_inj]
  grind

end Watches
end Cdcl
