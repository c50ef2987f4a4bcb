import Cdcl.Trail
/-!
# TrailLevels — the levels of a trail as prefixes of it

The starts of the levels ascend, so the literals of the levels up to a given one are a prefix of the trail (`upTo`), and
an index of the trail lies in a level up to a given one exactly if it is an index of that prefix (`levelAt_le_iff`).
A literal pushed, a level opened and levels cut off are described by what they do to these prefixes: a push adds to the
current level alone, and a cut keeps the levels that are left as they were.
-/
namespace Cdcl
namespace Trail

/-- The literals before an index. -/
def before (t : Trail) (i : Nat) : List Literal := t.literals.toList.take i

/-- The literals of the levels up to a given one. -/
def upTo (t : Trail) (k : Nat) : List Literal := t.before (t.start (k + 1))

/-- The level an index lies in. -/
def levelAt (t : Trail) (i : Nat) : Nat := t.starts.toList.countP (· ≤ i)

/-- The starts ascend within the trail, and so does the head. -/
structure Layered (t : Trail) : Prop where
  sorted : t.starts.toList.Pairwise (· ≤ ·)
  bounded : ∀ i ∈ t.starts.toList, i ≤ t.size
  head : t.head ≤ t.size

theorem layered_empty : ({} : Trail).Layered := ⟨.nil, by simp, Nat.le_refl _⟩

/-! ## Literals before an index -/

theorem mem_before {t : Trail} {i : Nat} {l : Literal} : l ∈ t.before i ↔ ∃ j < i, t.literals[j]? = some l := by
  simp only [before, List.mem_take_iff_getElem, ← Array.getElem?_toList, List.getElem?_eq_some_iff]
  constructor
  · rintro ⟨j, hj, rfl⟩
    exact ⟨j, by omega, by omega, rfl⟩
  · rintro ⟨j, hj, hlt, rfl⟩
    exact ⟨j, by omega, rfl⟩

theorem eq_or_mem_before {t : Trail} {i : Nat} {l m : Literal} (hi : t.literals[i]? = some l)
    (hm : m ∈ t.before (i + 1)) : m = l ∨ m ∈ t.before i := by
  obtain ⟨j, hj, hjm⟩ := mem_before.1 hm
  rcases Nat.lt_succ_iff_lt_or_eq.1 hj with hj | rfl
  · exact .inr (mem_before.2 ⟨j, hj, hjm⟩)
  · exact .inl (Option.some.inj (hjm.symm.trans hi))

theorem before_initial {t : Trail} {i j : Nat} (h : i ≤ j) : t.before i <+: t.before j := List.take_prefix_take_left h

theorem before_subset {t : Trail} {i j : Nat} (h : i ≤ j) : t.before i ⊆ t.before j := (before_initial h).subset

theorem before_of_size_le {t : Trail} {i : Nat} (h : t.size ≤ i) : t.before i = t.literals.toList :=
  List.take_of_length_le (by simpa [size] using h)

theorem before_sublist {t : Trail} {i : Nat} : t.before i ⊆ t.literals.toList := List.take_subset ..

theorem mem_of_getElem? {t : Trail} {i : Nat} {l : Literal} (h : t.literals[i]? = some l) :
    l ∈ t.literals.toList := Array.mem_toList_iff.2 (Array.mem_of_getElem? h)

theorem lt_size_of_getElem? {t : Trail} {i : Nat} {l : Literal} (h : t.literals[i]? = some l) : i < t.size :=
  (Array.getElem?_eq_some_iff.1 h).1

theorem mem_literals {t : Trail} {l : Literal} : l ∈ t.literals.toList ↔ ∃ i : Nat, t.literals[i]? = some l := by
  rw [Array.mem_toList_iff, Array.mem_iff_getElem?]

/-! ## Starts -/

theorem start_succ (t : Trail) (k : Nat) : t.start (k + 1) = (t.starts.toList[k]?).getD t.size := by
  simp [start, size, Array.getD_eq_getD_getElem?]

theorem Layered.start_le_size {t : Trail} (h : t.Layered) (k : Nat) : t.start k ≤ t.size := by
  cases k with
  | zero => exact Nat.zero_le _
  | succ k =>
    rw [start_succ]
    cases hk : t.starts.toList[k]? with
    | none => exact Nat.le_refl _
    | some s => exact h.bounded s (List.mem_of_getElem? hk)

theorem Layered.start_mono {t : Trail} (h : t.Layered) {a b : Nat} (hab : a ≤ b) : t.start a ≤ t.start b := by
  rcases Nat.eq_or_lt_of_le hab with rfl | hlt
  · exact Nat.le_refl _
  cases a with
  | zero => exact Nat.zero_le _
  | succ a =>
    obtain ⟨b, rfl⟩ : ∃ c, b = c + 1 := ⟨b - 1, by omega⟩
    have hb := h.start_le_size (b + 1)
    rw [start_succ, start_succ] at *
    cases hkb : t.starts.toList[b]? with
    | none =>
      rw [Option.getD_none]
      cases hka : t.starts.toList[a]? with
      | none => exact Nat.le_refl _
      | some s => exact h.bounded s (List.mem_of_getElem? hka)
    | some s =>
      obtain ⟨hbl, hbs⟩ := List.getElem?_eq_some_iff.1 hkb
      rw [List.getElem?_eq_getElem (by omega), ← hbs]
      exact List.pairwise_iff_getElem.1 h.sorted a b (by omega) hbl (by omega)

/-- Counting the numbers of an ascending list up to a bound finds the first number past it. -/
theorem countP_le_iff_of_sorted : ∀ {ss : List Nat}, ss.Pairwise (· ≤ ·) → ∀ (i k : Nat),
    ss.countP (· ≤ i) ≤ k ↔ ∀ s, ss[k]? = some s → i < s
  | [], _, i, k => by simp
  | a :: ss, h, i, k => by
    by_cases ha : a ≤ i
    · rw [List.countP_cons_of_pos (by simpa using ha)]
      cases k with
      | zero =>
        constructor
        · intro hc
          omega
        · intro hc
          have := hc a rfl
          omega
      | succ k => simpa using countP_le_iff_of_sorted h.of_cons i k
    · have hall : ∀ s ∈ a :: ss, i < s := fun s hs => by
        rcases List.mem_cons.1 hs with rfl | hs
        · omega
        · have := List.rel_of_pairwise_cons h hs
          omega
      have hzero : (a :: ss).countP (· ≤ i) = 0 := List.countP_eq_zero.2 fun s hs => by
        have := hall s hs
        simp
        omega
      rw [hzero]
      exact ⟨fun _ s hs => hall s (List.mem_of_getElem? hs), fun _ => Nat.zero_le _⟩

/-- **An index lies in the levels up to a given one exactly if it comes before the next level starts.** -/
theorem Layered.levelAt_le_iff {t : Trail} (h : t.Layered) {i k : Nat} (hi : i < t.size) :
    t.levelAt i ≤ k ↔ i < t.start (k + 1) := by
  rw [levelAt, countP_le_iff_of_sorted h.sorted, start_succ]
  cases t.starts.toList[k]? with
  | none => simpa using hi
  | some s => simp

theorem levelAt_mono {t : Trail} {i j : Nat} (h : i ≤ j) : t.levelAt i ≤ t.levelAt j :=
  List.countP_mono_left fun s _ hs => by
    simp only [decide_eq_true_eq] at hs ⊢
    omega

theorem countP_lt_of_mem : ∀ {ss : List Nat} {i j : Nat}, j < i → i ∈ ss → ss.countP (· ≤ j) < ss.countP (· ≤ i)
  | s :: ss, i, j, hj, hi => by
    have hle : ss.countP (· ≤ j) ≤ ss.countP (· ≤ i) := List.countP_mono_left fun s _ hs => by
      simp only [decide_eq_true_eq] at hs ⊢
      omega
    rw [List.countP_cons, List.countP_cons]
    rcases List.mem_cons.1 hi with rfl | hi
    · rw [if_neg (by simpa using hj), if_pos (by simp)]
      omega
    · have := countP_lt_of_mem hj hi
      split
      · rename_i hs
        rw [if_pos (by simp only [decide_eq_true_eq] at hs ⊢; omega)]
        omega
      · omega

theorem levelAt_lt_of_mem_starts {t : Trail} {i j : Nat} (hj : j < i) (hi : i ∈ t.starts.toList) :
    t.levelAt j < t.levelAt i := countP_lt_of_mem hj hi

theorem levelAt_le_level (t : Trail) (i : Nat) : t.levelAt i ≤ t.level := by
  have := List.countP_le_length (p := fun x => decide (x ≤ i)) (l := t.starts.toList)
  simpa [levelAt, level] using this

theorem Layered.levelAt_size {t : Trail} (h : t.Layered) : t.levelAt t.size = t.level := by
  rw [levelAt, List.countP_eq_length.2 fun s hs => by simpa using h.bounded s hs]
  simp [level]

theorem Layered.start_levelAt_of_mem {t : Trail} (h : t.Layered) {i : Nat} (hi : i ∈ t.starts.toList) :
    t.start (t.levelAt i) = i := by
  obtain ⟨j, hj, hij⟩ := List.getElem_of_mem hi
  have hstart : t.start (j + 1) = i := by rw [start_succ, List.getElem?_eq_getElem hj, Option.getD_some, hij]
  obtain ⟨n, hn⟩ : ∃ n, t.levelAt i = n + 1 := by
    have : 0 < t.levelAt i := List.countP_pos_iff.2 ⟨i, hi, by simp⟩
    exact ⟨t.levelAt i - 1, by omega⟩
  rw [hn]
  refine Nat.le_antisymm ?_ ?_
  · -- the level the place lies in does not start past it
    refine Nat.le_of_not_lt fun hlt => ?_
    have hle : t.levelAt i ≤ n := (countP_le_iff_of_sorted h.sorted i n).2 fun s hs => by
      rwa [start_succ, hs, Option.getD_some] at hlt
    omega
  · refine Nat.le_of_not_lt fun hlt => ?_
    -- the next level would not start past it either
    have hjn : n + 1 ≤ j := Nat.le_of_not_lt fun hjn => by
      have := h.start_mono (show j + 1 ≤ n + 1 by omega)
      omega
    have hnext := (countP_le_iff_of_sorted h.sorted i (n + 1)).1 (Nat.le_of_eq hn) _
      (List.getElem?_eq_getElem (show n + 1 < t.starts.toList.length by omega))
    have hle := h.start_mono (show n + 2 ≤ j + 1 by omega)
    rw [start_succ, List.getElem?_eq_getElem (show n + 1 < t.starts.toList.length by omega), Option.getD_some] at hle
    omega

/-! ## Levels as prefixes -/

theorem upTo_subset_literals {t : Trail} {k : Nat} : t.upTo k ⊆ t.literals.toList := before_sublist

theorem upTo_of_level_le {t : Trail} {k : Nat} (h : t.level ≤ k) : t.upTo k = t.literals.toList := by
  rw [upTo, start_of_level_lt (by omega), before_of_size_le (Nat.le_refl _)]

theorem Layered.upTo_subset {t : Trail} (h : t.Layered) {j k : Nat} (hle : j ≤ k) : t.upTo j ⊆ t.upTo k :=
  before_subset (h.start_mono (Nat.succ_le_succ hle))

theorem Layered.mem_upTo_iff {t : Trail} (h : t.Layered) {k : Nat} {l : Literal} :
    l ∈ t.upTo k ↔ ∃ i, t.literals[i]? = some l ∧ t.levelAt i ≤ k := by
  rw [upTo, mem_before]
  constructor
  · rintro ⟨i, hi, hl⟩
    exact ⟨i, hl, (h.levelAt_le_iff (lt_size_of_getElem? hl)).2 hi⟩
  · rintro ⟨i, hl, hi⟩
    exact ⟨i, (h.levelAt_le_iff (lt_size_of_getElem? hl)).1 hi, hl⟩

/-! ## A literal pushed -/

theorem literals_push (t : Trail) (l : Literal) : (t.push l).literals.toList = t.literals.toList ++ [l] := by
  simp [push]

theorem getElem?_push_eq_some_iff {t : Trail} {l m : Literal} {i : Nat} :
    (t.push l).literals[i]? = some m ↔ t.literals[i]? = some m ∨ i = t.size ∧ m = l := by
  unfold push size
  rw [Array.getElem?_push]
  split
  · rename_i hi
    rw [hi, Array.getElem?_eq_none (Nat.le_refl _)]
    simp [eq_comm]
  · rename_i hi
    simp [hi]

theorem layered_push {t : Trail} (h : t.Layered) (l : Literal) : (t.push l).Layered := by
  refine ⟨h.sorted, fun i hi => ?_, ?_⟩
  · have := h.bounded i hi
    rw [size_push]
    omega
  · have := h.head
    rw [size_push]
    show t.head ≤ _
    omega

@[simp] theorem levelAt_push (t : Trail) (l : Literal) (i : Nat) : (t.push l).levelAt i = t.levelAt i := rfl

theorem before_push_of_le {t : Trail} {i : Nat} (h : i ≤ t.size) (l : Literal) : (t.push l).before i = t.before i := by
  unfold before
  rw [literals_push, List.take_append_of_le_length (by simpa [size] using h)]

theorem start_push_of_le {t : Trail} {k : Nat} (h : k ≤ t.level) (l : Literal) : (t.push l).start k = t.start k := by
  cases k with
  | zero => rfl
  | succ k =>
    rw [start_succ, start_succ]
    unfold level at h
    show (t.starts.toList[k]?).getD _ = _
    rw [List.getElem?_eq_getElem (by rw [Array.length_toList]; omega)]
    rfl

theorem Layered.upTo_push_of_lt {t : Trail} (h : t.Layered) {k : Nat} (hk : k < t.level) (l : Literal) :
    (t.push l).upTo k = t.upTo k := by
  rw [upTo, start_push_of_le hk, before_push_of_le (h.start_le_size _), upTo]

/-! ## A level opened -/

theorem layered_newLevel {t : Trail} (h : t.Layered) : t.newLevel.Layered := by
  refine ⟨?_, fun i hi => ?_, h.head⟩
  · simp only [newLevel, Array.toList_push, List.pairwise_append, List.pairwise_singleton, List.mem_singleton]
    refine ⟨h.sorted, trivial, fun i hi j hj => ?_⟩
    rw [hj]
    exact h.bounded i hi
  · simp only [newLevel, Array.toList_push, List.mem_append, List.mem_singleton] at hi
    rcases hi with hi | rfl
    · exact h.bounded i hi
    · exact Nat.le_refl _

theorem levelAt_newLevel_of_lt {t : Trail} {i : Nat} (h : i < t.size) : t.newLevel.levelAt i = t.levelAt i := by
  unfold size at h
  simp only [levelAt, newLevel, Array.toList_push, List.countP_append, List.countP_singleton]
  rw [if_neg (by simpa using h)]
  rfl

theorem upTo_newLevel_of_le {t : Trail} {k : Nat} (h : k ≤ t.level) : t.newLevel.upTo k = t.upTo k := by
  rcases Nat.eq_or_lt_of_le h with rfl | hlt
  · have hs := t.start_newLevel
    rw [level_newLevel] at hs
    rw [upTo_of_level_le (Nat.le_refl _), upTo, hs]
    exact before_of_size_le (Nat.le_refl _)
  · rw [upTo, start_newLevel_of_le (by omega), upTo]
    rfl

/-! ## Levels cut off -/

theorem getElem?_cut {t : Trail} {k i : Nat} :
    (t.cut k).literals[i]? = if i < t.start (k + 1) then t.literals[i]? else none := by
  rw [← Array.getElem?_toList, literals_cut, List.getElem?_take, Array.getElem?_toList]

theorem Layered.size_cut {t : Trail} (h : t.Layered) (k : Nat) : (t.cut k).size = t.start (k + 1) := by
  have := h.start_le_size (k + 1)
  have hl := congrArg List.length (literals_cut t k)
  rw [List.length_take, Array.length_toList, Array.length_toList] at hl
  unfold size at *
  omega

theorem starts_cut (t : Trail) (k : Nat) : (t.cut k).starts.toList = t.starts.toList.take k := by simp [cut]

theorem Layered.start_le_of_mem_drop {t : Trail} (h : t.Layered) {k s : Nat} (hs : s ∈ t.starts.toList.drop k) :
    t.start (k + 1) ≤ s := by
  obtain ⟨j, hj, rfl⟩ := List.getElem_of_mem hs
  rw [List.length_drop] at hj
  rw [List.getElem_drop, start_succ, List.getElem?_eq_getElem (by omega), Option.getD_some]
  rcases Nat.eq_zero_or_pos j with rfl | hpos
  · exact Nat.le_refl _
  · exact List.pairwise_iff_getElem.1 h.sorted k (k + j) (by omega) (by omega) (by omega)

theorem Layered.le_start_of_mem_take {t : Trail} (h : t.Layered) {k s : Nat} (hs : s ∈ t.starts.toList.take k) :
    s ≤ t.start (k + 1) := by
  obtain ⟨j, hj, rfl⟩ := List.getElem_of_mem hs
  rw [List.length_take] at hj
  have := h.start_mono (show j + 1 ≤ k + 1 by omega)
  rw [start_succ, List.getElem?_eq_getElem (by omega), Option.getD_some] at this
  rwa [List.getElem_take]

theorem Layered.start_cut_of_le {t : Trail} (h : t.Layered) {k j : Nat} (hj : j ≤ k) :
    (t.cut k).start (j + 1) = t.start (j + 1) := by
  rw [start_succ (t.cut k), starts_cut, List.getElem?_take, h.size_cut]
  split
  · cases hs : t.starts.toList[j]? with
    | some s =>
      rw [start_succ t j, hs]
      rfl
    | none =>
      have hle := h.start_mono (show j + 1 ≤ k + 1 by omega)
      have := h.start_le_size (k + 1)
      have hj := start_succ t j
      rw [hs, Option.getD_none] at hj
      rw [Option.getD_none]
      omega
  · obtain rfl : j = k := by omega
    rfl

theorem before_cut (t : Trail) (k : Nat) {i : Nat} (hi : i ≤ t.start (k + 1)) :
    (t.cut k).before i = t.before i := by
  unfold before
  rw [literals_cut, List.take_take, Nat.min_eq_left hi]

/-- **A cut keeps the levels that are left.** -/
theorem Layered.upTo_cut_of_le {t : Trail} (h : t.Layered) {k j : Nat} (hj : j ≤ k) : (t.cut k).upTo j = t.upTo j := by
  rw [upTo, h.start_cut_of_le hj, before_cut t k (h.start_mono (by omega)), upTo]

theorem literals_cut_eq_upTo (t : Trail) (k : Nat) : (t.cut k).literals.toList = t.upTo k := literals_cut t k

theorem Layered.mem_starts_cut {t : Trail} (h : t.Layered) {k i : Nat} (hi : i ∈ t.starts.toList)
    (hlt : i < t.start (k + 1)) : i ∈ (t.cut k).starts.toList := by
  rw [starts_cut]
  rw [← List.take_append_drop k t.starts.toList, List.mem_append] at hi
  refine hi.resolve_right fun hd => ?_
  have := h.start_le_of_mem_drop hd
  omega

theorem Layered.levelAt_cut {t : Trail} (h : t.Layered) {k i : Nat} (hi : i < t.start (k + 1)) :
    (t.cut k).levelAt i = t.levelAt i := by
  have hsplit := congrArg (List.countP (· ≤ i)) (List.take_append_drop k t.starts.toList)
  have hzero : (t.starts.toList.drop k).countP (· ≤ i) = 0 := List.countP_eq_zero.2 fun s hs => by
    have := h.start_le_of_mem_drop hs
    simp only [decide_eq_true_eq]
    omega
  rw [List.countP_append, hzero, Nat.add_zero] at hsplit
  unfold levelAt
  rw [starts_cut, hsplit]

theorem layered_cut {t : Trail} (h : t.Layered) (k : Nat) : (t.cut k).Layered where
  sorted := by
    rw [starts_cut]
    exact h.sorted.sublist (List.take_sublist ..)
  bounded i hi := by
    rw [starts_cut] at hi
    rw [h.size_cut]
    exact h.le_start_of_mem_take hi
  head := Nat.le_refl _

end Trail
end Cdcl
