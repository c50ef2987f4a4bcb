import Cdcl.Subsumption
/-!
# Subsumption.Counts — what a tracker counts

A tracker that is told of each literal that comes to a list at its end, and of each that leaves it there, counts for each
registered clause the literals that are in the list (`Accords`).  That holds of clauses with a literal more than once, or with
its negation, and whatever the list is.  So no count is ever taken below zero (`Accords.unassigned`).
-/
namespace Cdcl

/-- How often the literals of a clause are in a list. -/
def Clause.heldBy (clause : Clause) (literals : List Literal) : Nat :=
  match clause with
  | [] => 0
  | l :: rest => literals.count l + Clause.heldBy rest literals

namespace Clause

variable {literals : List Literal}

theorem heldBy_cons (l : Literal) (rest : Clause) :
    Clause.heldBy (l :: rest) literals = literals.count l + rest.heldBy literals := rfl

theorem heldBy_concat (literals : List Literal) (l : Literal) :
    ∀ clause : Clause, clause.heldBy (literals ++ [l]) = clause.heldBy literals + clause.count l
  | [] => rfl
  | m :: rest => by
    rw [heldBy_cons, heldBy_cons, heldBy_concat literals l rest, List.count_append, List.count_singleton, List.count_cons,
      BEq.comm]
    omega

/-- In a list without repetition the literals of a clause are counted that are in it. -/
theorem heldBy_eq_countP (h : literals.Nodup) : ∀ clause : Clause, clause.heldBy literals = clause.countP (· ∈ literals)
  | [] => rfl
  | m :: rest => by
    rw [heldBy_cons, heldBy_eq_countP h rest, h.count, List.countP_cons]
    simp only [decide_eq_true_eq]
    omega

theorem heldBy_pos_iff : ∀ clause : Clause, 0 < clause.heldBy literals ↔ ∃ l ∈ clause, l ∈ literals
  | [] => by simp [heldBy]
  | m :: rest => by
    have hm : 0 < literals.count m ↔ m ∈ literals := List.count_pos_iff
    have ih := heldBy_pos_iff rest
    rw [heldBy_cons]
    simp only [List.mem_cons, exists_eq_or_imp, ← hm, ← ih]
    omega

end Clause

namespace SubsumptionTracker

variable {s t : SubsumptionTracker} {ns : List Nat} {i : Nat} {clauses : List Clause} {literals : List Literal} {l : Literal}

/-! ## Counts -/

/-- The counts of a tracker, and how many of them are above zero. -/
structure Counts (s : SubsumptionTracker) (ns : List Nat) : Prop where
  trueCounts : s.trueCounts.toList = ns
  subsumed : s.subsumed = ns.countP (0 < ·)

theorem countP_modify (p : Nat → Bool) (f : Nat → Nat) : ∀ {ns : List Nat} {i n : Nat}, ns[i]? = some n →
    (ns.modify i f).countP p + (if p n then 1 else 0) = ns.countP p + if p (f n) then 1 else 0
  | m :: ns, 0, n, h => by
    obtain rfl : m = n := by simpa using h
    simp only [List.modify_zero_cons, List.countP_cons]
    omega
  | m :: ns, i + 1, n, h => by
    have hn : ns[i]? = some n := by simpa using h
    have ih := countP_modify p f hn
    simp only [List.modify_succ_cons, List.countP_cons]
    omega

theorem Counts.congr {ms : List Nat} (h : s.Counts ns) (he : ∀ i : Nat, ms[i]? = ns[i]?) : s.Counts ms :=
  List.ext_getElem? he ▸ h

theorem Counts.getD_eq (h : s.Counts ns) {n : Nat} (hi : ns[i]? = some n) : s.trueCounts.getD i 0 = n := by
  rw [Array.getD_eq_getD_getElem?, ← Array.getElem?_toList, h.trueCounts, hi, Option.getD_some]

/-- **One literal more is counted.** -/
theorem Counts.gain (h : s.Counts ns) (hi : i < ns.length) : (s.gain i).Counts (ns.modify i (· + 1)) := by
  have hn := List.getElem?_eq_getElem hi
  have hcount := countP_modify (0 < ·) (· + 1) hn
  have hd := h.getD_eq hn
  refine ⟨by rw [SubsumptionTracker.gain, Array.toList_modify, h.trueCounts], ?_⟩
  simp only [SubsumptionTracker.gain, hd, h.subsumed]
  by_cases hz : ns[i] = 0
  · simp_all
  · have hpos : 0 < ns[i] := Nat.pos_of_ne_zero hz
    simp_all

/-- **A literal that was counted is counted no more.** -/
theorem Counts.lose (h : s.Counts ns) {n : Nat} (hi : ns[i]? = some (n + 1)) :
    ∃ t, s.lose? i = some t ∧ t.Counts (ns.modify i (· - 1)) ∧ t.occurrences = s.occurrences := by
  have hcount := countP_modify (0 < ·) (· - 1) hi
  have hd := h.getD_eq hi
  have hmem : n + 1 ∈ ns := List.mem_of_getElem? hi
  have hpos : 0 < ns.countP (0 < ·) := List.countP_pos_iff.2 ⟨n + 1, hmem, by simp⟩
  unfold lose?
  rw [hd]
  dsimp only
  rw [if_neg (Nat.succ_ne_zero n), if_neg (by rw [h.subsumed]; omega)]
  refine ⟨_, rfl, ⟨by rw [Array.toList_modify, h.trueCounts], ?_⟩, rfl⟩
  dsimp only
  rw [h.subsumed]
  simp only [Nat.zero_lt_succ, decide_true, if_true, Nat.add_sub_cancel] at hcount
  by_cases hz : n = 0
  · subst hz
    simp only [Nat.lt_irrefl, decide_false, if_false, Bool.false_eq_true] at hcount
    rw [if_pos rfl]
    omega
  · rw [if_neg (by omega)]
    simp only [Nat.pos_of_ne_zero hz, decide_true, if_true] at hcount
    omega

/-- **Literals that come are counted**, each for the clauses it is in. -/
theorem Counts.foldl_gain : ∀ (list : List Nat) {s : SubsumptionTracker} {ns : List Nat}, s.Counts ns →
    (∀ i ∈ list, i < ns.length) →
    (list.foldl SubsumptionTracker.gain s).Counts (ns.mapIdx fun i n => n + list.count i) ∧
      (list.foldl SubsumptionTracker.gain s).occurrences = s.occurrences
  | [], s, ns, h, _ => ⟨h.congr fun i => by simp, rfl⟩
  | i :: rest, s, ns, h, hlt => by
    obtain ⟨hcounts, hocc⟩ := Counts.foldl_gain rest (h.gain (hlt i List.mem_cons_self)) fun j hj => by
      simpa using hlt j (List.mem_cons_of_mem _ hj)
    refine ⟨hcounts.congr fun j => ?_, hocc⟩
    rw [List.getElem?_mapIdx, List.getElem?_mapIdx, List.getElem?_modify]
    cases ns[j]? with
    | none => rfl
    | some n =>
      by_cases hij : i = j
      · simp [hij]
        omega
      · simp [hij]

/-- **Literals that leave are counted no more**, each for the clauses it is in, if they were counted. -/
theorem Counts.foldlM_lose : ∀ (list : List Nat) {s : SubsumptionTracker} {ns : List Nat}, s.Counts ns →
    (∀ i ∈ list, ∃ n, ns[i]? = some n ∧ list.count i ≤ n) →
    ∃ t, list.foldlM lose? s = some t ∧ t.Counts (ns.mapIdx fun i n => n - list.count i) ∧
      t.occurrences = s.occurrences
  | [], s, ns, h, _ => ⟨s, rfl, h.congr fun i => by simp, rfl⟩
  | i :: rest, s, ns, h, hle => by
    obtain ⟨n, hn, hcount⟩ := hle i List.mem_cons_self
    rw [List.count_cons_self] at hcount
    obtain ⟨m, rfl⟩ : ∃ m, n = m + 1 := ⟨n - 1, by omega⟩
    obtain ⟨t, ht, hcounts, hocc⟩ := h.lose hn
    obtain ⟨u, hu, hcounts', hocc'⟩ := Counts.foldlM_lose rest hcounts fun j hj => by
      obtain ⟨k, hk, hkc⟩ := hle j (List.mem_cons_of_mem _ hj)
      rw [List.getElem?_modify, hk]
      by_cases hij : i = j
      · subst hij
        rw [List.count_cons_self] at hkc
        exact ⟨k - 1, by simp, by omega⟩
      · rw [List.count_cons_of_ne hij] at hkc
        exact ⟨k, by simp [hij], hkc⟩
    refine ⟨u, by rw [List.foldlM_cons, ht]; exact hu, hcounts'.congr fun j => ?_, hocc'.trans hocc⟩
    rw [List.getElem?_mapIdx, List.getElem?_mapIdx, List.getElem?_modify]
    cases ns[j]? with
    | none => rfl
    | some n =>
      by_cases hij : i = j
      · simp [hij]
        omega
      · simp [hij]

/-! ## What a tracker accords with -/

/-- A tracker counts, for each clause registered with it, the literals that are in a list, and knows which clauses each literal
is in. -/
structure Accords (s : SubsumptionTracker) (clauses : List Clause) (literals : List Literal) : Prop
    extends s.Counts (clauses.map (·.heldBy literals)) where
  occurrences : ∀ (l : Literal) (i : Nat),
    (s.occurrences.getD l.index #[]).toList.count i = ((clauses[i]?).getD []).count l

theorem accords_nil (literals : List Literal) : ({} : SubsumptionTracker).Accords [] literals :=
  ⟨⟨rfl, rfl⟩, fun l i => by simp⟩

theorem Accords.size_trueCounts (h : s.Accords clauses literals) : s.trueCounts.size = clauses.length := by
  rw [← Array.length_toList, h.trueCounts, List.length_map]

theorem Accords.exists_clause (h : s.Accords clauses literals) (hi : i ∈ (s.occurrences.getD l.index #[]).toList) :
    ∃ clause, clauses[i]? = some clause ∧ (s.occurrences.getD l.index #[]).toList.count i = clause.count l := by
  have hpos := List.count_pos_iff.2 hi
  rw [h.occurrences] at hpos ⊢
  cases hc : clauses[i]? with
  | none => simp [hc] at hpos
  | some clause => exact ⟨clause, rfl, rfl⟩

/-- **A tracker that is told of a literal at the end of a list accords with the longer list.** -/
theorem Accords.assigned (h : s.Accords clauses literals) (l : Literal) :
    (s.assigned l).Accords clauses (literals ++ [l]) := by
  have hlt : ∀ i ∈ (s.occurrences.getD l.index #[]).toList, i < (clauses.map (·.heldBy literals)).length := fun i hi => by
    obtain ⟨clause, hclause, -⟩ := h.exists_clause hi
    rw [List.length_map]
    exact (List.getElem?_eq_some_iff.1 hclause).1
  obtain ⟨hcounts, hocc⟩ := h.toCounts.foldl_gain _ hlt
  unfold SubsumptionTracker.assigned
  rw [← Array.foldl_toList]
  refine ⟨hcounts.congr fun i => ?_, fun m i => ?_⟩
  · rw [List.getElem?_mapIdx, List.getElem?_map, List.getElem?_map, h.occurrences]
    cases clauses[i]? with
    | none => rfl
    | some clause => simp [Clause.heldBy_concat]
  · rw [hocc, h.occurrences]

/-- **A tracker may be told that the last literal of a list has left it**, and accords with the shorter list. -/
theorem Accords.unassigned (h : s.Accords clauses (literals ++ [l])) :
    ∃ t, s.unassigned? l = some t ∧ t.Accords clauses literals := by
  obtain ⟨t, ht, hcounts, hocc⟩ := h.toCounts.foldlM_lose (s.occurrences.getD l.index #[]).toList fun i hi => by
    obtain ⟨clause, hclause, hcount⟩ := h.exists_clause hi
    refine ⟨clause.heldBy (literals ++ [l]), by rw [List.getElem?_map, hclause]; rfl, ?_⟩
    rw [hcount, Clause.heldBy_concat]
    exact Nat.le_add_left ..
  refine ⟨t, by unfold unassigned?; rw [← Array.foldlM_toList]; exact ht, hcounts.congr fun i => ?_, fun m i => ?_⟩
  · rw [List.getElem?_mapIdx, List.getElem?_map, List.getElem?_map, h.occurrences]
    cases clauses[i]? with
    | none => rfl
    | some clause => simp [Clause.heldBy_concat]
  · rw [hocc, h.occurrences]

/-! ## Registering -/

theorem getD_cover (occurrences : Array (Array Nat)) (l : Literal) (i : Nat) :
    (cover occurrences l).getD i #[] = occurrences.getD i #[] := by
  unfold cover
  rw [Array.getD_eq_getD_getElem?, Array.getD_eq_getD_getElem?, Array.getElem?_append]
  split
  · rfl
  · rename_i hge
    have hnone : occurrences[i]? = none := Array.getElem?_eq_none (Nat.le_of_not_lt hge)
    rw [hnone, Array.getElem?_replicate]
    split <;> rfl

theorem count_note (occurrences : Array (Array Nat)) (l m : Literal) (index i : Nat) :
    (((cover occurrences l).modify l.index (·.push index)).getD m.index #[]).toList.count i =
      (occurrences.getD m.index #[]).toList.count i + if l = m ∧ i = index then 1 else 0 := by
  rw [← getD_cover occurrences l m.index, Array.getD_eq_getD_getElem?, Array.getD_eq_getD_getElem?, Array.getElem?_modify]
  by_cases hlm : l = m
  · subst hlm
    have hlt : l.index < (cover occurrences l).size := by
      unfold cover
      rw [Array.size_append, Array.size_replicate]
      omega
    rw [if_pos rfl, Array.getElem?_eq_getElem hlt]
    by_cases hi : i = index
    · simp [hi]
    · simp [hi, Ne.symm hi]
  · have hne : ¬l.index = m.index := fun he => hlm (Literal.index_inj.1 he)
    simp [hlm, hne]

theorem count_noteAll (index i : Nat) (m : Literal) : ∀ (clause : Clause) (occurrences : Array (Array Nat)),
    ((clause.foldl (fun o l => (cover o l).modify l.index (·.push index)) occurrences).getD m.index #[]).toList.count i =
      (occurrences.getD m.index #[]).toList.count i + if i = index then clause.count m else 0
  | [], occurrences => by simp
  | l :: rest, occurrences => by
    rw [List.foldl_cons, count_noteAll index i m rest, count_note, List.count_cons]
    by_cases hi : i = index <;> by_cases hl : l = m <;> simp [hi, hl]
    omega

/-- **A clause that is registered with the values of the literals is counted with the others.** -/
theorem Accords.register (h : s.Accords clauses literals) (hnodup : literals.Nodup) {value : Nat → Option Bool}
    (hvalue : ∀ l : Literal, value l.atom = some l.positive ↔ l ∈ literals) (clause : Clause) :
    (s.register clause value).2.Accords (clauses ++ [clause]) literals := by
  have hcount : (clause.countP fun l => value l.atom == some l.positive) = clause.heldBy literals := by
    rw [Clause.heldBy_eq_countP hnodup]
    apply List.countP_congr
    intro l _
    simp [hvalue]
  unfold SubsumptionTracker.register
  dsimp only
  rw [hcount]
  refine ⟨⟨?_, ?_⟩, fun m i => ?_⟩
  · rw [Array.toList_push, h.trueCounts, List.map_append, List.map_singleton]
  · rw [h.subsumed, List.map_append, List.countP_append, List.map_singleton, List.countP_singleton]
    split <;> simp_all
  · rw [count_noteAll, h.occurrences, h.size_trueCounts]
    rcases Nat.lt_trichotomy i clauses.length with hi | rfl | hi
    · rw [List.getElem?_append_left hi, if_neg (Nat.ne_of_lt hi), Nat.add_zero]
    · simp
    · simp [List.getElem?_eq_none (Nat.le_of_lt hi), Nat.ne_of_gt hi, List.getElem?_append_right (Nat.le_of_lt hi),
        Nat.sub_ne_zero_of_lt hi]

/-! ## What a tracker tells -/

/-- **The clauses a tracker tells of are those with a literal in the list.** -/
theorem Accords.subsumedClauses_eq (h : s.Accords clauses literals) : s.subsumedClauses =
    (List.range clauses.length).filter fun i => (clauses[i]?).any fun clause => clause.any (· ∈ literals) := by
  unfold subsumedClauses isSubsumed
  rw [h.size_trueCounts]
  apply List.filter_congr
  intro i hi
  have hc := List.getElem?_eq_getElem (List.mem_range.1 hi)
  rw [h.getD_eq (by rw [List.getElem?_map, hc]; rfl), hc]
  rw [Bool.eq_iff_iff, decide_eq_true_iff, Clause.heldBy_pos_iff]
  simp

/-- **A tracker tells how many clauses it tells of.** -/
theorem Counts.subsumed_eq (h : s.Counts ns) : s.subsumed = s.subsumedClauses.length := by
  have hns : ns = (List.range s.trueCounts.size).map fun i => s.trueCounts.getD i 0 := by
    apply List.ext_getElem?
    intro i
    rw [List.getElem?_map, ← h.trueCounts, Array.getElem?_toList]
    by_cases hi : i < s.trueCounts.size
    · simp [hi]
    · simp [hi]
  rw [h.subsumed, hns, List.countP_map, List.countP_eq_length_filter]
  rfl

end SubsumptionTracker
end Cdcl
