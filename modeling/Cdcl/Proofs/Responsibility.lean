import Cdcl.Proofs.Visits
/-!
# Responsibility — the assumptions that literals go back to

Literals go back to the literals of the reasons of their atoms, and these to those of theirs, above level zero
(`Involved`).  What an atom is involved by stands after it on the trail.  So the trail is walked back once, with one mark
for each atom: where the walk comes to a literal, all that could have marked its atom has been passed, and it is marked
exactly if it is involved (`involved_iff_implicated`).  The literals without a reason among these are noted on the way
(`answers_failedFor_responsible`).  A unit learnt above level zero stands within the walk, but has level zero and is not
marked.
-/
namespace Cdcl

namespace Trail

variable {t : Trail} {i : Nat} {l : Literal}

theorem above_of_getElem? (h : t.literals[i]? = some l) : t.above i = t.above (i + 1) ++ [l] := by
  obtain ⟨hi, he⟩ := List.getElem?_eq_some_iff.1 (Array.getElem?_toList.trans h)
  rw [above_eq, above_eq, List.drop_eq_getElem_cons hi, he, List.reverse_cons]

theorem mem_above : l ∈ t.above i ↔ ∃ j, i ≤ j ∧ t.literals[j]? = some l := by
  rw [above_eq, List.mem_reverse, List.mem_drop_iff_getElem]
  constructor
  · rintro ⟨j, hj, rfl⟩
    exact ⟨i + j, Nat.le_add_right i j, by rw [← Array.getElem?_toList, List.getElem?_eq_getElem]⟩
  · rintro ⟨j, hij, hj⟩
    obtain ⟨hlt, he⟩ := List.getElem?_eq_some_iff.1 (Array.getElem?_toList.trans hj)
    exact ⟨j - i, by omega, by simpa [Nat.add_sub_cancel' hij] using he⟩

end Trail

namespace Context

open Solver (marked)

/-- The atoms of level above zero that some literals go back to. -/
inductive Involved (c : Context) (literals : Clause) : Nat → Prop
  | given {m : Literal} (hm : m ∈ literals) (hl : 0 < c.atoms.levelOrZero m.atom) : Involved c literals m.atom
  | reason {a : Nat} {m : Literal} (h : Involved c literals a) (hm : c.Antecedent a m)
    (hl : 0 < c.atoms.levelOrZero m.atom) : Involved c literals m.atom

/-- The negations of the literals that some literals go back to and that are true for no reason, above level zero.  Each
is there once, the last of the trail first. -/
structure Responsible (c : Context) (literals failed : Clause) : Prop where
  nodup : failed.Nodup
  ordered : (failed.map Literal.negate).Sublist c.trail.literals.toList.reverse
  mem_iff : ∀ l, l ∈ failed ↔ c.Assumed l ∧ c.Involved literals l.atom

/-- The atoms of level above zero that are given, or in the reason of an atom involved from an index on. -/
def Implicated (c : Context) (literals : Clause) (index : Nat) (a : Nat) : Prop :=
  0 < c.atoms.levelOrZero a ∧ (a ∈ literals.map Literal.atom ∨
    ∃ q ∈ c.trail.above index, c.Involved literals q.atom ∧ ∃ m, c.Antecedent q.atom m ∧ m.atom = a)

variable {f : Formula} {c d e : Context} {literals failed needs : Clause} {index a : Nat}
  {p : Literal}

theorem Involved.level_pos (h : c.Involved literals a) : 0 < c.atoms.levelOrZero a := by
  cases h with
  | given _ hl => exact hl
  | reason _ _ hl => exact hl

/-- **All that involves an atom stands after it.** -/
theorem involved_iff_implicated (ht : Traceable f c) (hp : c.trail.literals[index]? = some p) :
    c.Involved literals p.atom ↔ c.Implicated literals (index + 1) p.atom := by
  constructor
  · intro h
    refine ⟨h.level_pos, ?_⟩
    generalize ha : p.atom = a at h
    cases h with
    | given hm _ => exact .inl (List.mem_map_of_mem hm)
    | @reason b m h hm _ =>
      obtain ⟨q, hq, rfl⟩ := ht.placed b h.level_pos
      obtain ⟨j, hj⟩ := Trail.mem_literals.1 hq
      have hbefore := ht.trailed.antecedent_before hj hm
      have hmp : m.negate = p := ht.trailed.eq_of_atom (Trail.before_sublist hbefore) (Trail.mem_of_getElem? hp)
        ((Literal.atom_negate m).trans ha.symm)
      obtain ⟨i, hij, hi⟩ := Trail.mem_before.1 (hmp ▸ hbefore)
      have hlt : index < j := ht.trailed.index_inj hp hi ▸ hij
      exact .inr ⟨q, Trail.mem_above.2 ⟨j, hlt, hj⟩, h, m, hm, rfl⟩
  · rintro ⟨hl, hgiven | ⟨q, -, hq, m, hm, he⟩⟩
    · obtain ⟨m, hm, he⟩ := List.mem_map.1 hgiven
      rw [← he] at hl ⊢
      exact .given hm hl
    · rw [← he] at hl ⊢
      exact .reason hq hm hl

/-- A step back adds the reason of the literal passed, if its atom is involved. -/
theorem implicated_iff (hp : c.trail.literals[index]? = some p) : c.Implicated literals index a ↔
    c.Implicated literals (index + 1) a ∨
      0 < c.atoms.levelOrZero a ∧ c.Involved literals p.atom ∧ ∃ m, c.Antecedent p.atom m ∧ m.atom = a := by
  unfold Implicated
  rw [Trail.above_of_getElem? hp]
  simp only [List.mem_append, List.mem_singleton, or_and_right, exists_or, exists_eq_left]
  rw [← and_or_left, or_assoc]

/-- What is known while the trail is walked back from an index. -/
structure Collecting (c : Context) (literals : Clause) (index : Nat) (failed : Clause) (d : Context) : Prop where
  working : Working c d
  marks : ∀ a, marked d a = true ↔ (∃ q ∈ c.trail.before index, q.atom = a) ∧ c.Implicated literals index a
  ordered : (failed.map Literal.negate).Sublist (c.trail.above index)
  mem_iff : ∀ l, l ∈ failed ↔ l.negate ∈ c.trail.above index ∧ c.atoms.reason l.atom = none ∧ c.Involved literals l.atom

namespace Collecting

/-- **The literal the walk comes to is marked exactly if it is involved.** -/
theorem marked_iff (h : Collecting c literals (index + 1) failed d) (ht : Traceable f c)
    (hp : c.trail.literals[index]? = some p) : Solver.marked d p.atom = true ↔ c.Involved literals p.atom := by
  rw [h.marks, involved_iff_implicated ht hp]
  exact and_iff_right ⟨p, Trail.mem_before.2 ⟨index, Nat.lt_succ_self index, hp⟩, rfl⟩

/-- What is noted is as before where the literal passed is not for noting. -/
theorem keep (h : Collecting c literals (index + 1) failed d) (hp : c.trail.literals[index]? = some p)
    (hn : ¬(c.atoms.reason p.atom = none ∧ c.Involved literals p.atom)) (hw : Working c e)
    (hm : ∀ a, Solver.marked e a = true ↔
      (∃ q ∈ c.trail.before index, q.atom = a) ∧ c.Implicated literals index a) : Collecting c literals index failed e where
  working := hw
  marks := hm
  ordered := by
    rw [Trail.above_of_getElem? hp]
    exact h.ordered.trans (List.sublist_append_left ..)
  mem_iff l := by
    rw [h.mem_iff, Trail.above_of_getElem? hp, List.mem_append, List.mem_singleton]
    refine ⟨fun hl => ⟨.inl hl.1, hl.2⟩, fun hl => ⟨hl.1.resolve_right fun he => hn ?_, hl.2⟩⟩
    rw [← he, Literal.atom_negate]
    exact hl.2

/-- A marked literal, once passed, leaves marks on what it goes back to. -/
theorem marks_passed (h : Collecting c literals (index + 1) failed d) (ht : Traceable f c)
    (hp : c.trail.literals[index]? = some p) (hm : Solver.marked d p.atom = true)
    (hneeds : ∀ m, c.Antecedent p.atom m ↔ m ∈ needs)
    (he : ∀ a, Solver.marked e a = true ↔
      Solver.marked d a = true ∨ a ∈ needs.map Literal.atom ∧ 0 < c.atoms.levelOrZero a) (a : Nat) :
    Solver.marked (e.withMark p.atom false) a = true ↔
      (∃ q ∈ c.trail.before index, q.atom = a) ∧ c.Implicated literals index a := by
  have hinvolved := (h.marked_iff ht hp).1 hm
  have hgoes : a ∈ needs.map Literal.atom ↔ ∃ m, c.Antecedent p.atom m ∧ m.atom = a := by simp [hneeds]
  rw [marked_unmark, he, hgoes, h.marks, implicated_iff hp]
  constructor
  · rintro ⟨hne, ⟨⟨q, hq, hqa⟩, himplicated⟩ | ⟨⟨m, hmp, rfl⟩, hl⟩⟩
    · exact ⟨⟨q, (Trail.eq_or_mem_before hp hq).resolve_left fun hqp => hne (hqp ▸ hqa.symm), hqa⟩, .inl himplicated⟩
    · exact ⟨⟨m.negate, ht.trailed.antecedent_before hp hmp, Literal.atom_negate m⟩, .inr ⟨hl, hinvolved, m, hmp, rfl⟩⟩
  · rintro ⟨⟨q, hq, rfl⟩, himplicated⟩
    refine ⟨ht.trailed.atom_ne_of_mem_before hp hq, himplicated.imp (fun hr => ⟨⟨q, ?_, rfl⟩, hr⟩) fun hr => ⟨hr.2.2, hr.1⟩⟩
    exact Trail.before_subset (Nat.le_succ index) hq

theorem skip (h : Collecting c literals (index + 1) failed d) (ht : Traceable f c)
    (hp : c.trail.literals[index]? = some p) (hm : Solver.marked d p.atom = false) :
    Collecting c literals index failed d := by
  have hn : ¬c.Involved literals p.atom := fun hi => by
    rw [(h.marked_iff ht hp).2 hi] at hm
    cases hm
  refine h.keep hp (fun hi => hn hi.2) h.working fun a => ?_
  rw [h.marks, implicated_iff hp, or_iff_left fun hr => hn hr.2.1]
  refine and_congr_left fun hr => ⟨?_, fun ⟨q, hq, hqa⟩ => ⟨q, Trail.before_subset (Nat.le_succ index) hq, hqa⟩⟩
  rintro ⟨q, hq, rfl⟩
  refine ⟨q, (Trail.eq_or_mem_before hp hq).resolve_left fun hqp => hn ?_, rfl⟩
  rw [involved_iff_implicated ht hp, ← hqp]
  exact hr

theorem assume (h : Collecting c literals (index + 1) failed d) (ht : Traceable f c)
    (hp : c.trail.literals[index]? = some p) (hm : Solver.marked d p.atom = true)
    (hr : c.atoms.reason p.atom = none) : Collecting c literals index (failed ++ [p.negate]) (d.withMark p.atom false) where
  working := h.working.withMark ..
  marks := by
    have hneeds : ∀ m, c.Antecedent p.atom m ↔ m ∈ ([] : Clause) := fun m => by simp [not_antecedent_of_none hr]
    exact h.marks_passed ht hp hm hneeds (by simp)
  ordered := by
    rw [Trail.above_of_getElem? hp, List.map_append, List.map_singleton, Literal.negate_negate]
    exact h.ordered.append (List.Sublist.refl _)
  mem_iff l := by
    have hinvolved := (h.marked_iff ht hp).1 hm
    rw [List.mem_append, List.mem_singleton, h.mem_iff, Trail.above_of_getElem? hp, List.mem_append, List.mem_singleton]
    constructor
    · rintro (hl | rfl)
      · exact ⟨.inl hl.1, hl.2⟩
      · rw [Literal.negate_negate, Literal.atom_negate]
        exact ⟨.inr rfl, hr, hinvolved⟩
    · rintro ⟨hl | he, hl'⟩
      · exact .inl ⟨hl, hl'⟩
      · exact .inr (by rw [← he, Literal.negate_negate])

theorem retraces (ht : Traceable f c) : Retraces f c (Collecting c literals) where
  working h := h.working
  level h hp hm := ((h.marked_iff ht hp).1 hm).level_pos
  skip h hp hm := h.skip ht hp hm
  explain h hp hm hne _ hneeds hw he := h.keep hp (fun hn => hne hn.1) (hw.withMark ..) (h.marks_passed ht hp hm hneeds he)
  assume h hp hm hr := h.assume ht hp hm hr

/-- The walk starts from the marks of what is given. -/
theorem start (ht : Traceable f c) (hw : Working c d)
    (hm : ∀ a, Solver.marked d a = true ↔ a ∈ literals.map Literal.atom ∧ 0 < c.atoms.levelOrZero a) :
    Collecting c literals c.trail.size [] d := by
  have habove : c.trail.above c.trail.size = [] := by
    rw [Trail.above_eq, List.drop_of_length_le (by simp [Trail.size]), List.reverse_nil]
  refine ⟨hw, fun a => ?_, by simp, by simp [habove]⟩
  rw [hm, Trail.before_of_size_le (Nat.le_refl _)]
  constructor
  · rintro ⟨ha, hl⟩
    exact ⟨ht.placed a hl, hl, .inl ha⟩
  · rintro ⟨-, hl, ha | ⟨q, hq, -⟩⟩
    · exact ⟨ha, hl⟩
    · rw [habove] at hq
      cases hq

/-- Below level one there is nothing to mark. -/
theorem marks_none (h : Collecting c literals (c.trail.start 1) failed d) (ht : Trailed f c) : Marks d fun _ => False :=
  fun a => ⟨fun ha => by
    obtain ⟨⟨q, hq, rfl⟩, hl, -⟩ := (h.marks a).1 ha
    have hle := ht.level_le_of_mem_upTo (k := 0) hq
    omega, False.elim⟩

/-- And nothing to note. -/
theorem responsible (h : Collecting c literals (c.trail.start 1) failed d) (ht : Trailed f c) :
    c.Responsible literals failed := by
  have hordered : (failed.map Literal.negate).Sublist c.trail.literals.toList.reverse := by
    refine h.ordered.trans ?_
    rw [Trail.above_eq]
    exact (List.drop_sublist ..).reverse
  refine ⟨.of_map _ (hordered.nodup (List.nodup_reverse.2 ht.nodup)), hordered, fun l => ?_⟩
  rw [h.mem_iff]
  constructor
  · rintro ⟨hl, hr, hi⟩
    have hmem : l.negate ∈ failed.map Literal.negate := List.mem_map_of_mem ((h.mem_iff l).2 ⟨hl, hr, hi⟩)
    exact ⟨⟨List.mem_reverse.1 (hordered.subset hmem), hr, hi.level_pos⟩, hi⟩
  · rintro ⟨⟨hl, hr, hpos⟩, hi⟩
    refine ⟨?_, hr, hi⟩
    obtain ⟨j, hj⟩ := Trail.mem_literals.1 hl
    refine Trail.mem_above.2 ⟨j, Nat.le_of_not_lt fun hlt => ?_, hj⟩
    have hle := ht.level_le_of_mem_upTo (k := 0) (Trail.mem_before.2 ⟨j, hlt, hj⟩)
    rw [Literal.atom_negate] at hle
    omega

end Collecting

/-- At level zero nothing is to blame. -/
theorem Trailed.responsible_nil (ht : Trailed f c) (hl : c.trail.level = 0) : c.Responsible literals [] :=
  ⟨.nil, List.nil_sublist _, fun l => ⟨nofun, fun ⟨ha, _⟩ => by
    have hle := ht.level_le_level ha.1
    rw [Literal.atom_negate] at hle
    have := ha.2.2
    omega⟩⟩

end Context

namespace Solver

open Run Context

/-- **The assumptions found are those that the literals go back to**, above some assumptions or at level zero, and no mark
is left. -/
theorem answers_failedFor_responsible {f : Formula} {c : Context} {literals : Clause} (ht : Traceable f c)
    (hm : c.marks = Array.replicate c.atoms.count false) (hl : ∀ m ∈ literals, m.atom < c.atoms.count) :
    Answers (failedFor literals) c fun failed d => Rested c d ∧
      ((c.trail.root = 0 → c.trail.level = 0) → c.Responsible literals failed) := by
  by_cases hroot : c.trail.root = 0
  · unfold failedFor
    rw [answers_bind, answers_get, if_pos hroot]
    exact answers_pure.2 ⟨⟨.refl c, rfl, rfl, hm⟩, fun hz => ht.trailed.responsible_nil (hz hroot)⟩
  · refine (answers_failedFor_retraces ht (Collecting.retraces ht) hm hl hroot fun d hw hmarks => .start ht hw hmarks).mono
      fun failed e h => ⟨⟨h.working.toAlike, h.working.course, h.working.head, ?_⟩, fun _ => h.responsible ht.trailed⟩
    exact h.working.clean (h.marks_none ht.trailed)

end Solver

namespace Session

open Run Solver

/-- **A final analysis finds exactly the assumptions responsible.**  In whatever context a solve under assumptions comes by,
and for all literals with values, it answers with the negations of the literals of the trail, without a reason and of level
above zero, that the literals given go back to along reasons through levels above zero: each of them once, the last of the
trail first.  The levels of the solve are to be counted. -/
theorem failedFor_responsible {s : Session} {fuel : Nat} {assumptions : List Literal} {v : Visit} {literals : Clause}
    (h : s.Followed) (hn : assumptions ≠ []) (_hlevels : assumptions.length + s.context.atoms.count < levelLimit)
    (hv : v ∈ solveGiven.visits fuel assumptions s.context) (hl : ∀ l ∈ literals, v.context.atoms.value l.atom ≠ none) :
    ∃ failed d, failedFor literals v.context = .ok failed d ∧ v.context.Responsible literals failed := by
  have hu := (fit_solveGiven h.held.toResting v hv).underway
  have hknown : ∀ l ∈ literals, l.atom < v.context.atoms.count := fun l hm =>
    have ⟨_, hv⟩ := Option.ne_none_iff_exists'.1 (hl l hm)
    AtomTable.lt_count_of_value hv
  obtain ⟨failed, d, hd, -, hfailed⟩ := answers_failedFor_responsible hu.toTraceable hu.marks hknown
  exact ⟨failed, d, hd, hfailed fun hz => hu.ends.resolve_left fun hr =>
    hn (List.eq_nil_of_length_eq_zero (hr.symm.trans hz))⟩

/-- With the first atom found false above two assumptions, by clauses that do not have these, and then the second atom true
for all three: the unit learnt is within the walk, but it is not noted. -/
theorem failedFor_responsible_unit : ∃ (s : Session) (v : Visit), s.Followed ∧
    s.formula = [[x₀.negate, x₁], [x₀.negate, x₁.negate], [x₀, x₁, x₂.negate, x₃.negate]] ∧
    [x₃, x₂].length + s.context.atoms.count < levelLimit ∧
    v ∈ solveGiven.visits 6 [x₃, x₂] s.context ∧ v.context.trail.literals.toList = [x₃, x₂, x₀.negate, x₁] ∧
    (∀ l ∈ [x₁], v.context.atoms.value l.atom ≠ none) ∧
    ∃ d, failedFor [x₁] v.context = .ok [x₂.negate, x₃.negate] d ∧
      v.context.Responsible [x₁] [x₂.negate, x₃.negate] := by
  have hnormal : Clause.normal [x₀.negate, x₁] = [x₀.negate, x₁] := Clause.normal_of_pairwise (by decide)
  have hnormal' : Clause.normal [x₀.negate, x₁.negate] = [x₀.negate, x₁.negate] := Clause.normal_of_pairwise (by decide)
  have hlong : Clause.normal [x₀, x₁, x₂.negate, x₃.negate] = [x₀, x₁, x₂.negate, x₃.negate] :=
    Clause.normal_of_pairwise (by decide)
  have h : ((start {} .default).run [.freshAtom, .freshAtom, .freshAtom, .freshAtom,
      .addClause [x₀.negate, x₁], .addClause [x₀.negate, x₁.negate], .addClause [x₀, x₁, x₂.negate, x₃.negate]]).map
      (fun s => (s.formula, ((solveGiven.visits 6 [x₃, x₂] s.context).find? fun v =>
        v.context.trail.size = 4 && v.context.trail.level = 2).map fun v =>
          (v.context.trail.literals.toList, ((failedFor [x₁]).ended v.context).map (·.1)))) =
      some ([[x₀.negate, x₁], [x₀.negate, x₁.negate], [x₀, x₁, x₂.negate, x₃.negate]],
        some ([x₃, x₂, x₀.negate, x₁], some (some [x₂.negate, x₃.negate]))) := by
    simp only [Session.run, Session.call, Session.after, addClause, hnormal, hnormal', hlong]
    decide +kernel
  obtain ⟨s, hs, hview⟩ := Option.map_eq_some_iff.1 h
  obtain ⟨hf, hview⟩ := Prod.mk.inj hview
  obtain ⟨v, hv, hview⟩ := Option.map_eq_some_iff.1 hview
  obtain ⟨htrail, hview⟩ := Prod.mk.inj hview
  obtain ⟨⟨answer, d⟩, hd, hanswer⟩ := Option.map_eq_some_iff.1 hview
  obtain rfl : answer = some [x₂.negate, x₃.negate] := hanswer
  have hfollowed : s.Followed := .run _ (.start {} .default) hs
  have hlevels : [x₃, x₂].length + s.context.atoms.count < levelLimit := hfollowed.held.lt_levelLimit (by decide)
  have hmem := List.mem_of_find?_eq_some hv
  have htrailed := (fit_solveGiven hfollowed.held.toResting v hmem).underway.trailed
  have hvalued : ∀ l ∈ [x₁], v.context.atoms.value l.atom ≠ none := fun l hl => by
    rw [List.mem_singleton.1 hl, (htrailed.value x₁).2 (by simp [htrail])]
    exact Option.some_ne_none _
  obtain ⟨failed, e, he, hfailed⟩ := failedFor_responsible hfollowed (by simp) hlevels hmem hvalued
  have hsame := he.symm.trans (ended_eq_answer hd)
  rw [EStateM.Result.ok.injEq] at hsame
  rw [hsame.1] at he hfailed
  exact ⟨s, v, hfollowed, hf, hlevels, hmem, htrail, hvalued, e, he, hfailed⟩

end Session
end Cdcl
