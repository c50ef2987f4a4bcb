import Cdcl.Proofs.Readiness
import Cdcl.Proofs.Soundness
/-!
# LearntClauses — every conflict that is analysed teaches an asserting clause

A conflict is analysed above the root level of a search, and above level zero after a decision or an assertion from
outside.  The analysis always answers, with a clause that follows from the accepted clauses, and that asserts its first
literal at any level from the one it is learnt with up to the one below the conflict (`analyzeConflict_asserting`).
-/
namespace Cdcl

namespace Context

variable {f : Formula} {c d : Context} {learnt : LearntClause} {first : Literal} {rest : Clause} {l m : Literal}
  {target : Nat}

theorem Base.level?_of_negate_mem {settled : Nat → Prop} (h : Base f settled c)
    (hl : l.negate ∈ c.trail.literals.toList) : c.atoms.level? l.atom = some (c.atoms.levelOrZero l.atom) := by
  have hv := (h.trailed.value l.negate).2 hl
  rw [Literal.atom_negate] at hv
  exact h.leveled.level?_eq hv

/-- **A clause asserts its first literal wherever it is gone back to**, from its level up to below the conflict. -/
theorem Learnable.asserts (h : Learnable f c learnt first rest) (ht : Trailed f c) (hj : Jumped c target d)
    (hd : Trailed f d) (hle : learnt.level ≤ target) (hlt : target < c.trail.level) :
    d.atoms.value first.atom = none ∧ ∀ m ∈ rest, d.atoms.isFalse m = true := by
  have ha : Asserting f (fun _ => False) d first rest :=
    h.asserting_jumped ht hj hd hle hlt fun _ hs _ => hs.elim
  exact ⟨ha.free, fun m hm => hd.isFalse_iff_mem.2 (ha.others m hm)⟩

end Context

namespace Solver

open Run Steps

variable {l : Literal} {c d : Context}

/-- The conflict that a decision comes upon above level zero, where it is to be analysed. -/
def disputed (l : Literal) : Solver (Option Conflict) := do
  if (← get).state = .unsatisfiable then pure none
  else if (← record l.atom).value.isSome then pure none
  else
    modify ({ · with pending := none })
    decideLiteral l
    match ← propagate with
    | .conflict conflict =>
      count fun n => { n with conflicts := n.conflicts + 1 }
      pure (if (← get).trail.level = 0 then none else some conflict)
    | _ => pure none

theorem steps_of_disputed {conflict : Conflict} (h : disputed l c = .ok (some conflict) d) :
    decide.steps l c (.analyze conflict) d := by
  unfold disputed at h
  rw [bind_of_ok (get_apply c)] at h
  unfold decide.steps
  by_cases hs : c.state = .unsatisfiable
  · rw [if_pos hs] at h
    cases h
  rw [if_neg hs] at h ⊢
  obtain ⟨r, c₁, hr, h⟩ := bind_eq_ok_iff.1 h
  by_cases hv : r.value.isSome = true
  · rw [if_pos hv] at h
    cases h
  rw [if_neg hv, ← bind_assoc] at h
  obtain ⟨_, c₂, hdecided, h⟩ := bind_eq_ok_iff.1 h
  obtain ⟨result, c₃, hp, h⟩ := bind_eq_ok_iff.1 h
  refine ⟨r, c₁, hr, ?_⟩
  dsimp only
  rw [if_neg hv]
  refine ⟨_, c₂, hdecided, .inr ⟨result, c₃, hp, ?_⟩⟩
  cases result with
  | complete => cases h
  | corrupt => cases h
  | conflict conflict' =>
    obtain ⟨_, c₄, hcount, h⟩ := bind_eq_ok_iff.1 h
    rw [bind_of_ok (get_apply c₄)] at h
    by_cases hz : c₄.trail.level = 0
    · rw [if_pos hz] at h
      cases h
    · rw [if_neg hz] at h
      cases h
      refine ⟨_, d, hcount, ?_⟩
      dsimp only
      rw [if_neg hz]
      exact ⟨rfl, rfl⟩

end Solver

namespace Session

open Run Context Solver

variable {s : Session} {k : Call} {conflict : Conflict} {d : Context}

/-- **Every learnt clause is an entailed asserting clause.**  Wherever a call analyses a conflict, it learns a clause that the
accepted clauses entail, of distinct atoms.  Its first literal is false at the current level, and the others at lower levels
above zero, of which the greatest is that of the second literal, and is noted with the clause.  At the levels from there to
below the current one, the first literal has no value and the others are false. -/
theorem analyzeConflict_asserting (h : s.Reachable) (hst : s.steps k s.context (.analyze conflict) d) :
    ∃ learnt e first rest, analyzeConflict conflict d = .ok learnt e ∧ learnt.clause = first :: rest ∧
      s.formula.Entails learnt.clause ∧ (learnt.clause.map Literal.atom).Nodup ∧
      d.atoms.isFalse first = true ∧ d.atoms.level? first.atom = some d.trail.level ∧
      (∀ m ∈ rest, d.atoms.isFalse m = true ∧ ∃ level, d.atoms.level? m.atom = some level ∧
        1 ≤ level ∧ level ≤ d.trail.level - 1 ∧ level ≤ learnt.level) ∧
      (∀ m ∈ rest.head?, d.atoms.level? m.atom = some learnt.level) ∧ (rest = [] → learnt.level = 0) ∧
      ∀ target, learnt.level ≤ target → target ≤ d.trail.level - 1 →
        (e.listeners.onUnassign ≠ .track → ∃ g, backjump target e = .ok () g) ∧ ∀ g, backjump target e = .ok () g →
          g.atoms.value first.atom = none ∧ ∀ m ∈ rest, g.atoms.isFalse m = true := by
  obtain ⟨f, ⟨⟨settled, hd⟩, -, hr, hhere, hpos⟩, hf⟩ := h.held.ready hst
  obtain ⟨learnt, e, he, hrest, first, rest, hl⟩ := answers_analyzeConflict hd.toBase hd.marks hr hhere hpos
  have hother : ∀ m ∈ rest, d.atoms.level? m.atom = some (d.atoms.levelOrZero m.atom) := fun m hm =>
    hd.level?_of_negate_mem (hl.others m hm).1
  have hbelow := hl.below
  -- the analysis has left the trail and the values as they were
  have hsound := hrest.toAlike.sound hd (hrest.marks.trans hd.marks.symm)
  refine ⟨learnt, e, first, rest, he, hl.clause, ?_, ?_, hd.trailed.isFalse_iff_mem.2 hl.asserting.1, ?_,
    fun m hm => ⟨hd.trailed.isFalse_iff_mem.2 (hl.others m hm).1, _, hother m hm, ?_⟩, fun m hm => ?_, hl.unit,
    fun target hle hlt => ⟨fun hl => ?_, fun g hg => ?_⟩⟩
  · rw [hl.clause]
    exact hl.entails.mono (hf nofun)
  · rw [hl.clause]
    exact hl.nodup
  · rw [hd.level?_of_negate_mem hl.asserting.1, hl.asserting.2]
  · obtain ⟨-, hone, hle⟩ := hl.others m hm
    exact ⟨hone, by omega, hle⟩
  · rw [hother m (List.mem_of_mem_head? hm), hl.second m hm]
  · obtain ⟨_, g, hg, -⟩ : Answers (backjump target) e fun _ _ => True := answers_backjump hsound.toBase hl
    exact ⟨g, hg⟩
  · have hlt : target < e.trail.level := by
      rw [hrest.level]
      omega
    obtain ⟨hg, -, hjump⟩ := (meets_backjump hsound).of_ok hg
    exact (hl.alike hrest.toAlike).asserts hsound.trailed (hjump hlt).1 hg.trailed hle hlt

/-- What a decision after some calls comes upon, with the default options. -/
def dispute (calls : List Call) (l : Literal) : Option (Session × Conflict × Context) :=
  ((start {} .default).run calls).bind fun s =>
    ((disputed l).ended s.context).bind fun r => r.1.join.map fun conflict => (s, conflict, r.2)

theorem exists_analyze_of_dispute {α : Type} {a : α} {calls : List Call} {l : Literal}
    {view : Session × Conflict × Context → α} (h : (dispute calls l).map view = some a) :
    ∃ (s : Session) (conflict : Conflict) (d : Context), (start {} .default).run calls = some s ∧
      s.steps (.decide l) s.context (.analyze conflict) d ∧ view (s, conflict, d) = a := by
  obtain ⟨⟨s, conflict, d⟩, h, ha⟩ := Option.map_eq_some_iff.1 h
  obtain ⟨u, hu, h⟩ := Option.bind_eq_some_iff.1 h
  obtain ⟨⟨answer, e⟩, he, h⟩ := Option.bind_eq_some_iff.1 h
  obtain ⟨conflict', hanswer, h⟩ := Option.map_eq_some_iff.1 h
  cases h
  cases Option.join_eq_some_iff.1 hanswer
  exact ⟨_, _, _, hu, steps_of_disputed (ended_eq_answer he), ha⟩

/-- Two clauses leave the first atom one value only, and where the other value is decided a conflict is analysed. -/
theorem exists_analyze_or : ∃ (s : Session) (conflict : Conflict) (d : Context),
    (start {} .default).run [.freshAtom, .freshAtom, .addClause [x₀, x₁], .addClause [x₀, x₁.negate]] = some s ∧
    s.formula = [[x₀, x₁], [x₀, x₁.negate]] ∧ s.steps (.decide x₀.negate) s.context (.analyze conflict) d := by
  have h : (dispute [.freshAtom, .freshAtom, .addClause [x₀, x₁], .addClause [x₀, x₁.negate]] x₀.negate).map
      (fun r => r.1.formula) = some [[x₀, x₁], [x₀, x₁.negate]] := by
    simp only [dispute, Session.run, Session.call, Session.after, addClause, normal_or, normal_or_negate]
    decide +kernel
  obtain ⟨s, conflict, d, hs, hst, hf⟩ := exists_analyze_of_dispute h
  exact ⟨s, conflict, d, hs, hf, hst⟩

/-- With two clauses that do not let the first and the fourth atom both be true, and these decided to be, on the first and on
the third level: the clause learnt says so, and asserts on the first. -/
theorem analyzeConflict_asserting_pair : ∃ (s : Session) (conflict : Conflict) (d : Context), s.Reachable ∧
    s.formula = [[x₀.negate, x₁, x₃.negate], [x₀.negate, x₁.negate, x₃.negate]] ∧
    s.steps (.decide x₃) s.context (.analyze conflict) d ∧ d.trail.level = 3 ∧
    ∃ learnt e first rest, analyzeConflict conflict d = .ok learnt e ∧ learnt.clause = first :: rest ∧
      first = x₃.negate ∧ rest = [x₀.negate] ∧ learnt.level = 1 ∧
      s.formula.Entails learnt.clause ∧ (learnt.clause.map Literal.atom).Nodup ∧
      d.atoms.isFalse first = true ∧ d.atoms.level? first.atom = some d.trail.level ∧
      (∀ m ∈ rest, d.atoms.isFalse m = true ∧ ∃ level, d.atoms.level? m.atom = some level ∧
        1 ≤ level ∧ level ≤ d.trail.level - 1 ∧ level ≤ learnt.level) ∧
      (∀ m ∈ rest.head?, d.atoms.level? m.atom = some learnt.level) ∧ (rest = [] → learnt.level = 0) ∧
      ∀ target, learnt.level ≤ target → target ≤ d.trail.level - 1 →
        (e.listeners.onUnassign ≠ .track → ∃ g, backjump target e = .ok () g) ∧ ∀ g, backjump target e = .ok () g →
          g.atoms.value first.atom = none ∧ ∀ m ∈ rest, g.atoms.isFalse m = true := by
  have h : (dispute [.freshAtom, .freshAtom, .freshAtom, .freshAtom, .addClause [x₀.negate, x₁, x₃.negate],
      .addClause [x₀.negate, x₁.negate, x₃.negate], .decide x₀, .decide x₂] x₃).map (fun r => (r.1.formula,
        r.2.2.trail.level, ((analyzeConflict r.2.1).ended r.2.2).bind fun t => t.1.map fun p => (p.clause, p.level))) =
      some ([[x₀.negate, x₁, x₃.negate], [x₀.negate, x₁.negate, x₃.negate]], 3, some ([x₃.negate, x₀.negate], 1)) := by
    simp only [dispute, Session.run, Session.call, Session.after, addClause, normal_not_both, normal_not_both_negate]
    decide +kernel
  obtain ⟨s, conflict, d, hrun, hst, hview⟩ := exists_analyze_of_dispute h
  simp only [Prod.mk.injEq] at hview
  obtain ⟨hf, hlevel, hlearnt⟩ := hview
  obtain ⟨⟨answer, u⟩, hanalyze, hanswer⟩ := Option.bind_eq_some_iff.1 hlearnt
  obtain ⟨p, rfl, hp⟩ := Option.map_eq_some_iff.1 hanswer
  obtain ⟨hpclause, hplevel⟩ := Prod.mk.inj hp
  have hs : s.Reachable := ⟨{}, .default, _, hrun⟩
  obtain ⟨learnt, e, first, rest, hlearns, hclause, hasserts⟩ := analyzeConflict_asserting (k := .decide x₃) hs hst
  cases hlearns.symm.trans (ended_eq_answer hanalyze)
  obtain ⟨rfl, rfl⟩ := List.cons.inj (hclause.symm.trans hpclause)
  exact ⟨s, conflict, d, hs, hf, hst, hlevel, p, u, _, _, hlearns, hclause, rfl, rfl, hplevel, hasserts⟩

end Session
end Cdcl
