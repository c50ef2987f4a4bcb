import Cdcl.Proofs.Overtaking
import Mathlib.Data.List.MinMax
import Mathlib.Order.Nat
/-!
# AssertionGuard — where a clause that waits may be asserted

The guard compares two levels: that of the clause that waits, and the current one.  Where they agree the clause follows
from the accepted ones, all its literals but the first are false, and their greatest level is the current one.  Whether
the first has no value the levels do not tell.  A clause of one literal waits at level zero, and a clause accepted there
since may have given the literal a value; it has none if no clause was accepted since (`assertion_guard`).
-/
namespace Cdcl
namespace Context

/-- The greatest level of the literals of a clause; zero if there is none. -/
def greatestLevel (c : Context) (clause : Clause) : Nat := (clause.map fun l => c.atoms.levelOrZero l.atom).foldr max 0

/-- What the guard promises of the clause that waits, but for the value of its first literal. -/
structure Guarded (f : Formula) (c : Context) (first : Literal) (rest : Clause) : Prop where
  entails : f.Entails (first :: rest)
  others : ∀ m ∈ rest, c.atoms.isFalse m = true
  greatest : c.greatestLevel rest = c.level

variable {f g : Formula} {settled : Nat → Prop} {c d : Context} {p : LearntClause} {l first : Literal} {rest : Clause}

theorem le_greatestLevel {m : Literal} (hm : m ∈ rest) : c.atoms.levelOrZero m.atom ≤ c.greatestLevel rest :=
  List.le_max_of_le (List.mem_map_of_mem hm) (Nat.le_refl _)

theorem greatestLevel_le {n : Nat} (h : ∀ m ∈ rest, c.atoms.levelOrZero m.atom ≤ n) : c.greatestLevel rest ≤ n := by
  refine List.max_le_of_forall_le _ _ fun k hk => ?_
  obtain ⟨m, hm, rfl⟩ := List.mem_map.1 hk
  exact h m hm

/-- Where no unit is pending the level of a literal is that of its place. -/
theorem Quiet.mem_upTo_iff (h : Quiet f settled c) (hl : l ∈ c.trail.literals.toList) {k : Nat} :
    l ∈ c.trail.upTo k ↔ c.atoms.levelOrZero l.atom ≤ k := h.trailed.mem_upTo_iff_of_units h.units hl

/-- **A clause at the level it waited for has the current level as its greatest**, but for the first literal. -/
theorem Awaited.greatestLevel_eq (h : Awaited f c p first rest) (hq : Quiet f settled c) (hl : p.level = c.trail.level) :
    c.greatestLevel rest = c.trail.level := by
  have hothers := (h.here (Nat.le_of_eq hl)).2.2
  refine Nat.le_antisymm (greatestLevel_le fun m hm => ?_) (Nat.le_of_not_lt fun hlt => ?_)
  · rw [← Literal.atom_negate]
    exact hq.trailed.level_le_level (Trail.upTo_subset_literals (hothers m hm))
  · cases rest with
    | nil =>
      rw [← hl, h.unit.1 rfl] at hlt
      exact Nat.not_lt_zero _ hlt
    | cons second rest =>
      -- a second literal of a lower level would be false below the level the clause waits for
      have hsecond := Trail.upTo_subset_literals (hothers second List.mem_cons_self)
      have hle := le_greatestLevel (c := c) (List.mem_cons_self (a := second) (l := rest))
      rw [← Literal.atom_negate] at hle
      exact h.apart (Nat.le_of_eq hl) second rfl _ (hl ▸ hlt) ((hq.mem_upTo_iff hsecond).2 hle)

/-- **Where the clause that waits asserts, what the guard promises is so**, and its first literal has no value. -/
theorem Waiting.guarded (h : Waiting f c) (hr : Resting f settled c) (hl : c.atAssertionLevel = true) :
    ∃ p first rest, c.pending = some p ∧ p.clause = first :: rest ∧ Guarded f c first rest ∧
      c.atoms.value first.atom = none := by
  obtain ⟨p, hp, hlevel⟩ := exists_pending hl
  obtain ⟨hs, first, rest, ha⟩ := h p hp
  have hq := hr.quiet hs
  have hassert : Asserting f settled c first rest := ha.asserting hq.trailed hlevel
  exact ⟨p, first, rest, hp, ha.clause, ⟨ha.entails, fun m hm => hq.trailed.isFalse_iff_mem.2 (hassert.others m hm),
    ha.greatestLevel_eq hq hlevel⟩, hassert.free⟩

theorem Overtaken.guarded (h : Overtaken f c) (hl : c.atAssertionLevel = true) :
    ∃ p first, c.pending = some p ∧ p.clause = [first] ∧ Guarded f c first [] := by
  obtain ⟨p, hp, hlevel⟩ := exists_pending hl
  obtain ⟨first, hclause, he, -⟩ := h.unit p hp (hlevel.trans h.level)
  exact ⟨p, first, hp, hclause, he, nofun, h.level.symm⟩

theorem Resting.once (h : Resting f settled c) : (c.trail.literals.toList.map Literal.atom).Nodup := by
  have hsound : ∃ g other, Sound g other c := by
    by_cases hs : c.state = .unsatisfiable
    · obtain ⟨g, -, hg⟩ := (h.barren hs).sound
      exact ⟨g, _, hg⟩
    · exact ⟨f, settled, (h.quiet hs).toSound⟩
  obtain ⟨g, other, hg⟩ := hsound
  exact hg.trailed.nodup.map_on fun l hl m hm he => hg.trailed.eq_of_atom hl hm he

end Context

namespace Session

open Run Context Solver

variable {s : Session}

/-- **Where the guard is open the clause may be asserted, unless a clause accepted since has given its literal a value.**
The accepted clauses entail the clause that waits, its literals but the first are false, and their greatest level is the
current one.  While the first has no value an assertion assigns no atom twice.  If it has one a clause was accepted since the
conflict, the clause that waits has no other literal, and the level is zero. -/
theorem assertion_guard (h : s.Orderly) (hl : s.context.atAssertionLevel = true) :
    ∃ p first rest, s.context.pending = some p ∧ p.clause = first :: rest ∧ Guarded s.formula s.context first rest ∧
      (s.context.atoms.value first.atom = none → Meets Solver.assertHere s.context
        (fun _ d => (d.trail.literals.toList.map Literal.atom).Nodup)
        fun d => (d.trail.literals.toList.map Literal.atom).Nodup) ∧
      (s.context.atoms.value first.atom ≠ none → s.outdated = true ∧ s.context.level = 0 ∧ rest = []) := by
  have howing := h.owing
  have hassert : ∀ {p : LearntClause} {first : Literal} {rest : Clause}, s.context.pending = some p →
      p.clause = first :: rest → s.context.atoms.value first.atom = none → Meets Solver.assertHere s.context
      (fun _ d => (d.trail.literals.toList.map Literal.atom).Nodup)
      fun d => (d.trail.literals.toList.map Literal.atom).Nodup := fun hp hclause hfree =>
    (howing.assert (.of_pending hp hclause hfree)).mono (fun _ _ hd => hd.once) fun _ hd => hd.once
  by_cases hw : s.context.Waiting s.formula
  · obtain ⟨p, first, rest, hp, hclause, hg, hfree⟩ := hw.guarded howing.toResting hl
    exact ⟨p, first, rest, hp, hclause, hg, hassert hp hclause, fun hv => absurd hfree hv⟩
  · have hout : s.outdated = true := by
      by_contra hne
      exact hw (howing.waiting (by simpa using hne))
    have ho := howing.owed.resolve_left hw
    obtain ⟨p, first, hp, hclause, hg⟩ := ho.guarded hl
    exact ⟨p, first, [], hp, hclause, hg, hassert hp hclause, fun _ => ⟨hout, ho.level, rfl⟩⟩

/-- With two clauses that do not let the first and the fourth atom both be true: these are decided to be, on the first and on
the third level, and the clause learnt waits on the first. -/
theorem assertion_guard_or_three : ∃ s : Session, s.Orderly ∧ s.context.atAssertionLevel = true ∧
    s.context.assertion? = some [x₃.negate, x₀.negate] ∧ s.context.level = 1 ∧
    ∃ p first rest, s.context.pending = some p ∧ p.clause = first :: rest ∧ Guarded s.formula s.context first rest ∧
      (s.context.atoms.value first.atom = none → Meets Solver.assertHere s.context
        (fun _ d => (d.trail.literals.toList.map Literal.atom).Nodup)
        fun d => (d.trail.literals.toList.map Literal.atom).Nodup) ∧
      (s.context.atoms.value first.atom ≠ none → s.outdated = true ∧ s.context.level = 0 ∧ rest = []) := by
  have h : ((start {} .default).run [.freshAtom, .freshAtom, .freshAtom, .freshAtom,
      .addClause [x₀.negate, x₁, x₃.negate], .addClause [x₀.negate, x₁.negate, x₃.negate], .decide x₀, .decide x₂,
      .decide x₃, .undo x₃, .undo x₂]).map (fun s => (s.context.atAssertionLevel, s.context.assertion?, s.context.level)) =
      some (true, some [x₃.negate, x₀.negate], 1) := by
    simp only [Session.run, Session.call, Session.after, Solver.addClause, normal_not_both, normal_not_both_negate]
    decide +kernel
  obtain ⟨s, hs, hview⟩ := reachable_of_run h
  simp only [Prod.mk.injEq] at hview
  obtain ⟨hl, hclause, hlevel⟩ := hview
  exact ⟨s, hs.orderly, hl, hclause, hlevel, assertion_guard hs.orderly hl⟩

/-- A clause learnt after a decision waits for level zero, and is accepted there before it is asserted: the guard stays open,
though the literal has a value, and an assertion puts it on the trail a second time. -/
theorem assertion_valued : ∃ (s : Session) (d : Context), s.Orderly ∧ s.context.atAssertionLevel = true ∧
    (¬∃ p first rest, s.context.pending = some p ∧ p.clause = first :: rest ∧
      s.context.atoms.value first.atom = none) ∧
    Solver.assertHere s.context = .ok true d ∧ d.trail.literals = #[x₀, x₀] := by
  have hunit : Clause.normal [x₀] = [x₀] := Clause.normal_of_pairwise (by decide)
  have h : ((start {} .default).run [.freshAtom, .freshAtom, .addClause [x₀, x₁], .addClause [x₀, x₁.negate],
      .decide x₀.negate, .undo x₀.negate, .addClause [x₀]]).map (fun s => (s.context.assertion?,
        s.context.atoms.value x₀.atom, (Solver.assertHere.ended s.context).map fun r => (r.1, r.2.trail.literals))) =
      some (some [x₀], some true, some (some true, #[x₀, x₀])) := by
    simp only [Session.run, Session.call, Session.after, Solver.addClause, normal_or, normal_or_negate, hunit]
    decide +kernel
  obtain ⟨s, hs, hview⟩ := reachable_of_run h
  simp only [Prod.mk.injEq] at hview
  obtain ⟨hclause, hvalue, hassert⟩ := hview
  obtain ⟨⟨answer, d⟩, hd, hr⟩ := Option.map_eq_some_iff.1 hassert
  obtain ⟨rfl, htrail⟩ := Prod.mk.inj hr
  have hl : s.context.atAssertionLevel = true := by
    by_contra hne
    rw [assertion?, if_neg hne] at hclause
    cases hclause
  refine ⟨s, d, hs.orderly, hl, ?_, ended_eq_answer hd, htrail⟩
  rintro ⟨p, first, rest, hp, hfirst, hfree⟩
  rw [assertion?, if_pos hl, hp, Option.map_some, Option.some.injEq, hfirst, List.cons.injEq] at hclause
  rw [hclause.1, hvalue] at hfree
  cases hfree

end Session
end Cdcl
