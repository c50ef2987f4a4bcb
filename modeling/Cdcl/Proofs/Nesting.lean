import Cdcl.Proofs.ModelCounting
/-!
# Nesting — decisions on top of each other are undone exactly

Decisions may be made on top of others and undone in any order: to undo one is to undo all that were made after it.  Those
that stand make a tower (`Tower`).  Each was made where everything was propagated, its level is right above what there was
before, and the one on top may have ended in a conflict.  A decision puts one more on the tower (`answers_decide_tower`), and
to undo one leaves those below it (`answers_undo_tower`), so whatever was decided and undone there is a tower
(`Nesting.tower`).

Propagation moves watches, and they are not moved back.  But what a decision comes to is told by the unit rule, which depends
on neither watches nor the order of literals, so a decision that was undone comes to the same again (`undo_exact`).
-/
namespace Cdcl

open Run Context Solver

/-- A decision, where it was made, and what came of it. -/
structure Attempt where
  literal : Literal
  before : Context
  answer : Bool
  after : Context

/-- Decisions have led here from a context, and some of them have been undone.  Those that stand are listed, the last first:
no more is decided on top of one that has failed, and to undo one undoes all above it. -/
inductive Nesting (c : Context) : List Attempt → Context → Prop
  | start : Nesting c [] c
  | decide {standing : List Attempt} {l : Literal} {answer : Bool} {d e : Context} (h : Nesting c standing d)
    (hlast : ∀ a, standing.head? = some a → a.answer = true) (hfree : d.atoms.standing l = .free)
    (hd : decide l d = .ok answer e) : Nesting c (⟨l, d, answer, e⟩ :: standing) e
  | undo {above below : List Attempt} {a : Attempt} {d e : Context} (h : Nesting c (above ++ a :: below) d)
    (hd : undo a.literal d = .ok () e) : Nesting c below e

/-- A decision was made where a search may set out from, and came to what the unit rule tells. -/
structure Attempt.Made (f : Formula) (a : Attempt) : Prop where
  origin : Explorable f a.before
  free : a.before.atoms.standing a.literal = .free
  spread : a.before.Spread a.literal a.answer a.after

/-- A decision stands on top.  Since it was made, clauses have at most come to have their literals in another order. -/
structure Attempt.Stands (f : Formula) (a : Attempt) (d : Context) : Prop extends
    Branched f a.before a.literal d, a.Made f where
  reordered : Reordered a.before d
  explorable : a.answer = true → Explorable f d

/-- Decisions stand on top of each other, the last first. -/
inductive Tower (f : Formula) : List Attempt → Context → Prop
  | ground {d : Context} (h : Explorable f d) : Tower f [] d
  | level {below : List Attempt} {a : Attempt} {d : Context} (h : Tower f below a.before) (ha : a.Stands f d) :
    Tower f (a :: below) d

variable {f : Formula} {c d e : Context} {l : Literal} {a : Attempt} {standing above below : List Attempt}

/-- A decision stands as it did where all above it was undone. -/
theorem Attempt.Stands.restored (h : a.Stands f c) (hr : Restored c e) (he : Explorable f e) : a.Stands f e where
  toRaised := h.toRaised.grown hr.grown
  quiet := he.toQuiet.weaken fun _ _ _ => trivial
  state := he.state
  heard := he.heard
  toMade := h.toMade
  reordered := h.reordered.trans hr.reordered
  explorable _ := he

namespace Tower

theorem restored (h : Tower f standing c) (hr : Restored c e) (he : Explorable f e) : Tower f standing e := by
  cases h with
  | ground => exact .ground he
  | level h ha => exact .level h (ha.restored hr he)

theorem explorable (h : Tower f standing d) (hlast : ∀ a, standing.head? = some a → a.answer = true) :
    Explorable f d := by
  cases h with
  | ground h => exact h
  | level h ha => exact ha.explorable (hlast _ rfl)

/-- Whether or not the last decision has failed, the levels below it are settled. -/
theorem undoable (h : Tower f standing d) : Quiet f (d.clear fun _ => True) d ∧ d.state ≠ .unsatisfiable ∧
    d.listeners.onUnassign ≠ .track := by
  cases h with
  | ground h => exact ⟨h.toQuiet.weaken fun _ _ _ => trivial, h.state, h.heard⟩
  | level h ha => exact ⟨ha.quiet, ha.state, ha.heard⟩

/-- **What stood before a decision of a tower is right below its level**, and is a tower. -/
theorem founded : ∀ (above : List Attempt) {d : Context}, Tower f (above ++ a :: below) d →
    Tower f below a.before ∧ a.Made f ∧ Founded a.before a.literal d ∧ Reordered a.before d
  | [], _, .level h ha => ⟨h, ha.toMade, ha.toRaised.founded, ha.reordered⟩
  | _ :: above, _, .level h hb =>
    have ⟨hbelow, hmade, hfounded, hreordered⟩ := founded above h
    ⟨hbelow, hmade, hfounded.raised hb.toRaised, hreordered.trans hb.reordered⟩

end Tower

/-- **A decision puts one more on top of a tower.** -/
theorem answers_decide_tower (h : Tower f standing d) (hlast : ∀ a, standing.head? = some a → a.answer = true)
    (hfree : d.atoms.standing l = .free) :
    Answers (decide l) d fun answer e => Tower f (⟨l, d, answer, e⟩ :: standing) e := by
  have horigin := h.explorable hlast
  obtain ⟨hknown, hvalue⟩ := AtomTable.standing_eq_free_iff.1 hfree
  exact (answers_decide_explored horigin hknown hvalue).mono fun _ _ he =>
    .level h ⟨he.toBranched, ⟨horigin, hfree, he.spread⟩, he.reordered, he.explorable⟩

/-- **To undo a decision leaves those below it**, and the context it was made in. -/
theorem answers_undo_tower (h : Tower f (above ++ a :: below) d) :
    Answers (undo a.literal) d fun _ e => Tower f below e ∧ Explorable f e ∧ Restored a.before e := by
  obtain ⟨hbelow, hmade, hfounded, hreordered⟩ := h.founded
  obtain ⟨hquiet, hstate, hheard⟩ := h.undoable
  refine (answers_undo_explorable hmade.origin hfounded hquiet hstate hheard).mono fun _ e he => ?_
  have hrestored : Restored a.before e := ⟨he.toReverted, hreordered.trans he.reordered⟩
  exact ⟨hbelow.restored hrestored he.toExplorable, he.toExplorable, hrestored⟩

/-- **Whatever is decided and undone, what stands is a tower.** -/
theorem Nesting.tower (h : Nesting c standing d) (hc : Explorable f c) : Tower f standing d := by
  induction h with
  | start => exact .ground hc
  | decide _ hlast hfree hd ih => exact (answers_decide_tower ih hlast hfree).meets (E := fun _ => True) |>.of_ok hd
  | undo _ hd ih => exact (answers_undo_tower ih).meets (E := fun _ => True) |>.of_ok hd |>.1

namespace Session

variable {s : Session}

/-- **Undoing decisions is exact.**  In a tidy session where it is not known that there is no model, let decisions be made on
top of each other, of which the last may fail, and any be undone.  To undo one that stands then restores the trail with its
levels and its head, and the value, level and reason of every atom, to what they were before it was made, and the clauses are
those there were, but for the order of their literals.  To decide its literal again answers the same, and if it succeeds, the
trail comes to have the same literals. -/
theorem undo_exact (h : s.Tidy) (hs : s.context.state ≠ .unsatisfiable) (hn : Nesting s.context standing d)
    (ha : a ∈ standing) : ∃ e, undo a.literal d = .ok () e ∧ Restored a.before e ∧
      ∃ g, decide a.literal e = .ok a.answer g ∧
        (a.answer = true → ∀ m, m ∈ g.trail.literals.toList ↔ m ∈ a.after.trail.literals.toList) := by
  obtain ⟨above, below, rfl⟩ := List.append_of_mem ha
  have htower := hn.tower (h.explorable hs)
  obtain ⟨-, hmade, -⟩ := htower.founded
  obtain ⟨_, e, he, -, hexplorable, hrestored⟩ := answers_undo_tower htower
  obtain ⟨hknown, hvalue⟩ := AtomTable.standing_eq_free_iff.1 hmade.free
  obtain ⟨answer, g, hg, hspread⟩ := answers_decide_spread hexplorable.toQuiet hexplorable.state
    (hrestored.count ▸ hknown) ((hrestored.value _).trans hvalue)
  obtain ⟨rfl, hsame⟩ := hmade.spread.unique hspread (fun m => by rw [hrestored.trail]) fun _ =>
    hrestored.reordered.livePerm_iff
  exact ⟨e, he, hrestored, g, hg, hsame⟩

/-- With two clauses that leave the first of three atoms no choice: the third is decided to hold, and on top of it the first
not to, which fails.  Either is undone from there. -/
theorem undo_exact_or : ∃ (s : Session) (d e : Context), s.Tidy ∧ s.formula = [[x₀, x₁], [x₀, x₁.negate]] ∧
    decide x₂ s.context = .ok true d ∧ decide x₀.negate d = .ok false e ∧
    ∀ a ∈ [Attempt.mk x₀.negate d false e, ⟨x₂, s.context, true, d⟩], ∃ g, undo a.literal e = .ok () g ∧
      Restored a.before g ∧ ∃ k, decide a.literal g = .ok a.answer k ∧
        (a.answer = true → ∀ m, m ∈ k.trail.literals.toList ↔ m ∈ a.after.trail.literals.toList) := by
  have h : ((start {} .default).run [.freshAtom, .freshAtom, .freshAtom, .addClause [x₀, x₁],
      .addClause [x₀, x₁.negate]]).map (fun s => (s.formula, Decidable.decide (s.context.trail.level = 0 ∧
        s.context.state = .input ∧ s.context.atoms.standing x₂ = .free), ((decide x₂).ended s.context).bind fun r =>
          ((decide x₀.negate).ended r.2).map fun q => Decidable.decide (r.1 = some true ∧ q.1 = some false ∧
            r.2.atoms.standing x₀.negate = .free))) =
      some ([[x₀, x₁], [x₀, x₁.negate]], true, some true) := by
    simp only [Session.run, Session.call, Session.after, addClause, normal_or, normal_or_negate]
    decide +kernel
  obtain ⟨s, hs, hview⟩ := reachable_of_run h
  simp only [Prod.mk.injEq, decide_eq_true_iff] at hview
  obtain ⟨hf, ⟨hz, hstate, hfree⟩, hview⟩ := hview
  obtain ⟨⟨first, d⟩, hd, hview⟩ := Option.bind_eq_some_iff.1 hview
  obtain ⟨⟨second, e⟩, he, hview⟩ := Option.map_eq_some_iff.1 hview
  obtain ⟨rfl, rfl, hfree'⟩ := decide_eq_true_iff.1 hview
  have hd := ended_eq_answer hd
  have he := ended_eq_answer he
  have hn : Nesting s.context [⟨x₀.negate, d, false, e⟩, ⟨x₂, s.context, true, d⟩] e :=
    .decide (.decide .start (by simp) hfree hd) (by simp) hfree' he
  exact ⟨s, d, e, hs.tidy hz, hf, hd, he, fun a ha => undo_exact (hs.tidy hz) (by simp [hstate]) hn ha⟩

/-- Where it is known that there is no model, a decision answers no and gives no value, so there is nothing to undo. -/
theorem undo_not_exact : ¬∀ (s : Session) (standing : List Attempt) (a : Attempt) (d : Context), s.Tidy →
    s.context.trail.propagated = true → Nesting s.context standing d → a ∈ standing →
    ∃ e, undo a.literal d = .ok () e ∧ Restored a.before e ∧
      ∃ g, decide a.literal e = .ok a.answer g ∧
        (a.answer = true → ∀ m, m ∈ g.trail.literals.toList ↔ m ∈ a.after.trail.literals.toList) := by
  have h : ((start {} .default).run [.freshAtom, .addClause []]).map (fun s =>
      (Decidable.decide (s.context.trail.level = 0 ∧ s.context.trail.propagated = true ∧
        s.context.atoms.standing x₀ = .free), ((decide x₀).ended s.context).map fun r =>
          (r.1, ((undo x₀).ended r.2).map (·.1)))) = some (true, some (some false, none)) := by
    decide +kernel
  obtain ⟨s, hs, hview⟩ := reachable_of_run h
  simp only [Prod.mk.injEq, decide_eq_true_iff] at hview
  obtain ⟨⟨hz, hpropagated, hfree⟩, hview⟩ := hview
  obtain ⟨⟨answer, d⟩, hd, hview⟩ := Option.map_eq_some_iff.1 hview
  obtain ⟨rfl, hundo⟩ := Prod.mk.inj hview
  intro hall
  have hn : Nesting s.context [⟨x₀, s.context, false, d⟩] d :=
    .decide .start (by simp) hfree (ended_eq_answer hd)
  obtain ⟨e, he, -⟩ := hall s _ _ d (hs.tidy hz) hpropagated hn (List.mem_singleton_self _)
  -- to undo is refused here, which is not to end
  unfold ended at hundo
  rw [he] at hundo
  cases hundo

end Session
end Cdcl
