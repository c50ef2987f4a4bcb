import Cdcl.Proofs.LearntClauses
import Cdcl.Proofs.Visits
/-!
# CleanMarks — no analysis leaves a mark

An analysis marks atoms and takes the marks back before it answers: those of the learnt clause, those that a recursive
minimization comes by, whether it finds them removable or not, and those the trail is walked back from.  So where an
analysis may start no atom is marked, and none is where it ends, however clauses are minimized
(`Inquiry.Founded.unmarked`).  This is so between calls, and for every analysis of a call (`analyses_leave_no_mark`).
-/
namespace Cdcl

namespace Context

/-- There is a mark for each atom, and none is set. -/
structure Unmarked (c : Context) : Prop where
  size : c.marks.size = c.atoms.count
  clear : ∀ mark ∈ c.marks, mark = false

variable {f : Formula} {settled : Nat → Prop} {c d : Context}

theorem unmarked_iff : c.Unmarked ↔ c.marks = Array.replicate c.atoms.count false := by
  rw [Array.eq_replicate_iff]
  exact ⟨fun h => ⟨h.size, h.clear⟩, fun h => ⟨h.1, h.2⟩⟩

theorem Sound.unmarked (h : Sound f settled c) : c.Unmarked := unmarked_iff.2 h.marks

theorem Rested.unmarked (h : Rested c d) : d.Unmarked := unmarked_iff.2 (h.toAlike.count ▸ h.marks)

/-- A context with clauses minimized in another way. -/
def minimizing (c : Context) (minimization : Minimization) : Context :=
  { c with options := c.options.put (.minimization minimization) }

theorem alike_minimizing (c : Context) (minimization : Minimization) : Alike c (c.minimizing minimization) :=
  .of_eq rfl rfl rfl rfl rfl

end Context

namespace Inquiry

open Run Context

variable {f : Formula} {c d : Context} {inquiry : Inquiry}

theorem Founded.alike (h : inquiry.Founded f c) (ha : Alike c d) : inquiry.Founded f d := by
  obtain ⟨⟨settled, hb⟩, hasks⟩ := h
  refine ⟨⟨settled, ha.base hb⟩, ?_⟩
  cases inquiry with
  | learn conflict =>
    obtain ⟨hr, hh, hpos⟩ := hasks
    exact ⟨hr.alike ha, hh.alike ha, ha.level ▸ hpos⟩
  | blame conflict => exact Refuted.alike hasks ha
  | refute assumption =>
    unfold Asks
    rw [ha.literals]
    exact hasks

/-- **An analysis takes back its marks**, however clauses are minimized. -/
theorem Founded.unmarked (h : inquiry.Founded f c) (hu : c.Unmarked) (minimization : Minimization) :
    Answers inquiry.program (c.minimizing minimization) fun _ d => d.Unmarked :=
  have hm : (c.minimizing minimization).marks = Array.replicate c.atoms.count false :=
    (unmarked_iff (c := c)).1 hu
  ((h.alike (alike_minimizing c minimization)).answers hm).mono fun _ _ hd => hd.unmarked

end Inquiry

namespace Session

open Run Context Solver

variable {s : Session}

/-- No mark is set between calls, where a call analyses a conflict, and wherever a solve comes by.  The analyses that start
there answer and leave none set, in whichever way clauses are minimized. -/
structure Unmarking (s : Session) : Prop where
  resting : s.context.Unmarked
  analyzed : ∀ (k : Call) (conflict : Conflict) (d : Context), s.steps k s.context (.analyze conflict) d → d.Unmarked ∧
    ∀ minimization, Answers (analyzeConflict conflict) (d.minimizing minimization) fun _ e => e.Unmarked
  visited : ∀ (fuel : Nat) (assumptions : List Literal), ∀ v ∈ solveGiven.visits fuel assumptions s.context,
    v.context.Unmarked ∧ ∀ inquiry ∈ v.inquiry, ∀ minimization,
      Answers inquiry.program (v.context.minimizing minimization) fun _ e => e.Unmarked

/-- **No analysis leaves a mark**, whatever has been called. -/
theorem analyses_leave_no_mark (h : s.Followed) : s.Unmarking where
  resting :=
    have ⟨_, _, hs, _⟩ := h.held.exists_sound
    hs.unmarked
  analyzed k conflict d hst := by
    obtain ⟨f, ⟨⟨settled, hd⟩, -, hasks⟩, -⟩ := h.held.ready hst
    have hfounded : (Inquiry.learn conflict).Founded f d := ⟨⟨settled, hd.toBase⟩, hasks⟩
    refine ⟨hd.unmarked, fun minimization => ?_⟩
    exact (answers_bind.1 (hfounded.unmarked hd.unmarked minimization)).mono fun _ _ he => answers_pure.1 he
  visited fuel assumptions v hv := by
    have hfit := fit_solveGiven h.held.toResting v hv
    have hu : v.context.Unmarked := unmarked_iff.2 hfit.underway.marks
    exact ⟨hu, fun inquiry hi minimization => (hfit.founded inquiry hi).unmarked hu minimization⟩

/-- With two clauses that leave the first atom one value only: a search learns from their conflict, and where the other value
is assumed, it is to blame for the conflict, or false for the one assumed before. -/
theorem analyses_leave_no_mark_pair : ∃ s : Session, s.Followed ∧ s.formula = [[x₀.negate, x₁], [x₀.negate, x₁.negate]] ∧
    (∃ conflict d, s.steps (.decide x₀) s.context (.analyze conflict) d) ∧
    ([[], [x₀], [x₀.negate, x₀]].map fun assumptions =>
      (solveGiven.visits 6 assumptions s.context).filterMap Visit.inquiry) =
      [[.learn (.binary x₀.negate x₁.negate)], [.blame (.binary x₀.negate x₁.negate)], [.refute x₀]] ∧ s.Unmarking := by
  have hnormal : Clause.normal [x₀.negate, x₁] = [x₀.negate, x₁] := Clause.normal_of_pairwise (by decide)
  have hnormal' : Clause.normal [x₀.negate, x₁.negate] = [x₀.negate, x₁.negate] := Clause.normal_of_pairwise (by decide)
  have h : (dispute [.freshAtom, .freshAtom, .addClause [x₀.negate, x₁], .addClause [x₀.negate, x₁.negate]] x₀).map
      (fun r => (r.1.formula, [[], [x₀], [x₀.negate, x₀]].map fun assumptions =>
        (solveGiven.visits 6 assumptions r.1.context).filterMap Visit.inquiry)) =
      some ([[x₀.negate, x₁], [x₀.negate, x₁.negate]],
        [[.learn (.binary x₀.negate x₁.negate)], [.blame (.binary x₀.negate x₁.negate)], [.refute x₀]]) := by
    simp only [dispute, Session.run, Session.call, Session.after, addClause, hnormal, hnormal']
    decide +kernel
  obtain ⟨s, conflict, d, hs, hst, hview⟩ := exists_analyze_of_dispute h
  obtain ⟨hf, hvisits⟩ := Prod.mk.inj hview
  have hfollowed : s.Followed := .run _ (.start {} .default) hs
  exact ⟨s, hfollowed, hf, ⟨conflict, d, hst⟩, hvisits, analyses_leave_no_mark hfollowed⟩

end Session
end Cdcl
