import Cdcl.Proofs.Session
/-!
# Permanence — a context known to have no model stays so

No call leaves the state in which it is known that there is no model (`Held.call_unsatisfiable`), and every solve in it
answers so at once (`solveGiven_unsatisfiable`).
-/
namespace Cdcl

namespace Solver

open Run Context Dimacs

variable {α : Type} {m : Solver α} {c d : Context}

/-- A program ends where it is known that there is no model. -/
@[reducible] def Refutes (m : Solver α) (c : Context) : Prop :=
  Meets m c (fun _ d => d.state = .unsatisfiable) (fun d => d.state = .unsatisfiable)

theorem refutes_of_ok {a : α} (hm : m c = .ok a d) (hd : d.state = .unsatisfiable) : Refutes m c := by
  unfold Refutes Meets
  rw [hm]
  exact hd

theorem refutes_of_course (hs : c.state = .unsatisfiable)
    (h : Meets m c (fun _ d => d.course = c.course) (fun d => d.course = c.course)) : Refutes m c :=
  h.mono (fun _ _ hd => (state_eq_of_course hd).trans hs) fun _ hd => (state_eq_of_course hd).trans hs

theorem isUnsatisfiable_of_state (hs : c.state = .unsatisfiable) : c.isUnsatisfiable = true := by
  unfold isUnsatisfiable
  rw [hs]
  rfl

/-! ## Calls that answer at once -/

/-- **Where it is known that there is no model, a solve answers so**, whatever is assumed. -/
theorem solveGiven_unsatisfiable (hs : c.state = .unsatisfiable) (fuel : Nat) (assumptions : List Literal) :
    solveGiven fuel assumptions c = .ok .unsatisfiable { c with model := #[], failed := [], pending := none } := by
  unfold solveGiven
  rw [bind_of_ok (modify_apply _ c), bind_of_ok (get_apply _), if_pos hs]
  rfl

theorem addClause_unsatisfiable (hs : c.state = .unsatisfiable) (clause : Clause) :
    addClause clause c = .ok .unsatisfiable c := by
  unfold addClause
  rw [bind_of_ok (get_apply _), if_pos hs]
  rfl

theorem refutes_simplify (hs : c.state = .unsatisfiable) : Refutes simplify c := by
  unfold Refutes simplify
  rw [meets_bind, meets_get, meets_ite]
  refine ⟨fun _ => hs, fun _ => ?_⟩
  rw [if_pos hs]
  exact hs

theorem refutes_decide (hs : c.state = .unsatisfiable) (l : Literal) : Refutes (decide l) c := by
  unfold Refutes decide
  rw [meets_bind, meets_get, if_pos hs]
  exact hs

theorem refutes_findModel (hs : c.state = .unsatisfiable) (fuel : Nat) : Refutes (findModel fuel) c := by
  cases fuel with
  | zero => trivial
  | succ fuel =>
    unfold Refutes findModel
    rw [meets_bind, meets_get, if_pos (isUnsatisfiable_of_state hs)]
    exact hs

theorem refutes_countModels (hs : c.state = .unsatisfiable) : Refutes countModels c := by
  unfold Refutes countModels countModelsFor
  rw [meets_bind, meets_get, meets_bind, meets_get, if_pos (isUnsatisfiable_of_state hs)]
  exact hs

/-! ## Calls that tell nothing new of a solve -/

theorem meets_undo_course {l : Literal} :
    Meets (undo l) c (fun _ d => d.course = c.course) (fun d => d.course = c.course) := by
  unfold undo
  rw [meets_bind, meets_record]
  intro r _
  match r.level with
  | none => trivial
  | some 0 => trivial
  | some (level + 1) =>
    dsimp only
    rw [meets_bind]
    exact meets_backjump_course.mono (fun _ _ => id) fun _ => False.elim

theorem meets_freshAtoms_course : ∀ (n : Nat) (c : Context),
    Meets (freshAtoms n) c (fun _ d => d.course = c.course) (fun d => d.course = c.course)
  | 0, _ => rfl
  | n + 1, c => by
    unfold freshAtoms
    rw [meets_bind]
    refine meets_freshAtom_course.mono (fun a d hd => ?_) fun _ => id
    rw [meets_bind, ← hd]
    exact (meets_freshAtoms_course n d).mono (fun _ _ => id) fun _ => id

/-! ## Reading -/

theorem refutes_perform (hs : c.state = .unsatisfiable) (request : Request) : Refutes (perform request) c := by
  cases request with
  | atoms n =>
    unfold Refutes perform ensureAtoms
    rw [meets_bind, meets_get, meets_bind]
    exact refutes_of_course hs (meets_freshAtoms_course _ c)
  | clause clause =>
    unfold Refutes perform
    rw [meets_bind]
    exact refutes_of_ok (addClause_unsatisfiable hs clause) hs

theorem refutes_readAll (hs : c.state = .unsatisfiable) (lines : List (Option (List Char))) :
    Refutes (readAll lines) c := by
  unfold Refutes
  rw [readAll_eq, meets_bind]
  refine (meets_forM (I := fun _ d => d.state = .unsatisfiable) (fun request _ d hd => refutes_perform hd request) _ c
    hs).mono (fun _ d hd => ?_) fun _ => id
  rw [meets_bind]
  cases (lineRequests 0 lines {}).2 with
  | error e => exact hd
  | ok p =>
    show Meets (pure p) d _ _
    rw [meets_pure, meets_ite]
    exact ⟨fun _ => hd, fun _ => hd⟩

end Solver

namespace Session

open Run Context Solver

variable {s t : Session}

theorem after_unsatisfiable {α : Type} {m : Solver α} {next : Option α → Context → Session}
    (hnext : ∀ r d, (next r d).context = d) (ht : s.after m next = some t) (h : Refutes m s.context) :
    t.context.state = .unsatisfiable := by
  obtain ⟨r, d, hr, rfl⟩ := after_eq_some ht
  rw [hnext]
  exact Meets.of_ended (P := fun _ d => d.state = .unsatisfiable) h hr

/-- **No call forgets that there is no model.** -/
theorem Held.call_unsatisfiable (h : Held (· = 0) s) (hs : s.context.state = .unsatisfiable) {k : Call}
    (ht : s.call k = some t) :
    t.context.state = .unsatisfiable := by
  have hcall := ht
  unfold Session.call at ht
  cases k with
  | freshAtom => exact after_unsatisfiable (fun _ _ => rfl) ht (refutes_of_course hs meets_freshAtom_course)
  | addClause clause =>
    exact after_unsatisfiable (fun r d => by cases r <;> rfl) ht (refutes_of_ok (addClause_unsatisfiable hs clause) hs)
  | readDimacs lines =>
    obtain ⟨r, hr⟩ := h.context_readDimacs rfl hcall
    exact Meets.of_ended (P := fun _ d => d.state = .unsatisfiable) (refutes_readAll hs lines) hr
  | solve fuel => exact after_unsatisfiable (fun _ _ => rfl) ht (refutes_of_ok (solveGiven_unsatisfiable hs fuel []) hs)
  | solveGiven fuel assumptions =>
    exact after_unsatisfiable (fun _ _ => rfl) (Option.ite_none_right_eq_some.1 ht).2
      (refutes_of_ok (solveGiven_unsatisfiable hs fuel assumptions) hs)
  | simplify => exact after_unsatisfiable (fun _ _ => rfl) ht (refutes_simplify hs)
  | reduce => exact after_unsatisfiable (fun _ _ => rfl) ht (refutes_of_course hs meets_reduce_course)
  | decide l => exact after_unsatisfiable (fun _ _ => rfl) ht (refutes_decide hs l)
  | undo l => exact after_unsatisfiable (fun _ _ => rfl) ht (refutes_of_course hs meets_undo_course)
  | assertHere =>
    -- no clause waits, so there is none to assert
    have hpending : s.outdated = false → s.context.pending = none := fun ho => by
      cases hp : s.context.pending with
      | none => rfl
      | some p => exact absurd hs (h.waiting ho p hp).1
    dsimp only at ht
    split at ht
    · cases ht
    · rename_i ho
      refine after_unsatisfiable (fun _ _ => rfl) ht ?_
      unfold Refutes Solver.assertHere atAssertionLevel
      rw [meets_bind, meets_get, hpending (by simpa using ho)]
      trivial
  | countModels => exact after_unsatisfiable (fun _ _ => rfl) ht (refutes_countModels hs)
  | findModel fuel => exact after_unsatisfiable (fun _ _ => rfl) ht (refutes_findModel hs fuel)

theorem Held.run_unsatisfiable : ∀ (calls : List Call) {s t : Session}, Held (· = 0) s → s.context.state = .unsatisfiable →
    s.run calls = some t → t.context.state = .unsatisfiable
  | [], _, _, _, hs, ht => by
    cases ht
    exact hs
  | k :: rest, s, t, h, hs, ht => by
    obtain ⟨u, hu, ht⟩ := Option.bind_eq_some_iff.1 ht
    exact Held.run_unsatisfiable rest (h.next hu) (h.call_unsatisfiable hs hu) ht

end Session
end Cdcl
