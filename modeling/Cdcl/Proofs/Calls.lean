import Cdcl.Proofs.Overtaking
import Cdcl.Proofs.Tolerance
/-!
# Calls — what every call of a session keeps

A call runs one program, and where the call leads its program has ended (`Session.ended_of_call`).  So a relation that the
programs keep is kept by the calls: one that decisions from outside keep, if it does not tell of atoms added, and solves keep
it as well (`leads_program`).  What lasts through every program of a context is kept by every call, and by every run of them
(`within_program`, `Session.kept_run`).

Between the calls a session may be given other options and other listeners (`Session.Followed`).  Neither matters to what is
owed between calls, and the root level is zero there (`Session.Followed.root`).
-/
namespace Cdcl

open Run Context

/-- What a call runs. -/
def Call.program : Call → Solver Unit
  | .freshAtom => do let _ ← Solver.freshAtom
  | .addClause clause => do let _ ← Solver.addClause clause
  | .readDimacs lines => do let _ ← Solver.readAll lines
  | .solve fuel => do let _ ← Solver.solve fuel
  | .solveGiven fuel assumptions => do let _ ← Solver.solveGiven fuel assumptions
  | .simplify => Solver.simplify
  | .reduce => Solver.reduce
  | .decide l => do let _ ← Solver.decide l
  | .undo l => Solver.undo l
  | .assertHere => do let _ ← Solver.assertHere
  | .countModels => do let _ ← Solver.countModels
  | .findModel fuel => do let _ ← Solver.findModel fuel

namespace Solver

open Dimacs (Request)

variable {R : Context → Context → Prop} {c d : Context}

/-! ## Programs of calls -/

theorem within_freshAtoms [Stepped R] (h : Within R freshAtom) : ∀ n : Nat, Within R (freshAtoms n)
  | 0 => within_pure
  | n + 1 => within_bind h fun _ => within_bind (within_freshAtoms h n) fun _ => within_pure

theorem within_perform [Stepped R] (hatom : Within R freshAtom) (hclause : ∀ clause, Within R (addClause clause)) :
    ∀ request : Request, Within R (perform request)
  | .atoms _ => within_bind within_get fun _ => within_bind (within_freshAtoms hatom _) fun _ => within_pure
  | .clause clause => within_bind (hclause clause) fun _ => within_pure

theorem within_readAll [Stepped R] (hatom : Within R freshAtom) (hclause : ∀ clause, Within R (addClause clause))
    (lines : List (Option (List Char))) : Within R (readAll lines) := by
  rw [readAll_eq]
  refine within_bind (within_forM (within_perform hatom hclause) _) fun _ => within_bind ?_ fun p => within_ite
    (fun _ => within_bind within_get fun _ => within_pure) fun _ => within_fail
  cases (Dimacs.lineRequests 0 lines {}).2 with
  | ok p => exact within_pure
  | error e => exact within_fail

theorem leads_discard [Chained R] {α : Type} {m : Solver α} (h : Leads R c m d) : Leads R c (do let _ ← m) d :=
  leads_bind h fun _ _ _ he => leads_pure he

/-- A program that throws its answer away ends where it ends with it. -/
theorem ended_discard {α : Type} {m : Solver α} {r : Option α} (h : m.ended c = some (r, d)) :
    ∃ r, (do let _ ← m : Solver Unit).ended c = some (r, d) := by
  unfold ended at h ⊢
  cases hm : m c with
  | ok a e =>
    rw [hm] at h
    cases h
    rw [bind_of_ok hm]
    exact ⟨some (), rfl⟩
  | error i e =>
    rw [hm] at h
    rw [bind_of_error hm]
    cases i with
    | failure f =>
      cases h
      exact ⟨none, rfl⟩
    | _ => cases h

/-- **Every call keeps what decisions from outside keep**, if adding atoms and clauses keeps it, and the solve at hand. -/
theorem leads_program [Telling R] (hatoms : ∀ (c : Context) (atoms : AtomTable), R c { c with atoms })
    (hinput : ∀ c, R c { c with state := .input })
    (hsolve : ∀ fuel assumptions, Leads R c (solveGiven fuel assumptions) c) (k : Call) : Leads R c k.program c := by
  have hatom : Within R freshAtom := within_freshAtom hatoms
  have hclause : ∀ clause, Within R (addClause clause) := within_addClause hinput
  cases k with
  | freshAtom => exact leads_discard (hatom c)
  | addClause clause => exact leads_discard (hclause clause c)
  | readDimacs lines => exact leads_discard (within_readAll hatom hclause lines c)
  | solve fuel => exact leads_discard (hsolve fuel [])
  | solveGiven fuel assumptions => exact leads_discard (hsolve fuel assumptions)
  | simplify => exact within_simplify c
  | reduce => exact within_reduce c
  | decide l => exact leads_discard (within_decide c)
  | undo l => exact within_undo c
  | assertHere => exact leads_discard (within_assertHere c)
  | countModels => exact leads_discard (within_countModels c)
  | findModel fuel => exact leads_discard (within_findModel fuel c)

/-- **Every call keeps what lasts.** -/
theorem within_program [Lasting R] (hatoms : ∀ (c : Context) (atoms : AtomTable), R c { c with atoms }) (k : Call) :
    Within R k.program := fun c =>
  leads_program hatoms (fun _ => Enduring.of_eq rfl rfl rfl rfl rfl rfl) (fun _ _ => within_solveGiven c) k

/-! ## The root level -/

/-- The root level stays. -/
def SameRoot (c d : Context) : Prop := d.trail.root = c.trail.root

instance : Chained SameRoot where
  refl _ := rfl
  trans h h' := h'.trans h

instance : Stepped SameRoot := .ofStill (fun _ _ => trivial) Still.root

instance : Telling SameRoot where
  refuted _ := rfl
  conflict _ := rfl
  noted _ _ _ _ := rfl
  told _ _ := rfl

/-- **A solve from a root level of zero ends with one.** -/
theorem meets_solveGiven_root {fuel : Nat} {assumptions : List Literal} (h : c.trail.root = 0) :
    Meets (solveGiven fuel assumptions) c (fun _ d => d.trail.root = 0) fun d => d.trail.root = 0 := by
  unfold solveGiven
  rw [meets_bind, meets_modify, meets_bind, meets_get, meets_ite]
  refine ⟨fun _ => h, fun _ => ?_⟩
  rw [meets_ite]
  refine ⟨fun _ => h, fun _ => ?_⟩
  rw [meets_bind]
  refine meets_backjump_course.mono (fun _ d _ => ?_) fun _ => False.elim
  rw [meets_bind, meets_setState, meets_bind]
  refine meets_attempt (meets_any.mono (fun state e _ => ?_) fun e _ failure => ?_) <;>
  unfold returnToRoot <;> rw [meets_bind, meets_bind] <;>
  refine meets_backjump_course.mono (fun _ g _ => ?_) fun _ => False.elim <;> rw [meets_bind, meets_modify]
  · refine (within_assignPendingUnits (R := SameRoot) (fun _ => rfl) _).meets.mono (fun _ k hk => ?_) fun _ => id
    unfold conclude
    rw [meets_bind, meets_modify, meets_bind, meets_get, meets_pure]
    dsimp only
    split <;> split <;> exact hk
  · exact (within_assignPendingUnits (R := SameRoot) (fun _ => rfl) _).meets.mono (fun _ _ hk => hk) fun _ => id

end Solver

namespace Session

open Solver

variable {s t : Session} {k : Call}

/-! ## Calls -/

theorem ended_of_after {α : Type} {m : Solver α} {next : Option α → Context → Session} (ht : s.after m next = some t)
    (hnext : ∀ r d, (next r d).context = d) : ∃ r, m.ended s.context = some (r, t.context) := by
  obtain ⟨r, d, hr, rfl⟩ := after_eq_some ht
  exact ⟨r, by rw [hr, hnext]⟩

theorem ended_discard_of_after {α : Type} {m : Solver α} {next : Option α → Context → Session}
    (ht : s.after m next = some t) (hnext : ∀ r d, (next r d).context = d) :
    ∃ r, (do let _ ← m : Solver Unit).ended s.context = some (r, t.context) :=
  have ⟨_, hr⟩ := ended_of_after ht hnext
  ended_discard hr

/-- **Where a call leads, its program has ended.** -/
theorem ended_of_call (ht : s.call k = some t) : ∃ r, k.program.ended s.context = some (r, t.context) := by
  unfold Session.call at ht
  cases k with
  | freshAtom => exact ended_discard_of_after ht fun _ _ => rfl
  | addClause clause => exact ended_discard_of_after ht fun r _ => by cases r <;> rfl
  | readDimacs lines =>
    -- reading leads where the requests of the text do, whatever holds on the way
    have hbuilding : Building fun _ => True := ⟨fun _ _ => meets_of_cases (fun _ _ _ => trivial) fun _ _ _ => trivial,
      fun _ _ _ => meets_of_cases (fun _ _ _ => trivial) fun _ _ _ => trivial⟩
    obtain ⟨r, d, hr, rfl⟩ := after_eq_some ht
    have hd := (hbuilding.readAll trivial lines).of_ended (P := fun _ d => _ ∧ _ = d) hr
    exact ended_discard (hd.2 ▸ hr)
  | solve fuel => exact ended_discard_of_after ht fun _ _ => rfl
  | solveGiven fuel assumptions => exact ended_discard_of_after (Option.ite_none_right_eq_some.1 ht).2 fun _ _ => rfl
  | simplify => exact ended_of_after ht fun _ _ => rfl
  | reduce => exact ended_of_after ht fun _ _ => rfl
  | decide l => exact ended_discard_of_after ht fun _ _ => rfl
  | undo l => exact ended_of_after ht fun _ _ => rfl
  | assertHere =>
    dsimp only at ht
    split at ht
    · cases ht
    · exact ended_discard_of_after ht fun _ _ => rfl
  | countModels => exact ended_discard_of_after ht fun _ _ => rfl
  | findModel fuel => exact ended_discard_of_after ht fun _ _ => rfl

/-- A call leads to where its program is known to end. -/
theorem meets_call {P : Context → Prop} (h : Meets k.program s.context (fun _ => P) P) (ht : s.call k = some t) :
    P t.context := by
  obtain ⟨r, hr⟩ := ended_of_call ht
  exact h.of_ended (P := fun _ => P) hr

/-- **Every call keeps what every program does.** -/
theorem kept_call (ht : s.call k = some t) : Kept s.context t.context :=
  meets_call (within_program (R := Kept) (fun _ _ => ⟨rfl, rfl, Nat.le_refl _, id⟩) k s.context).meets ht

theorem kept_run : ∀ (calls : List Call) {s t : Session}, s.run calls = some t → Kept s.context t.context
  | [], _, _, ht => by
    cases ht
    exact Chained.refl _
  | _ :: rest, _, _, ht => by
    obtain ⟨u, hu, ht⟩ := Option.bind_eq_some_iff.1 ht
    exact Chained.trans (kept_call hu) (kept_run rest ht)

/-! ## Sessions that are followed -/

/-- A session that a run of calls leads to, with options and listeners that may change between the calls.  A clause may have
been overtaken when it was asserted, if only its first literal had no value. -/
inductive Followed : Session → Prop
  | start (options : Options) (random : Chance) : Followed (start options random)
  | equip {s : Session} (h : Followed s) (options : Options) (listeners : Listeners) :
    Followed (s.goTo { s.context with options, listeners })
  | call {s t : Session} {k : Call} (h : Followed s) (ht : s.call k = some t) : Followed t
  | assert {s t : Session} (h : Followed s) (hfree : s.context.Assertable)
    (ht : s.after Solver.assertHere (fun _ => s.forget) = some t) : Followed t

theorem Followed.run : ∀ (calls : List Call) {s t : Session}, s.Followed → s.run calls = some t → t.Followed
  | [], _, _, h, ht => by
    cases ht
    exact h
  | _ :: rest, _, _, h, ht => by
    obtain ⟨u, hu, ht⟩ := Option.bind_eq_some_iff.1 ht
    exact Followed.run rest (h.call hu) ht

theorem Followed.owing (h : s.Followed) : Owing s := by
  induction h with
  | start options random => exact (Orderly.start options random).owing
  | equip _ options listeners ih => exact ih.equip options listeners
  | call _ ht ih => exact ih.call ht
  | assert _ hfree ht ih => exact meets_after (ih.assert hfree) ht

theorem Followed.held (h : s.Followed) : Held (· = 0) s := h.owing.toHeld

/-- **Between calls the root level is zero.** -/
theorem Followed.root (h : s.Followed) : s.context.trail.root = 0 := by
  induction h with
  | start options random => rfl
  | equip _ _ _ ih => exact ih
  | @call s t k _ ht ih =>
    have hsolve : ∀ fuel assumptions, Leads SameRoot s.context (solveGiven fuel assumptions) s.context :=
      fun fuel assumptions => ⟨(meets_solveGiven_root ih).mono (fun _ _ hd => hd.trans ih.symm) fun _ hd => hd.trans ih.symm,
        fun _ _ _ => trivial⟩
    exact (meets_call (leads_program (R := SameRoot) (fun _ _ => rfl) (fun _ => rfl) hsolve k).meets ht).trans ih
  | @assert s t _ _ ht ih =>
    exact (meets_after (P := fun t => SameRoot s.context t.context) (within_assertHere (R := SameRoot) s.context).meets ht).trans ih

end Session
end Cdcl
