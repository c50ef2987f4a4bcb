import Cdcl.Proofs.Calls
import Cdcl.Proofs.Steps
/-!
# Passage — what is kept up to every step of a call

A relation that every program of a context keeps relates where a call starts to every context that it takes a step in
(`Session.passes_steps`): a step is reached through programs, each of which has ended.  So where the store counts what it
holds before a call, it does so wherever the call takes a step (`Session.tallied_of_steps`), and only a solve takes steps above
a root level of zero (`Session.root_of_steps`).
-/
namespace Cdcl

open Run Context Solver

variable {α : Type} {R : Context → Context → Prop}

namespace Steps

/-- Whatever step is taken, a relation is kept up to there. -/
def Passes (R : Context → Context → Prop) (p : Steps) : Prop := ∀ c, p.All c fun _ d => R c d

theorem passes_nil : nil.Passes R := fun _ => all_nil

theorem passes_ite {b : Context → Prop} [DecidablePred b] {x y : Steps} (hx : x.Passes R) (hy : y.Passes R) :
    Passes R fun c => if b c then x c else y c := fun c => all_ite (fun _ => hx c) fun _ => hy c

section

variable [Chained R] {m : Solver α} {p : Steps} {q : α → Steps}

theorem passes_take (step : Step) : (take step).Passes R := fun c => all_take (Chained.refl c)

/-- **What is kept by a program is kept up to the steps after it**, if these keep it. -/
theorem passes_after (hm : Within R m) (hq : ∀ a, (q a).Passes R) : (after m q).Passes R := fun c =>
  all_after (hm c).meets fun a e he st d hst => Chained.trans he (hq a e st d hst)

theorem passes_seq (hp : p.Passes R) (hm : Within R m) (hq : ∀ a, (q a).Passes R) : (seq m p q).Passes R :=
  fun c st d hst => hst.elim (hp c st d) (passes_after hm hq c st d)

end

end Steps

namespace Solver

open Steps

/-- The steps of a search go on where it gives no answer. -/
theorem passes_answered {next : Steps} (h : next.Passes R) (answer : Option SolveState) :
    Passes R (match answer with
      | some _ => nil
      | none => next) := by
  cases answer with
  | some state => exact passes_nil
  | none => exact h

theorem passes_simplify [Chained R] : simplify.steps.Passes R := by
  rintro c st d (hst | ⟨-, -, hst⟩)
  · exact passes_take .simplify c st d hst
  · exact passes_take .propagate c st d hst

section

variable [Lasting R]

/-! ## A search -/

theorem passes_atConflict (conflict : Conflict) : (atConflict.steps conflict).Passes R :=
  passes_after (within_modify Pursuing.clashed) fun _ =>
    passes_ite passes_nil (passes_ite passes_nil (passes_take _))

theorem passes_simplifyAtRoot : simplifyAtRoot.steps.Passes R := passes_ite passes_simplify passes_nil

theorem passes_atRest (budget : Option Nat) : (atRest.steps budget).Passes R := by
  refine passes_ite passes_nil (passes_seq passes_simplifyAtRoot within_simplifyAtRoot fun stop => ?_)
  exact passes_ite passes_nil (passes_ite (passes_take _) passes_nil)

theorem passes_searchFor {budget : Option Nat} : ∀ fuel : Nat, (searchFor.steps budget fuel).Passes R
  | 0 => passes_nil
  | fuel + 1 => by
    have hnext := passes_answered (@passes_searchFor budget fuel)
    refine passes_seq (passes_take _) within_propagate fun result => ?_
    cases result with
    | conflict conflict => exact passes_seq (passes_atConflict conflict) (within_atConflict conflict) hnext
    | corrupt => exact passes_nil
    | complete => exact passes_seq (passes_atRest budget) (within_atRest budget) hnext

theorem passes_search {fuel : Nat} {budget : Option Nat} : (search.steps fuel budget).Passes R :=
  passes_after (within_modify fun _ => Enduring.beside ⟨rfl, rfl, rfl, rfl, id, rfl, Nat.le_refl _, id⟩)
    fun _ => passes_searchFor fuel

/-! ## A solve -/

theorem passes_assumeEach : ∀ assumptions : List Literal, (assumeEach.steps assumptions).Passes R
  | [] => passes_nil
  | l :: rest => by
    intro c
    unfold assumeEach.steps
    intro st d
    dsimp only
    cases c.atoms.standing l with
    | holds => exact passes_after (within_modify Stepped.opened) (fun _ => passes_assumeEach rest) c st d
    | free =>
      refine passes_after (within_bind (within_modify Stepped.opened) fun _ => within_assign) (fun _ =>
        passes_seq (passes_take _) within_propagate fun result => ?_) c st d
      cases result with
      | complete => exact passes_assumeEach rest
      | _ => exact passes_nil
    | _ => exact passes_nil c st d

theorem passes_searchAll {conflictsBefore : Nat} : ∀ (fuel : Nat) (luby : Luby),
    (searchAll.steps conflictsBefore fuel luby).Passes R
  | 0, _ => passes_nil
  | fuel + 1, luby => by
    refine passes_after within_nextBudget fun next => ?_
    cases next with
    | none => exact passes_nil
    | some next =>
      refine passes_seq passes_search within_search fun state => ?_
      cases state with
      | unknown =>
        refine passes_after (within_bind (within_modify fun _ =>
          Enduring.beside ⟨rfl, rfl, rfl, rfl, id, rfl, Nat.le_refl _, id⟩) fun _ => within_askStop) fun stop => ?_
        cases stop with
        | true => exact passes_nil
        | false => exact passes_searchAll fuel next.2
      | _ => exact passes_nil

theorem passes_prepare : prepare.steps.Passes R := passes_ite passes_simplify (passes_take _)

theorem passes_solveFromRoot {fuel : Nat} {assumptions : List Literal} :
    (solveFromRoot.steps fuel assumptions).Passes R := by
  refine passes_seq passes_prepare within_prepare fun _ => passes_ite passes_nil (passes_after ?_ fun _ => ?_)
  · exact within_bind within_startSchedule fun _ => within_modify fun _ =>
      Enduring.beside (.of_eq rfl rfl rfl rfl rfl rfl rfl rfl)
  · refine passes_seq (passes_assumeEach assumptions) (within_assumeEach assumptions) fun failed => ?_
    cases failed with
    | true => exact passes_nil
    | false => exact fun c => passes_searchAll fuel _ c

theorem passes_returnToRoot : returnToRoot.steps.Passes R :=
  passes_after (within_bind within_backjump fun _ => within_modify fun _ =>
    Enduring.beside (.of_eq rfl rfl rfl rfl rfl rfl rfl rfl)) fun _ =>
      passes_after (within_bind (within_modifyGet Lasting.cleared) fun _ => within_assignUnits _) fun _ => passes_take _

theorem passes_solveGiven {fuel : Nat} {assumptions : List Literal} : (solveGiven.steps fuel assumptions).Passes R := by
  refine passes_after (within_modify fun _ => Enduring.of_eq rfl rfl rfl rfl rfl rfl) fun _ =>
    passes_ite passes_nil (passes_ite passes_nil (passes_after ?_ fun _ =>
      passes_seq passes_solveFromRoot (within_attempt within_solveFromRoot) fun _ => passes_returnToRoot))
  exact within_bind within_backjump fun _ => within_modify fun _ => Enduring.of_eq rfl rfl rfl rfl rfl rfl

end

/-! ## Decisions from outside -/

section

variable [Telling R]

theorem passes_propagateDecision : propagateDecision.steps.Passes R := by
  refine passes_seq (passes_take _) within_propagate fun result => ?_
  cases result with
  | conflict conflict =>
    exact passes_after (within_modify Tolerant.conflict) fun _ => passes_ite passes_nil (passes_take _)
  | _ => exact passes_nil

theorem passes_decide (l : Literal) : (decide.steps l).Passes R := by
  refine passes_ite passes_nil (passes_after within_record fun r => passes_ite passes_nil ?_)
  exact passes_after (within_bind within_forget fun _ => within_decideLiteral) fun _ => passes_propagateDecision

theorem passes_assertPending : assertPending.steps.Passes R := by
  intro c
  unfold assertPending.steps
  intro st d
  dsimp only
  cases c.pending with
  | none => exact passes_nil c st d
  | some pending =>
    exact passes_after (within_bind within_forget fun _ => within_learn _) (fun _ => passes_propagateDecision) c st d

theorem passes_assertHere : assertHere.steps.Passes R := passes_ite passes_assertPending passes_nil

theorem passes_findModel : ∀ fuel : Nat, (findModel.steps fuel).Passes R
  | 0 => passes_nil
  | fuel + 1 => by
    refine fun c => all_ite (fun _ => all_nil) fun _ => ?_
    intro st d
    dsimp only
    cases c.atoms.firstFree? with
    | none => exact passes_nil c st d
    | some a =>
      refine passes_seq (passes_decide _) within_decide (fun decided => passes_seq ?_ ?_ fun found => ?_) c st d
      · cases decided with
        | true => exact passes_findModel fuel
        | false => exact passes_nil
      · exact within_ite (fun _ => within_findModel fuel) fun _ => within_pure
      · cases found with
        | true => exact passes_nil
        | false =>
          refine passes_after within_undo fun _ => passes_seq passes_assertHere within_assertIfHere fun answer => ?_
          rcases answer with _ | _ | _
          · exact passes_nil
          · exact passes_nil
          · exact passes_findModel fuel

theorem passes_countModelsFor : ∀ depth : Nat, (countModelsFor.steps depth).Passes R
  | 0 => passes_nil
  | depth + 1 => by
    have hbranch : ∀ l : Literal, (seq (decide l) (decide.steps l) fun decided =>
        if decided then countModelsFor.steps depth else nil).Passes R := fun l =>
      passes_seq (passes_decide l) within_decide fun decided => by
        cases decided with
        | true => exact passes_countModelsFor depth
        | false => exact passes_nil
    refine fun c => all_ite (fun _ => all_nil) fun _ => ?_
    intro st d
    dsimp only
    cases c.atoms.firstFree? with
    | none => exact passes_nil c st d
    | some a =>
      exact passes_seq (hbranch _) (within_countBranch (within_countModelsFor depth) _) (fun _ => hbranch _) c st d

/-! ## Adding clauses -/

theorem passes_install : ∀ clause : Clause, (install.steps clause).Passes R
  | [] => passes_nil
  | [_] => passes_after within_assign fun _ => passes_take _
  | _ :: _ :: _ => passes_nil

theorem passes_addClause (hinput : ∀ c, R c { c with state := .input }) (clause : Clause) :
    (addClause.steps clause).Passes R := by
  refine passes_ite passes_nil (passes_ite passes_nil (passes_ite passes_nil ?_))
  refine passes_ite passes_nil (passes_ite passes_nil fun c => ?_)
  exact passes_after (within_modify hinput) (fun _ => passes_install _) c

theorem passes_perform (hatoms : ∀ (c : Context) (atoms : AtomTable), R c { c with atoms })
    (hinput : ∀ c, R c { c with state := .input }) : ∀ requests : List Dimacs.Request, (perform.steps requests).Passes R
  | [] => passes_nil
  | .atoms _ :: rest => passes_after (within_bind within_get fun _ => within_bind
      (within_freshAtoms (within_freshAtom hatoms) _) fun _ => within_pure) fun _ => passes_perform hatoms hinput rest
  | .clause clause :: rest => passes_seq (passes_addClause hinput clause) (within_addClause hinput clause)
      fun _ => passes_perform hatoms hinput rest

end

end Solver

namespace Session

variable {s : Session} {k : Call} {st : Step} {d : Context}

/-- **What decisions from outside keep is kept up to every step of a call**, if adding atoms and clauses keeps it, and the
steps of a solve that is called. -/
theorem passes_steps [Telling R] (hatoms : ∀ (c : Context) (atoms : AtomTable), R c { c with atoms })
    (hinput : ∀ c, R c { c with state := .input })
    (hsolve : k.Solves → ∀ fuel assumptions, (solveGiven.steps fuel assumptions).Passes R)
    (hst : s.steps k s.context st d) : R s.context d := by
  unfold Session.steps at hst
  cases k with
  | freshAtom => exact hst.elim
  | undo l => exact hst.elim
  | addClause clause => exact passes_addClause hinput clause _ st d hst
  | readDimacs lines => exact passes_perform hatoms hinput _ _ st d hst
  | solve fuel => exact hsolve trivial fuel [] _ st d hst
  | solveGiven fuel assumptions =>
    dsimp only at hst
    split at hst
    · exact hsolve trivial fuel assumptions _ st d hst
    · exact hst.elim
  | simplify => exact passes_simplify _ st d hst
  | reduce => exact Steps.passes_take .reduce _ st d hst
  | decide l => exact passes_decide l _ st d hst
  | assertHere =>
    dsimp only at hst
    split at hst
    · exact hst.elim
    · exact passes_assertHere _ st d hst
  | countModels => exact passes_countModelsFor _ _ st d hst
  | findModel fuel => exact passes_findModel fuel _ st d hst

/-- **Every run counts the clauses it stores.** -/
theorem Followed.tallied (h : s.Followed) : s.context.clauses.Tallied := by
  induction h with
  | start options random => exact ClauseStore.tallied_make _
  | equip _ _ _ ih => exact ih
  | call _ ht ih => exact (kept_call ht).tallied ih
  | @assert s t _ _ ht ih =>
    exact (meets_after (P := fun t => Kept s.context t.context) (within_assertHere (R := Kept) s.context).meets ht).tallied ih

/-- **Wherever a call takes a step the store counts what it holds**, if it does before the call. -/
theorem tallied_of_steps (hs : s.context.clauses.Tallied) (hst : s.steps k s.context st d) : d.clauses.Tallied :=
  (passes_steps (R := Kept) (fun _ _ => ⟨rfl, rfl, Nat.le_refl _, id⟩) (fun _ => Enduring.of_eq rfl rfl rfl rfl rfl rfl)
    (fun _ _ _ => passes_solveGiven) hst).tallied hs

/-- **But for a solve, a call takes its steps at a root level of zero.** -/
theorem root_of_steps (h : s.Followed) (hk : ¬k.Solves) (hst : s.steps k s.context st d) : d.trail.root = 0 :=
  (passes_steps (R := SameRoot) (fun _ _ => rfl) (fun _ => rfl) (fun hs => absurd hs hk) hst).trans h.root

end Session
end Cdcl
