import Cdcl.Proofs.FloatSigns
import Cdcl.Options.Declared
import Cdcl.Proofs.Frame
import Cdcl.Solver.Building
import Cdcl.Solver.Exhaustive
/-!
# Tolerance — what decisions, searches and solves leave as it is

A relation that the steps of a search keep is kept by simplifications too, if it holds where the state comes to tell that
there is no model (`Refutable`); by decisions from outside, if it does not tell of what they note (`Tolerant`) and of what is
told of learnt clauses (`Telling`); and by a search, if it holds from where a clause is told of to where it is stored
(`Pursuing`).  A relation that tells of nothing but assignments, of the way back and of who is told is kept by all that a
solve does at its assumptions and above them (`Enduring`), and, where the units on the way may be forgotten, by every
program of a context (`Lasting`).

One such relation is kept by every program of a context: options stay, conflicts are not forgotten, nobody else comes to
hear of values undone, and the store counts what it holds (`Kept`).  Between the conflicts of a search more can be said of
what is counted: every conflict counts for the search as well, and the countdown to the next growth does not end below zero
(`Going`).
-/
namespace Cdcl

namespace Context

variable {c d : Context}

/-- What every program of a context keeps. -/
structure Kept (c d : Context) : Prop where
  options : d.options = c.options
  onUnassign : d.listeners.onUnassign = c.listeners.onUnassign
  conflicts : c.counters.conflicts ≤ d.counters.conflicts
  tallied : c.clauses.Tallied → d.clauses.Tallied

/-- The countdown to the next growth of the limit on learnt clauses is not below zero, nor is the next one. -/
structure Paced (c : Context) : Prop where
  adjustIn : 0 ≤ c.schedule.adjustIn
  adjustEvery : ¬c.schedule.adjustEvery < 0.0

/-- What leaves the countdown alone. -/
structure Unhurried (c d : Context) : Prop where
  adjustIn : d.schedule.adjustIn = c.schedule.adjustIn
  adjustEvery : d.schedule.adjustEvery = c.schedule.adjustEvery

theorem Unhurried.paced (h : Unhurried c d) (hp : c.Paced) : d.Paced :=
  ⟨h.adjustIn ▸ hp.adjustIn, h.adjustEvery ▸ hp.adjustEvery⟩

/-- What a search keeps. -/
structure Going (c d : Context) : Prop extends Kept c d where
  fresh : d.counters.conflicts + c.counters.freshConflicts = c.counters.conflicts + d.counters.freshConflicts
  paced : c.options.Declared → c.Paced → d.Paced

theorem Still.kept (h : Still c d) : Kept c d :=
  ⟨h.options, h.onUnassign, Nat.le_of_eq h.conflicts.symm, h.tallied⟩

theorem Still.unhurried (h : Still c d) : Unhurried c d := ⟨h.adjustIn, h.adjustEvery⟩

theorem Still.going (h : Still c d) : Going c d where
  toKept := h.kept
  fresh := by rw [h.conflicts, h.freshConflicts]
  paced _ hp := h.unhurried.paced hp

/-- What is done has nothing to do with assignments, nor with who is told of what. -/
structure Beside (c d : Context) : Prop where
  options : d.options = c.options
  listeners : d.listeners = c.listeners
  literals : d.trail.literals = c.trail.literals
  starts : d.trail.starts = c.trail.starts
  head : c.trail.head ≤ c.trail.size → d.trail.head ≤ d.trail.size
  units : d.pendingUnits = c.pendingUnits
  conflicts : c.counters.conflicts ≤ d.counters.conflicts
  tallied : c.clauses.Tallied → d.clauses.Tallied

theorem Unseen.beside (h : Unseen c d) : Beside c d :=
  ⟨h.options, h.listeners, h.literals, h.starts, h.head, h.units, Nat.le_of_eq h.conflicts.symm, h.tallied⟩

theorem Beside.of_eq (hoptions : d.options = c.options) (hlisteners : d.listeners = c.listeners)
    (hliterals : d.trail.literals = c.trail.literals) (hstarts : d.trail.starts = c.trail.starts)
    (hhead : d.trail.head = c.trail.head) (hunits : d.pendingUnits = c.pendingUnits)
    (hconflicts : d.counters.conflicts = c.counters.conflicts) (hclauses : d.clauses = c.clauses) : Beside c d :=
  ⟨hoptions, hlisteners, hliterals, hstarts, fun h => by simpa only [hhead, Trail.size, hliterals] using h, hunits,
    Nat.le_of_eq hconflicts.symm, hclauses ▸ id⟩

theorem Beside.kept (h : Beside c d) : Kept c d := ⟨h.options, congrArg Listeners.onUnassign h.listeners, h.conflicts, h.tallied⟩

end Context

namespace Solver

open Run Context

variable {α : Type} {R : Context → Context → Prop} {l : Literal}

/-! ## Relations -/

/-- A relation that the steps of a search keep, and that holds where it is found out that there is no model. -/
class Refutable (R : Context → Context → Prop) extends Stepped R where
  refuted : ∀ c, R c { c with state := .unsatisfiable }

/-- A relation that does not tell of what decisions from outside note. -/
class Tolerant (R : Context → Context → Prop) extends Refutable R where
  conflict : ∀ c, R c { c with counters := { c.counters with conflicts := c.counters.conflicts + 1 } }
  noted : ∀ (c : Context) (pending : Option LearntClause) (failed : List Literal) (dirty : Bool),
    R c { c with pending, failed, dirty }

/-- A relation that does not tell of what is told of learnt clauses either. -/
class Telling (R : Context → Context → Prop) extends Tolerant R where
  told : ∀ (c : Context) (clause : Clause), R c { c with listeners := c.listeners.learnt clause }

/-- What happens to a clause that a search learns: it is told of, and stored at the level where it asserts. -/
def tellAndLearn (clause : Clause) (target : Nat) : Solver Unit := do
  modify fun c => { c with listeners := c.listeners.learnt clause }
  backjump target
  learn clause

/-- A relation that a search keeps. -/
class Pursuing (R : Context → Context → Prop) extends Refutable R where
  clashed : ∀ c, R c { c with counters := { c.counters with
    conflicts := c.counters.conflicts + 1, freshConflicts := c.counters.freshConflicts + 1 } }
  found : ∀ (c : Context) (model : Array Bool) (failed : List Literal), R c { c with model, failed }
  decayed : ∀ c, R c { c with clauses := c.clauses.decay }
  counted : Within R countdown
  learns : ∀ clause target, Within R (tellAndLearn clause target)

/-- A relation that tells of nothing but assignments, of the way back and of who is told. -/
class Enduring (R : Context → Context → Prop) extends Stepped R where
  beside : ∀ {c d}, Beside c d → R c d
  asked : ∀ c, R c { c with listeners := c.listeners.ask.2 }
  learns : ∀ clause target, Within R (tellAndLearn clause target)

/-- A relation that every program of a context keeps. -/
class Lasting (R : Context → Context → Prop) extends Enduring R where
  told : ∀ (c : Context) (clause : Clause), R c { c with listeners := c.listeners.learnt clause }
  cleared : ∀ c, R c { c with pendingUnits := #[] }

theorem within_tellAndLearn [Stepped R] {clause : Clause} {target : Nat}
    (htold : ∀ c : Context, R c { c with listeners := c.listeners.learnt clause }) :
    Within R (tellAndLearn clause target) :=
  within_bind (within_modify htold) fun _ => within_bind within_backjump fun _ => within_learn clause

theorem Enduring.of_eq [Enduring R] {c d : Context} (hoptions : d.options = c.options)
    (hlisteners : d.listeners = c.listeners) (htrail : d.trail = c.trail) (hunits : d.pendingUnits = c.pendingUnits)
    (hcounters : d.counters = c.counters) (hclauses : d.clauses = c.clauses) : R c d :=
  Enduring.beside (.of_eq hoptions hlisteners (htrail ▸ rfl) (htrail ▸ rfl) (htrail ▸ rfl) hunits (hcounters ▸ rfl) hclauses)

theorem within_countdown [Enduring R] : Within R countdown :=
  within_bind within_get fun _ => within_bind within_require fun _ => within_ite
    (fun _ => within_modify fun _ => Enduring.of_eq rfl rfl rfl rfl rfl rfl)
    fun _ => within_modify fun _ => Enduring.of_eq rfl rfl rfl rfl rfl rfl

instance [Enduring R] : Refutable R where
  refuted _ := Enduring.of_eq rfl rfl rfl rfl rfl rfl

instance [Enduring R] : Tolerant R where
  conflict _ := Enduring.beside ⟨rfl, rfl, rfl, rfl, id, rfl, Nat.le_succ _, id⟩
  noted _ _ _ _ := Enduring.of_eq rfl rfl rfl rfl rfl rfl

instance [Enduring R] : Pursuing R where
  clashed _ := Enduring.beside ⟨rfl, rfl, rfl, rfl, id, rfl, Nat.le_succ _, id⟩
  found _ _ _ := Enduring.of_eq rfl rfl rfl rfl rfl rfl
  decayed _ := Enduring.beside ⟨rfl, rfl, rfl, rfl, id, rfl, Nat.le_refl _, fun h => h.decay⟩
  counted := within_countdown
  learns := Enduring.learns

instance [Lasting R] : Telling R where
  told := Lasting.told

instance : Chained Kept where
  refl _ := ⟨rfl, rfl, Nat.le_refl _, id⟩
  trans h h' := ⟨h'.options.trans h.options, h'.onUnassign.trans h.onUnassign, Nat.le_trans h.conflicts h'.conflicts,
    h'.tallied ∘ h.tallied⟩

instance : Stepped Kept := .ofStill (fun _ _ => trivial) Still.kept

instance : Lasting Kept where
  beside := Beside.kept
  asked _ := ⟨rfl, Listeners.onUnassign_ask, Nat.le_refl _, id⟩
  learns _ _ := within_tellAndLearn fun _ => ⟨rfl, Listeners.onUnassign_learnt, Nat.le_refl _, id⟩
  told _ _ := ⟨rfl, Listeners.onUnassign_learnt, Nat.le_refl _, id⟩
  cleared _ := ⟨rfl, rfl, Nat.le_refl _, id⟩

instance : Chained Unhurried where
  refl _ := ⟨rfl, rfl⟩
  trans h h' := ⟨h'.adjustIn.trans h.adjustIn, h'.adjustEvery.trans h.adjustEvery⟩

instance : Stepped Unhurried := .ofStill (fun _ _ => trivial) Still.unhurried

instance : Tolerant Unhurried where
  refuted _ := ⟨rfl, rfl⟩
  conflict _ := ⟨rfl, rfl⟩
  noted _ _ _ _ := ⟨rfl, rfl⟩

instance : Chained Going where
  refl c := ⟨Chained.refl c, rfl, fun _ => id⟩
  trans h h' := by
    refine ⟨Chained.trans h.toKept h'.toKept, ?_, fun ho hp => h'.paced (h.options ▸ ho) (h.paced ho hp)⟩
    have := h.fresh
    have := h'.fresh
    omega

instance : Stepped Going := .ofStill (fun _ _ => trivial) Still.going

/-- **A countdown does not end below zero**, nor does the next one, by the declared bounds of the growth. -/
theorem going_countdown : Within Going countdown := fun c => by
  refine ⟨?_, fun _ _ _ => trivial⟩
  unfold countdown
  rw [meets_bind, meets_get, meets_bind, meets_require]
  intro _
  rw [meets_ite]
  refine ⟨fun _ => ⟨⟨rfl, rfl, Nat.le_refl _, id⟩, rfl, fun ho hp => ?_⟩, fun hleft =>
    ⟨⟨rfl, rfl, Nat.le_refl _, id⟩, rfl, fun _ hp => ⟨Int.le_of_lt (Int.not_le.1 hleft), hp.adjustEvery⟩⟩⟩
  have hevery := FloatSigns.not_lt_zero_mul hp.adjustEvery (FloatSigns.not_lt_zero_of_one_le ho.clauses.adjustGrowth.le_value)
  exact ⟨wholePart_nonneg hevery, hevery⟩

instance : Pursuing Going where
  refuted _ := ⟨⟨rfl, rfl, Nat.le_refl _, id⟩, rfl, fun _ hp => ⟨hp.adjustIn, hp.adjustEvery⟩⟩
  clashed _ := ⟨⟨rfl, rfl, Nat.le_succ _, id⟩, by dsimp only; omega, fun _ hp => ⟨hp.adjustIn, hp.adjustEvery⟩⟩
  found _ _ _ := ⟨⟨rfl, rfl, Nat.le_refl _, id⟩, rfl, fun _ hp => ⟨hp.adjustIn, hp.adjustEvery⟩⟩
  decayed _ := ⟨⟨rfl, rfl, Nat.le_refl _, fun h => h.decay⟩, rfl, fun _ hp => ⟨hp.adjustIn, hp.adjustEvery⟩⟩
  counted := going_countdown
  learns _ _ := within_tellAndLearn fun _ =>
    ⟨⟨rfl, Listeners.onUnassign_learnt, Nat.le_refl _, id⟩, rfl, fun _ hp => ⟨hp.adjustIn, hp.adjustEvery⟩⟩

/-! ## Simplification and decisions -/

section

variable [Refutable R]

theorem within_refute : Within R (setState .unsatisfiable) := within_modify Refutable.refuted

theorem within_simplify : Within R simplify := by
  refine within_bind within_get fun _ => within_ite (fun _ => within_fail) fun _ => within_ite (fun _ => within_pure)
    fun _ => within_bind within_propagate fun result => ?_
  split
  · exact within_refute
  · exact within_fail
  · exact within_bind within_get fun _ => within_ite (fun _ => within_pure) fun _ => within_simplifyAll

end

section

variable [Telling R]

theorem within_propagateDecision : Within R propagateDecision := by
  refine within_bind within_propagate fun result => ?_
  split
  · exact within_pure
  · exact within_fail
  · refine within_bind (within_modify Tolerant.conflict) fun _ => within_bind within_get fun _ => ?_
    refine within_ite (fun _ => within_bind (within_failedByConflict _) fun failed => ?_)
      fun _ => within_bind (within_analyzeConflict Telling.told _) fun learnt => ?_
    · exact within_bind (within_modify fun c =>
        Chained.trans (Refutable.refuted c) (Tolerant.noted { c with state := .unsatisfiable } none failed c.dirty))
          fun _ => within_pure
    · exact within_bind (within_modify fun c => Tolerant.noted c (some learnt) c.failed c.dirty) fun _ => within_pure

theorem within_forget : Within R (modify ({ · with pending := none })) :=
  within_modify fun c => Tolerant.noted c none c.failed c.dirty

theorem within_decide : Within R (decide l) := by
  refine within_bind within_get fun _ => within_ite (fun _ => within_pure) fun _ => within_bind within_record fun _ => ?_
  refine within_ite (fun _ => within_bind within_refuse fun _ => ?_) fun _ => ?_ <;>
  exact within_bind within_forget fun _ => within_bind within_decideLiteral fun _ => within_propagateDecision

theorem within_undo : Within R (undo l) := by
  refine within_bind within_record fun r => ?_
  split
  · exact within_refuse
  · exact within_refuse
  · exact within_bind within_backjump fun _ => within_modify fun c => Tolerant.noted c c.pending c.failed false

theorem within_assertPending : Within R assertPending := by
  refine within_bind within_get fun c => ?_
  split
  · exact within_fail
  · exact within_bind within_forget fun _ => within_bind (within_learn _) fun _ => within_propagateDecision

theorem within_assertHere : Within R assertHere :=
  within_bind within_get fun _ => within_ite (fun _ => within_assertPending) fun _ => within_refuse

theorem within_assertIfHere : Within R assertIfHere :=
  within_bind within_get fun _ => within_ite (fun _ => within_bind within_assertPending fun _ => within_pure) fun _ =>
    within_pure

theorem within_stepBack {fuel : Nat} (h : Within R (findModel fuel)) (l : Literal) : Within R (do
    undo l
    match ← assertIfHere with
    | some true => findModel fuel
    | _ => pure false) := by
  refine within_bind within_undo fun _ => within_bind within_assertIfHere fun asserted => ?_
  split
  · exact h
  · exact within_pure

theorem within_findModel : ∀ fuel : Nat, Within R (findModel fuel)
  | 0 => within_throw
  | fuel + 1 => by
    have hback := within_stepBack (within_findModel fuel)
    unfold findModel
    refine within_bind within_get fun c => within_ite (fun _ => within_pure) fun _ => ?_
    split
    · exact within_pure
    · exact within_bind within_decide fun _ => within_ite
        (fun _ => within_bind (within_findModel fuel) fun _ => within_ite (fun _ => within_pure) fun _ => hback _)
        fun _ => hback _

theorem within_countBranch {depth : Nat} (h : Within R (countModelsFor depth)) (l : Literal) :
    Within R (countModelsFor.countBranch depth l) := by
  have hback : ∀ n : Nat, Within R (do
      undo l
      pure n) := fun _ => within_bind within_undo fun _ => within_pure
  unfold countModelsFor.countBranch
  exact within_bind within_decide fun _ => within_ite (fun _ => within_bind h hback) fun _ => hback 0

theorem within_countModelsFor : ∀ depth : Nat, Within R (countModelsFor depth)
  | 0 => by
    unfold countModelsFor
    exact within_throw
  | depth + 1 => by
    have hbranch := within_countBranch (within_countModelsFor depth)
    unfold countModelsFor
    refine within_bind within_get fun c => within_ite (fun _ => within_pure) fun _ => ?_
    split
    · exact within_pure
    · exact within_bind (hbranch _) fun _ => within_bind (hbranch _) fun _ => within_bind within_require fun _ => within_pure

theorem within_countModels : Within R countModels := within_bind within_get fun _ => within_countModelsFor _

end

/-! ## Searches -/

section

variable [Pursuing R]

/-- What a search does with a clause it has learnt, told apart from the analysis. -/
theorem within_atConflict (conflict : Conflict) : Within R (atConflict conflict) := by
  refine within_bind (within_modify Pursuing.clashed) fun _ => within_bind within_get fun c => within_ite
    (fun _ => within_pure) fun _ => within_ite (fun _ => ?_) fun _ => ?_
  · exact within_bind (within_failedByConflict _) fun failed => within_bind
      (within_modify fun c => Pursuing.found c c.model failed) fun _ => within_pure
  · have hlearns : ∀ learnt : LearntClause, Within R (do
        tellAndLearn learnt.clause (max learnt.level c.trail.root)
        modify fun c => { c with clauses := c.clauses.decay }
        countdown
        pure (none : Option SolveState)) := fun learnt =>
      within_bind (Pursuing.learns _ _) fun _ => within_bind (within_modify Pursuing.decayed) fun _ =>
        within_bind Pursuing.counted fun _ => within_pure
    simp only [analyzeConflict, tellAndLearn, bind_assoc, pure_bind] at hlearns ⊢
    exact within_bind (within_deduce _) hlearns

theorem within_decideNext : Within R decideNext := by
  refine within_bind within_chooseDecision fun choice => ?_
  split
  · exact within_bind within_decideLiteral fun _ => within_pure
  · exact within_bind (within_modify fun c => Pursuing.found c (currentModel c) c.failed) fun _ => within_bind within_get
      fun _ => within_bind within_backjump fun _ => within_pure

theorem within_simplifyAtRoot : Within R simplifyAtRoot :=
  within_bind within_get fun _ => within_ite
    (fun _ => within_bind within_simplify fun _ => within_bind within_get fun _ => within_pure) fun _ => within_pure

theorem within_atRest (budget : Option Nat) : Within R (atRest budget) := by
  refine within_bind within_get fun _ => within_ite
    (fun _ => within_bind within_backjump fun _ => within_pure) fun _ => ?_
  refine within_bind within_simplifyAtRoot fun _ => within_ite (fun _ => within_pure) fun _ => within_bind within_get fun _ => ?_
  exact within_ite (fun _ => within_bind within_reduce fun _ => within_decideNext) fun _ => within_decideNext

/-- A search ends with an answer, or goes on. -/
theorem within_answered {next : Solver SolveState} (h : Within R next) (answer : Option SolveState) :
    Within R (match answer with
      | some state => pure state
      | none => next) := by
  cases answer with
  | some state => exact within_pure
  | none => exact h

theorem within_searchFor {budget : Option Nat} : ∀ fuel : Nat, Within R (searchFor budget fuel)
  | 0 => within_throw
  | fuel + 1 => by
    have hnext := within_answered (@within_searchFor budget fuel)
    unfold searchFor
    refine within_bind within_propagate fun result => ?_
    split
    · exact within_bind (within_atConflict _) hnext
    · exact within_bind within_fail hnext
    · exact within_bind (within_atRest budget) hnext

end

/-- **A search begins to count its conflicts from zero**, and each of them counts for the search as well. -/
theorem going_search {fuel : Nat} {budget : Option Nat} {c : Context} :
    Meets (search fuel budget) c (fun _ d => Going { c with counters := { c.counters with freshConflicts := 0 } } d)
      fun d => Going { c with counters := { c.counters with freshConflicts := 0 } } d :=
  (within_searchFor (R := Going) fuel _).meets

/-! ## Solves -/

/-- **Making assumptions keeps what decisions from outside keep.** -/
theorem within_assumeEach [Tolerant R] : ∀ assumptions : List Literal, Within R (assumeEach assumptions)
  | [] => within_pure
  | l :: rest => by
    have hfailed : ∀ failed : List Literal, Within R (do
        modify ({ · with failed })
        pure true) := fun failed =>
      within_bind (within_modify fun c => Tolerant.noted c c.pending failed c.dirty) fun _ => within_pure
    unfold assumeEach
    refine within_bind within_get fun c => ?_
    split
    · exact within_fault
    · exact within_bind (within_modify Stepped.opened) fun _ => within_assumeEach rest
    · exact within_bind within_failedByAssumption hfailed
    · refine within_bind (within_modify Stepped.opened) fun _ => within_bind within_assign fun _ =>
        within_bind within_propagate fun result => ?_
      split
      · exact within_assumeEach rest
      · exact within_bind (within_modify Tolerant.conflict) fun _ => within_bind (within_failedByConflict _) hfailed
      · exact within_fail

theorem within_prepare [Refutable R] : Within R prepare := by
  refine within_bind within_get fun _ => within_ite (fun _ => within_simplify) fun _ =>
    within_bind within_propagate fun result => ?_
  split
  · exact within_refute
  · exact within_pure

theorem within_nextBudget [Chained R] {luby : Luby} {conflictsBefore : Nat} : Within R (nextBudget luby conflictsBefore) :=
  within_bind within_get fun _ => within_ite (fun _ => within_pure) fun _ => within_bind within_require fun _ =>
    within_ite (fun _ => within_pure) fun _ => within_pure

theorem within_assignUnits [Refutable R] : ∀ units : List Literal, Within R (assignUnits units)
  | [] => within_pure
  | l :: rest => by
    unfold assignUnits
    exact within_bind within_enqueue fun _ => within_ite
      (fun _ => within_bind within_refute fun _ => within_assignUnits rest) fun _ => within_assignUnits rest

section

variable [Enduring R]

theorem within_search {fuel : Nat} {budget : Option Nat} : Within R (search fuel budget) :=
  within_bind (within_modify fun _ => Enduring.beside ⟨rfl, rfl, rfl, rfl, id, rfl, Nat.le_refl _, id⟩) fun _ =>
    within_searchFor fuel

theorem within_askStop : Within R askStop := within_modifyGet Enduring.asked

theorem within_searchAll {conflictsBefore : Nat} : ∀ (fuel : Nat) (luby : Luby),
    Within R (searchAll conflictsBefore fuel luby)
  | 0, _ => within_throw
  | fuel + 1, luby => by
    unfold searchAll
    refine within_bind within_nextBudget fun next => ?_
    split
    · exact within_pure
    · refine within_bind within_search fun state => ?_
      split
      · refine within_bind (within_modify fun _ => Enduring.beside ⟨rfl, rfl, rfl, rfl, id, rfl, Nat.le_refl _, id⟩)
          fun _ => within_bind within_askStop fun _ => within_ite (fun _ => within_pure) fun _ => within_searchAll fuel _
      · exact within_pure

theorem within_startSchedule : Within R startSchedule := within_modify fun _ => Enduring.of_eq rfl rfl rfl rfl rfl rfl

theorem within_solveFromRoot {fuel : Nat} {assumptions : List Literal} : Within R (solveFromRoot fuel assumptions) :=
  within_bind within_prepare fun _ => within_bind within_get fun _ => within_ite (fun _ => within_pure) fun _ =>
    within_bind within_startSchedule fun _ => within_bind
      (within_modify fun _ => Enduring.beside (.of_eq rfl rfl rfl rfl rfl rfl rfl rfl)) fun _ =>
      within_bind (within_assumeEach assumptions) fun _ => within_ite (fun _ => within_pure) fun _ =>
        within_bind within_get fun _ => within_searchAll fuel _

theorem within_conclude {state : SolveState} : Within R (conclude state) := by
  refine within_bind (within_modify fun c => ?_) fun _ => within_bind within_get fun _ => within_pure
  dsimp only
  split <;> split <;> exact Enduring.of_eq rfl rfl rfl rfl rfl rfl

end

theorem within_assignPendingUnits [Refutable R] (hcleared : ∀ c, R c { c with pendingUnits := #[] }) :
    Within R assignPendingUnits := by
  refine within_bind (within_modifyGet hcleared) fun _ => within_bind (within_assignUnits _) fun _ =>
    within_bind within_propagate fun result => ?_
  split
  · exact within_refute
  · exact within_pure

/-- **The way back to level zero keeps what the steps of a search keep**, if the units learnt on the way may be
forgotten. -/
theorem within_returnToRoot [Refutable R] (hroot : ∀ c, R c { c with trail := { c.trail with root := 0 } })
    (hcleared : ∀ c, R c { c with pendingUnits := #[] }) : Within R returnToRoot :=
  within_bind within_backjump fun _ => within_bind (within_modify hroot) fun _ => within_assignPendingUnits hcleared

/-- **A solve keeps what every program keeps.** -/
theorem within_solveGiven [Lasting R] {fuel : Nat} {assumptions : List Literal} :
    Within R (solveGiven fuel assumptions) := by
  have hreturn : Within R returnToRoot :=
    within_returnToRoot (fun _ => Enduring.beside (.of_eq rfl rfl rfl rfl rfl rfl rfl rfl)) Lasting.cleared
  refine within_bind (within_modify fun _ => Enduring.of_eq rfl rfl rfl rfl rfl rfl) fun _ =>
    within_bind within_get fun _ => within_ite (fun _ => within_pure) fun _ => within_ite (fun _ => within_fail) fun _ => ?_
  refine within_bind within_backjump fun _ => within_bind
    (within_modify fun _ => Enduring.of_eq rfl rfl rfl rfl rfl rfl) fun _ =>
    within_bind (within_attempt within_solveFromRoot) fun result => within_bind hreturn fun _ => ?_
  split
  · exact within_conclude
  · exact within_fail

/-! ## Adding atoms and clauses -/

theorem within_freshAtom [Stepped R] (hatoms : ∀ (c : Context) (atoms : AtomTable), R c { c with atoms }) :
    Within R freshAtom := by
  refine within_bind within_get fun _ => within_bind within_chance fun _ => within_bind (fun c => ⟨?_, fun i d hd => ?_⟩)
    fun _ => within_bind (within_unseen fun _ => .of_eq rfl rfl rfl rfl rfl) fun _ => within_pure
  · rw [meets_onAtoms]
    exact meets_of_cases (fun _ atoms _ => hatoms c atoms) fun _ atoms _ => hatoms c atoms
  · unfold onAtoms at hd
    dsimp only at hd
    split at hd
    · cases hd
    · cases hd
      exact Stepped.aside rfl rfl

theorem within_install [Refutable R] : ∀ clause : Clause, Within R (install clause)
  | [] => within_bind within_refute fun _ => within_pure
  | [_] => by
    refine within_bind within_assign fun _ => within_bind within_propagate fun result => ?_
    split
    · exact within_pure
    · exact within_bind within_refute fun _ => within_pure
    · exact within_fail
  | [_, _] => within_bind within_onWatches fun _ => within_pure
  | _ :: _ :: _ :: _ => within_bind (within_storeLong _) fun _ => within_pure

theorem within_addClause [Refutable R] (hinput : ∀ c, R c { c with state := .input }) (clause : Clause) :
    Within R (addClause clause) :=
  within_bind within_get fun _ => within_ite (fun _ => within_pure) fun _ => within_ite (fun _ => within_fail) fun _ =>
    within_ite (fun _ => within_fail) fun _ => within_ite (fun _ => within_pure) fun _ => within_ite (fun _ => within_pure)
      fun _ => within_bind (within_modify hinput) fun _ => within_install _

end Solver
end Cdcl
