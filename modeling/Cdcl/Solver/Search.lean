import Cdcl.Solver.Analysis
import Cdcl.Solver.Backjump
import Cdcl.Solver.Decision
import Cdcl.Solver.FailedAssumptions
import Cdcl.Solver.Reduction
import Cdcl.Solver.Simplification
/-!
# Solver.Search — solving

A search propagates and decides until every atom has a value.  At a conflict it learns a clause, goes back to where the
clause asserts and assigns its first literal.  A conflict at level zero shows that the formula has no model; one at the
root level, the level of the last assumption, that the formula and the assumptions have none in common.

A solve is a sequence of searches, each with a budget of conflicts that follows the Luby sequence.  Assumptions are
made first, each on a level of its own.  A unit learnt above level zero is assigned there, with level zero noted, and
assigned again when the solve has come back to level zero.

There is no bound on a search that is known beforehand, so searching takes fuel, and says when it runs out.
-/
namespace Cdcl
namespace Solver

/-- Adds a learnt clause and assigns its first literal, which the clause asserts at the current level. -/
def learn : Clause → Solver Unit
  | [] => Run.fail (.analysis .noAssertion)
  | [l] => do
    assign l none
    onAtoms (AtomTable.Call.setLevel l.atom 0)
    modify fun c => { c with
      pendingUnits := if c.trail.level > 0 then c.pendingUnits.push l else c.pendingUnits }
  | [first, second] => do
    onWatches (Watches.Call.watchBinary first second)
    assign first (some (.binary second))
  | first :: rest => do
    let key ← storeLong (first :: rest) true
    assign first (some (.long key))

/-- The least number of a signed word of 64 bits. -/
def leastCountdown : Int := -9223372036854775808

/-- The whole part of a float in a signed word of 64 bits.  What is beyond the range counts as its nearest end, and what is no
number as zero. -/
def wholePart (x : Float) : Int :=
  if x < 0.0 then -(min (-x).toUInt64.toNat 9223372036854775808 : Nat)
  else (min x.toUInt64.toNat 9223372036854775807 : Nat)

/-- Counts a conflict towards the next growth of the limit on learnt clauses. -/
def countdown : Solver Unit := do
  let c ← get
  Run.require (decide (leastCountdown < c.schedule.adjustIn))
  let left := c.schedule.adjustIn - 1
  if left ≤ 0 then
    let every := c.schedule.adjustEvery * c.options.clauses.adjustGrowth.value
    modify fun c => { c with
      schedule := { c.schedule with
        adjustEvery := every
        adjustIn := wholePart every
        learntLimit := c.schedule.learntLimit * c.options.clauses.learntGrowth.value } }
  else modify fun c => { c with schedule := { c.schedule with adjustIn := left } }

/-- Whether there are too many learnt clauses, not counting as many as there are assigned literals. -/
def crowded (c : Context) : Bool :=
  decide (c.schedule.learntLimit ≤ Float.ofNat c.clauses.learntCount - Float.ofNat c.trail.size)

/-- What a search does at a conflict.  An answer ends the search. -/
def atConflict (conflict : Conflict) : Solver (Option SolveState) := do
  count fun n => { n with conflicts := n.conflicts + 1, freshConflicts := n.freshConflicts + 1 }
  let trail := (← get).trail
  let level := trail.level
  let root := trail.root
  if level = 0 then pure (some .unsatisfiable)
  else if level ≤ root then
    let failed ← failedByConflict conflict
    modify ({ · with failed })
    pure (some .failedAssumptions)
  else
    let learnt ← analyzeConflict conflict
    backjump (max learnt.level root)
    learn learnt.clause
    modify fun c => { c with clauses := c.clauses.decay }
    countdown
    pure none

/-- The values of all atoms; an atom without one counts as false. -/
def currentModel (c : Context) : Array Bool := c.atoms.records.map (·.value.getD false)

/-- Decides, or finds the model. -/
def decideNext : Solver (Option SolveState) := do
  match ← chooseDecision with
  | some l =>
    decideLiteral l
    pure none
  | none =>
    modify fun c => { c with model := currentModel c }
    backjump (← get).trail.root
    pure (some .satisfiable)

/-- Simplifies at level zero, if that is wanted.  Answers whether the formula was found to have no model. -/
def simplifyAtRoot : Solver Bool := do
  let c ← get
  if c.trail.level = 0 && c.options.simplify.value then
    simplify
    return (← get).isUnsatisfiable
  else pure false

/-- What a search does when all is propagated.  An answer ends the search. -/
def atRest (budget : Option Nat) : Solver (Option SolveState) := do
  let c ← get
  if budget.any (decide <| · ≤ c.counters.freshConflicts) then
    backjump c.trail.root
    pure (some .unknown)
  else
    if ← simplifyAtRoot then pure (some .unsatisfiable)
    else
      if crowded (← get) then reduce
      decideNext

/-- Searches until there is an answer or the fuel is out. -/
def searchFor (budget : Option Nat) : Nat → Solver SolveState
  | 0 => throw .exhausted
  | fuel + 1 => do
    let answer ← match ← propagate with
      | .conflict conflict => atConflict conflict
      | .corrupt => Run.fail (.propagation .corruptWatch)
      | .complete => atRest budget
    match answer with
    | some state => pure state
    | none => searchFor budget fuel

/-- Searches within a budget of conflicts.  `unknown` says that the budget is spent. -/
def search (fuel : Nat) (budget : Option Nat) : Solver SolveState := do
  count fun n => { n with freshConflicts := 0 }
  searchFor budget fuel

/-! ## Solving -/

/-- Makes the assumptions, each on a level of its own.  Answers whether one has failed. -/
def assumeEach : List Literal → Solver Bool
  | [] => pure false
  | l :: rest => do
    match (← get).atoms.standing l with
    | .unknown => Run.fault
    | .holds =>
      modify fun c => { c with trail := c.trail.newLevel }
      assumeEach rest
    | .fails =>
      let failed ← failedByAssumption l
      modify ({ · with failed })
      pure true
    | .free =>
      modify fun c => { c with trail := c.trail.newLevel }
      assign l none
      match ← propagate with
      | .complete => assumeEach rest
      | .conflict conflict =>
        count fun n => { n with conflicts := n.conflicts + 1 }
        let failed ← failedByConflict conflict
        modify ({ · with failed })
        pure true
      | .corrupt => Run.fail (.propagation .corruptWatch)

/-- The budget of the next search: none if there are no restarts, and in any case what the limit on conflicts leaves.
Without an answer the limit is reached. -/
def nextBudget (luby : Luby) (conflictsBefore : Nat) : Solver (Option (Option Nat × Luby)) := do
  let c ← get
  let (budget, luby) :=
    if c.options.restart.value then
      let (element, luby) := luby.next
      (some (element.getD 1.0 * Float.ofNat c.options.restartFirst.value).toUInt64.toNat, luby)
    else (none, luby)
  let limit := c.options.conflictLimit.value
  if limit = 0 then pure (some (budget, luby))
  else
    Run.require (decide (conflictsBefore ≤ c.counters.conflicts))
    let spent := c.counters.conflicts - conflictsBefore
    if limit ≤ spent then pure none
    else pure (some (some ((budget.map (min · (limit - spent))).getD (limit - spent)), luby))

/-- Searches with one budget after another.  One unit of fuel is for a search, and the fuel left is for its steps. -/
def searchAll (conflictsBefore : Nat) : Nat → Luby → Solver SolveState
  | 0, _ => throw .exhausted
  | fuel + 1, luby => do
    match ← nextBudget luby conflictsBefore with
    | none => pure .unknown
    | some (budget, luby) =>
      match ← search fuel budget with
      | .unknown =>
        count fun n => { n with restarts := n.restarts + 1 }
        if ← askStop then pure .unknown else searchAll conflictsBefore fuel luby
      | state => pure state

def startSchedule : Solver Unit := modify fun c =>
  let options := c.options.clauses
  let every := options.adjustStart.value
  { c with
    schedule := { c.schedule with
      learntLimit := Float.ofNat (c.clauses.inputCount + c.watches.binaryCount) * options.learntFactor.value
      adjustEvery := every
      adjustIn := wholePart every } }

/-- Simplifies, or at least propagates, before a solve. -/
def prepare : Solver Unit := do
  if (← get).options.simplify.value then simplify
  else
    match ← propagate with
    | .conflict _ => setState .unsatisfiable
    | _ => pure ()

/-- Solves from level zero. -/
def solveFromRoot (fuel : Nat) (assumptions : List Literal) : Solver SolveState := do
  prepare
  if (← get).state = .unsatisfiable then pure .unsatisfiable
  else
    startSchedule
    modify fun c => { c with trail := { c.trail with root := assumptions.length } }
    if ← assumeEach assumptions then pure .failedAssumptions
    else
      let c ← get
      searchAll c.counters.conflicts fuel { base := c.options.restartBase.value }

/-- Assigns units, and notes where that is impossible. -/
def assignUnits : List Literal → Solver Unit
  | [] => pure ()
  | l :: rest => do
    if !(← enqueue l none) then setState .unsatisfiable
    assignUnits rest

/-- Assigns the units learnt above level zero, at level zero. -/
def assignPendingUnits : Solver Unit := do
  let units ← modifyGet fun c => (c.pendingUnits.toList, { c with pendingUnits := #[] })
  assignUnits units
  match ← propagate with
  | .conflict _ => setState .unsatisfiable
  | _ => pure ()

/-- Goes back to level zero, with the units learnt on the way. -/
def returnToRoot : Solver Unit := do
  backjump 0
  modify fun c => { c with trail := { c.trail with root := 0 } }
  assignPendingUnits

/-- Notes how a solve ended.  Failed assumptions are kept only where the solve ended by them. -/
def conclude (state : SolveState) : Solver Report := do
  modify fun c =>
    let c := if c.state = .unsatisfiable then c else { c with state }
    if c.state = .failedAssumptions then c else { c with failed := [] }
  return (← get).report

/-- Finds out whether the formula has a model in which the assumptions are true.  There should be fewer assumptions and
atoms, in all, than levels to count. -/
def solveGiven (fuel : Nat) (assumptions : List Literal) : Solver Report := do
  modify fun c => { c with model := #[], failed := [], pending := none }
  let c ← get
  if c.state = .unsatisfiable then pure .unsatisfiable
  else if assumptions.any fun l => !c.atoms.knows l.atom then Run.fail (.build .unknownAssumption)
  else
    backjump 0
    setState .solving
    let result ← Run.attempt (solveFromRoot fuel assumptions)
    returnToRoot
    match result with
    | .ok state => conclude state
    | .error f => Run.fail f

def solve (fuel : Nat) : Solver Report := solveGiven fuel []

end Solver
end Cdcl
