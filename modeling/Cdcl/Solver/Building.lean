import Cdcl.Solver.Propagation
/-!
# Solver.Building — adding atoms and clauses

Clauses are added at level zero.  Each literal counts once; a clause with a literal and its negation, or with a true
literal, is ignored; false literals are left out.  What is left decides: nothing means that there is no model, one
literal is assigned and propagated, two become a binary clause, and more are stored.
-/
namespace Cdcl

inductive ClauseOutcome
  | added
  | tautology
  | satisfied
  | unsatisfiable
deriving DecidableEq, Inhabited, Repr

def ClauseOutcome.toText : ClauseOutcome → String
  | added => "Added"
  | tautology => "Tautology"
  | satisfied => "Satisfied"
  | unsatisfiable => "Unsatisfiable"

namespace Solver

/-- A further atom.  The value it counts as having last had is drawn. -/
def freshAtom : Solver Nat := do
  let previous ← chance (← get).options.positiveChance.value
  let a ← onAtoms (AtomTable.Call.fresh previous)
  modify fun c => { c with watches := c.watches.pushAtom, marks := c.marks.push false }
  pure a

/-- A further atom, or the greatest one if there is none left. -/
def freshOrMaxAtom : Solver Nat := do
  match ← Run.attempt freshAtom with
  | .ok a => pure a
  | .error _ => pure atomMax

def freshAtoms : Nat → Solver (List Nat)
  | 0 => pure []
  | n + 1 => do
    let a ← freshAtom
    return a :: (← freshAtoms n)

def freshOrMaxLiterals : Nat → Solver (List Literal)
  | 0 => pure []
  | n + 1 => do
    let a ← freshOrMaxAtom
    return .ofAtom a true :: (← freshOrMaxLiterals n)

/-- Stores a clause of literals without a value. -/
def install : Clause → Solver ClauseOutcome
  | [] => do
    setState .unsatisfiable
    pure .unsatisfiable
  | [l] => do
    assign l none
    match ← propagate with
    | .complete => pure .added
    | .conflict _ =>
      setState .unsatisfiable
      pure .unsatisfiable
    | .corrupt => Run.fail (.propagation .corruptWatch)
  | [a, b] => do
    onWatches (Watches.Call.watchBinary a b)
    pure .added
  | clause => do
    let _ ← storeLong clause false
    pure .added

def addClause (clause : Clause) : Solver ClauseOutcome := do
  let c ← get
  if c.state = .unsatisfiable then pure .unsatisfiable
  else if c.trail.level > 0 then Run.fail (.clauses .decisionMade)
  else if clause.any fun l => !c.atoms.knows l.atom then Run.fail (.clauses .unknownAtom)
  else
    let clause := clause.normal
    if clause.hasClash then pure .tautology
    else if clause.any c.atoms.isTrue then pure .satisfied
    else
      let clause := clause.filter fun l => !c.atoms.isFalse l
      setState .input
      install clause

def addClauses (clauses : List Clause) : Solver (List ClauseOutcome) := clauses.mapM addClause

end Solver
end Cdcl
