import Cdcl.Solver.Search
/-!
# Solver.Branching — decisions made from outside

A search of its own may decide literals one at a time, look at what each decision implies, and undo decisions.  If a
decision leads to a conflict a clause is learnt, which waits until decisions have been undone down to the level where it
asserts.  There it may be asserted, and that may lead to a conflict again.
-/
namespace Cdcl
namespace Solver

/-- Propagates after a decision or an assertion.  A conflict above level zero leaves a learnt clause pending. -/
def propagateDecision : Solver Bool := do
  match ← propagate with
  | .complete => pure true
  | .corrupt => Run.fail (.propagation .corruptWatch)
  | .conflict conflict =>
    count fun n => { n with conflicts := n.conflicts + 1 }
    if (← get).trail.level = 0 then
      let failed ← failedByConflict conflict
      modify fun c => { c with failed, state := .unsatisfiable, pending := none }
    else
      let learnt ← analyzeConflict conflict
      modify ({ · with pending := some learnt })
    pure false

/-- Decides a literal without a value, and propagates.  The answer is no at a conflict, and where no model exists. -/
def decide (l : Literal) : Solver Bool := do
  if (← get).state = .unsatisfiable then pure false
  else
    if (← record l.atom).value.isSome then Run.refuse (.valued l)
    modify ({ · with pending := none })
    decideLiteral l
    propagateDecision

/-- Goes back to the level before that of a literal. -/
def undo (l : Literal) : Solver Unit := do
  match (← record l.atom).level with
  | none => Run.refuse (.unvalued l)
  | some 0 => Run.refuse (.fixed l)
  | some (level + 1) =>
    backjump level
    modify ({ · with dirty := false })

/-- Learns the pending clause, and propagates. -/
def assertPending : Solver Bool := do
  match (← get).pending with
  | none => Run.fail .invalidState
  | some pending =>
    modify ({ · with pending := none })
    learn pending.clause
    propagateDecision

/-- Asserts the pending clause, which has to assert at the current level. -/
def assertHere : Solver Bool := do
  if (← get).atAssertionLevel then assertPending else Run.refuse .noAssertionHere

/-- Asserts the pending clause if it asserts at the current level. -/
def assertIfHere : Solver (Option Bool) := do
  if (← get).atAssertionLevel then return some (← assertPending) else pure none

/-- Whether a literal was assigned since this was last asked, or a decision undone. -/
def takeDirty : Solver Bool := modifyGet fun c => (c.dirty, { c with dirty := false })

end Solver
end Cdcl
