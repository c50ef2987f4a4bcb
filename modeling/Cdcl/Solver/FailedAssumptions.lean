import Cdcl.Solver.Minimization
/-!
# Solver.FailedAssumptions — which assumptions are responsible

When a solve under assumptions fails, some of the assumptions contradict the formula.  They are found by marking the
atoms of the conflict and walking the trail back to level one: a marked atom with a reason passes its mark on to the
atoms of the reason, and a marked atom without one is an assumption, whose negation is noted.

Atoms of level zero are never marked, for what holds there follows from the formula alone.
-/
namespace Cdcl
namespace Solver

/-- Marks the atoms of level above zero. -/
def markAboveRoot : Clause → Solver Unit
  | [] => pure ()
  | l :: rest => do
    if (← record l.atom).level.getD 0 > 0 then setMark l.atom true
    markAboveRoot rest

/-- Walks the trail back over so many literals, down to `bottom`, and adds to the negated assumptions found. -/
def collectFailed (bottom : Nat) : Nat → Array Literal → Solver (Array Literal)
  | 0, failed => pure failed
  | n + 1, failed => do
    let l ← Run.expect (← get).trail.literals[bottom + n]?
    if !(← markOf l.atom) then collectFailed bottom n failed
    else
      let r ← record l.atom
      let failed ← match r.reason with
        | none => pure (if r.level.getD 0 > 0 then failed.push l.negate else failed)
        | some (.binary other) => do
          markAboveRoot [other]
          pure failed
        | some (.long key) => do
          markAboveRoot ((← findClause key).literals.filter fun other => other.atom != l.atom)
          pure failed
      setMark l.atom false
      collectFailed bottom n failed

/-- The negations of the assumptions that make some literals false.  Without assumptions there are none. -/
def failedFor (literals : Clause) : Solver (List Literal) := do
  let c ← get
  if c.trail.root = 0 then pure []
  else
    markAboveRoot literals
    let bottom := c.trail.start 1
    return (← collectFailed bottom (c.trail.literals.size - bottom) #[]).toList

/-- The negations of the assumptions responsible for a conflict. -/
def failedByConflict : Conflict → Solver (List Literal)
  | .binary a b => failedFor [a, b]
  | .long key => do failedFor (← findClause key).literals

/-- The negations of the assumptions responsible for an assumption being false, and its own. -/
def failedByAssumption (assumption : Literal) : Solver (List Literal) := do
  let failed ← match (← record assumption.atom).reason with
    | none => pure []
    | some (.binary other) => failedFor [other]
    | some (.long key) => do
      failedFor ((← findClause key).literals.filter fun l => l.atom != assumption.atom)
  pure (failed ++ [assumption.negate])

end Solver
end Cdcl
