import Cdcl.Solver.Assignment
/-!
# Solver.Reduction — giving up learnt clauses

Of the learnt clauses, in the order of their activity, the less active half goes, and of the rest those whose activity
is less than an even share of the bump.  A clause that is the reason of its first literal stays.
-/
namespace Cdcl
namespace Solver

/-- The learnt clauses with their activities, the least active first. -/
def byActivity (c : Context) : List (ClauseKey × Float) :=
  c.random.sort ((c.clauses.learnt.toList.filterMap id).map fun stored => (stored.key, stored.activity))

/-- Removes clauses that are not locked, while so many of the less active half are left or where the activity is below a
limit. -/
def removeInactive (limit : Float) : Nat → List (ClauseKey × Float) → Solver Unit
  | _, [] => pure ()
  | half, (key, activity) :: rest => do
    if !(← isLocked key) && (0 < half || decide (activity < limit)) then removeLong key
    removeInactive limit (half - 1) rest

/-- Gives up the inactive learnt clauses. -/
def reduce : Solver Unit := do
  let c ← get
  let n := c.clauses.learntCount
  if n = 0 then pure ()
  else
    let learnt := byActivity c
    removeInactive (c.clauses.currentBump / Float.ofNat n) (learnt.length / 2) learnt

end Solver
end Cdcl
