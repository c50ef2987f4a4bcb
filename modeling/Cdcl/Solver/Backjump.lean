import Cdcl.Context
/-!
# Solver.Backjump — going back to a lower level

The atoms of the levels above lose their values, the last assigned first, and go back on the activity heap.  If they are
at least as many as the heap holds, its order is restored once, and later.
-/
namespace Cdcl
namespace Solver

/-- Tells of a literal that has lost its value. -/
def tellUnassigned (l : Literal) : Solver Unit := fun c =>
  let told := c.listeners
  let c := { c with listeners := default }
  match told.unassigned? l with
  | some listeners => .ok () { c with listeners }
  | none => .error .fault c

/-- Takes the values of literals, and tells of each.  Whoever is told does not look at values, so they are all taken first. -/
def unassign (deferred : Bool) (literals : List Literal) : Solver Unit := do
  onAtoms (literals.forM fun l => AtomTable.Call.dropValue l.atom deferred)
  literals.forM tellUnassigned

/-- Goes back to a level.  At that level, or below it, nothing happens. -/
def backjump (target : Nat) : Solver Unit := do
  let c ← get
  if target < c.trail.level then
    let start := c.trail.start (target + 1)
    Run.require (decide (start ≤ c.trail.size))
    let popped := c.trail.above start
    unassign (decide (c.atoms.activeCount ≤ popped.length)) popped
    modify fun c => { c with trail := c.trail.cut target }

end Solver
end Cdcl
