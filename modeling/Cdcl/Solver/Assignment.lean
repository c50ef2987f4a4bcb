import Cdcl.Context
/-!
# Solver.Assignment — giving values, and storing long clauses

The only ways a value is given and a long clause comes to the store or leaves it, with all that has to change along.
-/
namespace Cdcl
namespace Solver

/-- Gives an atom the value that makes a literal true, at the current level and for a reason.  The atom should have no
value. -/
def assign (l : Literal) (reason : Option Reason) : Solver Unit := do
  Run.require ((← get).atoms.knows l.atom)
  modify fun c => { c with
    atoms := c.atoms.setValue l c.trail.level reason
    trail := c.trail.push l
    dirty := true
    listeners := c.listeners.assigned l }

/-- Assigns a literal if its atom has no value.  Answers whether the literal is true then. -/
def enqueue (l : Literal) (reason : Option Reason) : Solver Bool := do
  match (← get).atoms.standing l with
  | .unknown => Run.fault
  | .free =>
    assign l reason
    pure true
  | .holds => pure true
  | .fails => pure false

/-- Stores a clause of three literals or more and watches its first two. -/
def storeLong (clause : Clause) (learnt : Bool) : Solver ClauseKey := do
  match clause with
  | first :: second :: _ :: _ =>
    let key ← onClauses
      (if learnt then ClauseStore.Call.storeLearnt clause else ClauseStore.Call.storeInput clause)
    onWatches do
      Watches.Call.watchLong first key
      Watches.Call.watchLong second key
    pure key
  | _ => Run.fail (.clauses .notLong)

/-- Whether a stored clause is the reason of its first literal.  Such a clause is kept. -/
def isLocked (key : ClauseKey) : Solver Bool := do
  match (← get).clauses.find key with
  | .error _ => pure false
  | .ok stored =>
    let first ← Run.expect stored.literals.head?
    let r ← record first.atom
    pure (r.value == some first.positive && r.reason == some (.long key))

/-- Takes a long clause out of the store and out of the watch lists of its first two literals. -/
def removeLong (key : ClauseKey) : Solver Unit := do
  let stored ← onClauses (ClauseStore.Call.remove key)
  match stored.literals with
  | first :: second :: _ =>
    onWatches do
      Watches.Call.unwatchLong first key
      Watches.Call.unwatchLong second key
  | _ => Run.fault

end Solver
end Cdcl
