import Cdcl.Solver.Propagation
/-!
# Solver.Simplification — using up what holds at level zero

What is true at level zero is true in every model.  So a clause with such a literal may go, unless it is the reason of
its first literal, and from the other clauses the literals false at level zero may go.  A long clause of which two
literals are left becomes a binary clause.

Nothing is done if no literal has been assigned since the last time, or if so few were propagated since then that it is
not worth while.
-/
namespace Cdcl
namespace Solver

/-- Removes the binary clauses of true literals. -/
def dropBinary : List Literal → Solver Unit
  | [] => pure ()
  | l :: rest => do
    let _ ← onWatches (Watches.Call.removeBinaryOf l)
    dropBinary rest

/-- Whether a literal of a clause is true at level zero. -/
def someTrueAtRoot : Clause → Solver Bool
  | [] => pure false
  | l :: rest => do
    let r ← record l.atom
    if r.value == some l.positive && r.level.getD 0 == 0 then pure true else someTrueAtRoot rest

/-- Removes the clause of a key, or its false literals, as level zero has it. -/
def simplifyClause (key : ClauseKey) : Solver Unit := do
  let stored ← findClause key
  if ← someTrueAtRoot stored.literals then
    if ← isLocked key then pure () else removeLong key
  else
    let atoms := (← get).atoms
    Run.require (stored.literals.all fun l => atoms.knows l.atom)
    let literals := stored.atRoot atoms
    let removed := stored.literals.length - literals.length
    if removed = 0 then pure ()
    else
      match literals with
      | first :: second :: rest =>
        modify fun c => { c with clauses := c.clauses.setLiterals key literals }
        onClauses (ClauseStore.Call.noteLiteralsRemoved key removed)
        if rest.isEmpty then
          removeLong key
          onWatches (Watches.Call.watchBinary first second)
      | _ => Run.fault

/-- The clauses that have been simplified, and the literals they have together. -/
def literalCount (c : Context) : Nat :=
  c.clauses.inputLiterals + c.clauses.learntLiterals + 2 * c.watches.binaryCount

/-- Simplifies all clauses, whether or not it is time to. -/
def simplifyAll : Solver Unit := do
  dropBinary (← get).trail.literals.toList
  let c ← get
  (c.clauses.inputKeys ++ c.clauses.learntKeys).forM simplifyClause
  modify fun c => { c with
    schedule := { c.schedule with simplifiedAt := some c.trail.size, simplifyIn := literalCount c } }

/-- Whether a simplification would find nothing, or too little. -/
def simplifyIdle (c : Context) : Bool :=
  c.schedule.simplifiedAt == some c.trail.size || decide (0 < c.schedule.simplifyIn)

/-- Simplifies the clauses, at level zero.  That the formula has no model may come to light here. -/
def simplify : Solver Unit := do
  let c ← get
  if c.trail.level > 0 then Run.fail (.clauses .decisionMade)
  else if c.state = .unsatisfiable then pure ()
  else
    match ← propagate with
    | .conflict _ => setState .unsatisfiable
    | .corrupt => Run.fail (.propagation .corruptWatch)
    | .complete => if simplifyIdle (← get) then pure () else simplifyAll

end Solver
end Cdcl
