import Cdcl.Context
/-!
# Solver.Minimization — dropping literals a clause does without

A literal of a learnt clause is redundant if the other literals, being false, already make it false.  The asserting
literal comes first and stays.  The marks are set for exactly the atoms of the other literals.

The cheap way looks at the reason of a literal alone.  The recursive way follows reasons, and gives up on an atom of a
level that the clause has no literal of, as seen by the last five bits of the level.
-/
namespace Cdcl
namespace Solver

/-- Whether an atom is marked. -/
def marked (c : Context) (a : Nat) : Bool := c.marks.getD a false

/-- The mark of an atom.  It is a fault if there is none. -/
@[inline] def markOf (a : Nat) : Solver Bool := do Run.expect (← get).marks[a]?

@[inline] def setMark (a : Nat) (mark : Bool) : Solver Unit := do
  Run.require (decide (a < (← get).marks.size))
  modify fun c => { c with marks := c.marks.setIfInBounds a mark }

def clearMarks (atoms : List Nat) : Solver Unit := atoms.forM (setMark · false)

def resetMarks : Solver Unit := modify fun c => { c with marks := Array.replicate c.marks.size false }

/-- Whether an atom is in the clause, or has its value from level zero. -/
def settled (a : Nat) : Solver Bool := do
  let r ← record a
  pure ((← markOf a) || r.level.getD 0 == 0)

/-- The literals of a reason other than the literal it gave its value.  A long reason is given whole. -/
def reasonLiterals : Option Reason → Solver Clause
  | none => pure []
  | some (.binary other) => pure [other]
  | some (.long key) => return (← findClause key).literals

/-- Whether every other literal of the reason of an atom is settled. -/
def allSettled (a : Nat) : Clause → Solver Bool
  | [] => pure true
  | l :: rest => do
    if l.atom = a then allSettled a rest
    else if ← settled l.atom then allSettled a rest
    else pure false

def cheaplyRedundant (l : Literal) : Solver Bool := do
  match (← record l.atom).reason with
  | none => pure false
  | some (.binary other) => settled other.atom
  | some (.long key) => allSettled l.atom (← findClause key).literals

/-- Keeps the literals for which a test fails, in order. -/
def dropping (test : Literal → Solver Bool) : Clause → Solver Clause
  | [] => pure []
  | l :: rest => do
    let drop ← test l
    let rest ← dropping test rest
    pure (if drop then rest else l :: rest)

/-- The clause without the literals whose reasons are within it. -/
def minimizeCheap : Clause → Solver Clause
  | [] => pure []
  | asserting :: rest => return asserting :: (← dropping cheaplyRedundant rest)

/-! ## Along chains of reasons -/

/-- The bit of a level. -/
def levelBit (level : Nat) : Nat := level % 32

/-- The bits of the levels of some literals. -/
def levelMask : Nat → Clause → Solver Nat
  | mask, [] => pure mask
  | mask, l :: rest => do
    let level := (← record l.atom).level.getD 0
    levelMask (mask ||| 1 <<< levelBit level) rest

/-- What is left to explain, and what was marked on the way. -/
structure Chase where
  stack : List Literal
  found : List Nat

/-- Goes through the reason of an atom.  An unsettled atom is marked and put on the stack, if it has a reason and a
level of the clause; otherwise the chase fails, and answers what it has marked. -/
def explain (mask : Nat) (a : Nat) : Clause → Chase → Solver (Bool × Chase)
  | [], chase => pure (true, chase)
  | l :: rest, chase => do
    if l.atom = a then explain mask a rest chase
    else
      let r ← record l.atom
      let level := r.level.getD 0
      if (← markOf l.atom) || level == 0 then explain mask a rest chase
      else if r.reason.isSome && mask.testBit (levelBit level) then
        setMark l.atom true
        explain mask a rest { stack := l :: chase.stack, found := l.atom :: chase.found }
      else pure (false, chase)

/-- Explains what is on the stack.  Answers whether all of it could be, and the atoms marked. -/
def chase (mask : Nat) : Nat → Chase → Solver (Bool × List Nat)
  | _, { stack := [], found } => pure (true, found)
  | 0, _ => throw .exhausted
  | fuel + 1, { stack := l :: stack, found } => do
    let literals ← reasonLiterals (← record l.atom).reason
    match ← explain mask l.atom literals { stack, found } with
    | (true, next) => chase mask fuel next
    | (false, next) => pure (false, next.found)

/-- Whether a literal is redundant along chains of reasons.  The marks of a chase that fails are taken back; those of
one that succeeds are answered.  Whatever comes on the stack is marked first, so the atoms bound the chase. -/
def redundant (mask : Nat) (l : Literal) : Solver (Bool × List Nat) := do
  let (success, found) ← chase mask ((← get).atoms.count + 1) { stack := [l], found := [] }
  if success then pure (true, found)
  else
    clearMarks found
    pure (false, [])

/-- Keeps the literals that are not redundant, in order, and collects the atoms marked. -/
def droppingRedundant (mask : Nat) : Clause → List Nat → Solver (Clause × List Nat)
  | [], found => pure ([], found)
  | l :: rest, found => do
    if (← record l.atom).reason.isNone then
      let (kept, found) ← droppingRedundant mask rest found
      pure (l :: kept, found)
    else
      let (drop, more) ← redundant mask l
      let (kept, found) ← droppingRedundant mask rest (more ++ found)
      pure (if drop then kept else l :: kept, found)

/-- The clause without the literals that chains of reasons make redundant, and the atoms marked on the way. -/
def minimizeRecursive : Clause → Solver (Clause × List Nat)
  | [] => pure ([], [])
  | asserting :: rest => do
    let mask ← levelMask 0 rest
    let (kept, found) ← droppingRedundant mask rest []
    pure (asserting :: kept, found)

end Solver
end Cdcl
