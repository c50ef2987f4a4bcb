import Cdcl.Solver.Assignment
/-!
# Solver.Decision — choosing an atom and a value

With some probability an atom is drawn at random, and used if it has no value.  Otherwise the most active atom without a
value is taken off the heap.  It gets the value it last had, or a drawn one.
-/
namespace Cdcl
namespace Solver

/-- An atom drawn at random, if chance wants one and it has no value. -/
def randomAtom : Solver (Option Nat) := do
  let n := (← get).atoms.count
  if n = 0 then pure none
  else if ← chance (← get).options.randomChance.value then
    let (a, random) ← Run.expect ((← get).random.below? n)
    modify ({ · with random })
    pure (if (← record a).value.isNone then some a else none)
  else pure none

/-- Takes atoms off the heap, at most so many, until one has no value. -/
def mostActiveFor : Nat → Solver (Option Nat)
  | 0 => pure none
  | fuel + 1 => do
    match ← onAtoms AtomTable.Call.popMostActive with
    | none => pure none
    | some a => if (← record a).value.isNone then pure (some a) else mostActiveFor fuel

/-- The most active atom without a value.  Each step takes an atom off the heap; the last finds it empty. -/
def mostActiveAtom : Solver (Option Nat) := do mostActiveFor ((← get).atoms.activeCount + 1)

/-- A literal to decide, if an atom without a value can be found. -/
def chooseDecision : Solver (Option Literal) := do
  modify fun c => { c with atoms := c.atoms.noteDecision }
  let choice ← match ← randomAtom with
    | some a => pure (some a)
    | none => mostActiveAtom
  match choice with
  | none => pure none
  | some a =>
    let c ← get
    let value ←
      if c.options.phaseSaving.value then pure (← record a).previous
      else chance c.options.positiveChance.value
    pure (some (.ofAtom a value))

/-- Assigns a literal on a level of its own. -/
def decideLiteral (l : Literal) : Solver Unit := do
  count fun n => { n with decisions := n.decisions + 1 }
  modify fun c => { c with trail := c.trail.newLevel }
  assign l none

end Solver
end Cdcl
