import Cdcl.Solver.Branching
/-!
# Solver.Exhaustive — searches made of decisions

Two searches that use decisions from outside alone: one finds a model, asserting learnt clauses as it comes back, and
one counts the models, trying both values of every atom.
-/
namespace Cdcl
namespace Solver

/-- Finds a model by deciding, asserting what is learnt where a branch fails.  On success the context holds it. -/
def findModel : Nat → Solver Bool
  | 0 => throw .exhausted
  | fuel + 1 => do
    let c ← get
    if c.isUnsatisfiable then pure false
    else
      match c.atoms.firstFree? with
      | none => pure true
      | some a =>
        let l := Literal.ofAtom a true
        let found ← if ← decide l then findModel fuel else pure false
        if found then pure true
        else
          undo l
          match ← assertIfHere with
          | some true => findModel fuel
          | _ => pure false

/-- Counts of models are kept in 128 bits. -/
def countLimit : Nat := 340282366920938463463374607431768211456

/-- Counts models by trying both values of the first atom without one, to a given depth. -/
def countModelsFor : Nat → Solver Nat
  | 0 => throw .exhausted
  | depth + 1 => do
    let c ← get
    if c.isUnsatisfiable then pure 0
    else
      match c.atoms.firstFree? with
      | none => pure 1
      | some a =>
        let positive ← countBranch depth (.ofAtom a true)
        let negative ← countBranch depth (.ofAtom a false)
        Run.require (Decidable.decide (positive + negative < countLimit))
        pure (positive + negative)
where
  /-- Counts the models with a literal, and takes the decision back. -/
  countBranch (depth : Nat) (l : Literal) : Solver Nat := do
    let n ← if ← decide l then countModelsFor depth else pure 0
    undo l
    pure n

/-- The number of models that extend the values at hand.  Each decision gives an atom a value, so the atoms bound the
depth. -/
def countModels : Solver Nat := do countModelsFor ((← get).atoms.count + 1)

end Solver
end Cdcl
