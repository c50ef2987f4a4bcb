import Cdcl.Solver.Assignment
/-!
# Solver.Propagation — unit propagation

Each assigned literal is propagated in turn: its negation has become false, so the clauses that watch the negation are
looked at, those of two literals first.  The other literal of a binary clause is assigned, unless it has a value.  In a
long clause the false literal is put second; if the first is true the clause keeps its watch; otherwise another literal
that is not false takes the watch over; and if there is none the first literal is assigned, or the clause is false.

The long list of the false literal is taken out while it is walked.  At a conflict the rest of the list is kept, and
the head of the trail goes to the end.
-/
namespace Cdcl

/-- How propagation ends.  `corrupt` is for a watch on a clause that is not stored. -/
inductive Propagated
  | complete
  | conflict (c : Conflict)
  | corrupt
deriving DecidableEq, Inhabited, Repr

namespace Solver

/-- Assigns a literal that a clause has left no choice. -/
def imply (l : Literal) (reason : Reason) : Solver Unit := do
  count fun n => { n with propagations := n.propagations + 1 }
  assign l (some reason)

/-- Looks at binary clauses of a false literal, given by their other literals. -/
def visitBinary (falsified : Literal) : List Literal → Solver Propagated
  | [] => pure .complete
  | other :: rest => do
    match (← get).atoms.standing other with
    | .unknown => Run.fault
    | .holds => visitBinary falsified rest
    | .fails => pure (.conflict (.binary falsified other))
    | .free =>
      imply other (.binary falsified)
      visitBinary falsified rest

/-- Looks at long clauses that watch a false literal.  Answers the keys that keep the watch, in order. -/
def visitLong (falsified : Literal) : List ClauseKey → Array ClauseKey → Solver (Propagated × Array ClauseKey)
  | [], kept => pure (.complete, kept)
  | key :: rest, kept => do
    let c ← get
    match c.clauses.find key with
    | .error _ => pure (.corrupt, kept ++ rest)
    | .ok stored =>
      match stored.literals with
      | a :: b :: others =>
        let (first, second) := if a = falsified then (b, a) else (a, b)
        let literals := first :: second :: others
        match c.atoms.standing first with
        | .unknown => Run.fault
        | .holds =>
          if a = falsified then
            modify fun c => { c with clauses := c.clauses.setLiterals key literals }
          visitLong falsified rest (kept.push key)
        | standing =>
          match Clause.replaceSecond c.atoms.standing literals with
          | .stray => Run.fault
          | .found watch literals =>
            modify fun c => { c with clauses := c.clauses.setLiterals key literals }
            onWatches (Watches.Call.watchLong watch key)
            visitLong falsified rest kept
          | .none =>
            if a = falsified then
              modify fun c => { c with clauses := c.clauses.setLiterals key literals }
            if standing = .fails then pure (.conflict (.long key), kept.push key ++ rest)
            else
              imply first (.long key)
              visitLong falsified rest (kept.push key)
      | _ => Run.fault

/-- Looks at the clauses that watch a literal which has become false. -/
def propagateFalse (falsified : Literal) : Solver Propagated := do
  let list ← onWatches (Watches.Call.binary falsified)
  match ← visitBinary falsified list.toList with
  | .complete =>
    let list ← onWatches (Watches.Call.takeLong falsified)
    let (result, kept) ← visitLong falsified list.toList #[]
    onWatches (Watches.Call.restoreLong falsified kept)
    pure result
  | result => pure result

/-- Propagates until the head of the trail is at its end, for at most so many literals. -/
def propagateFor : Nat → Solver Propagated
  | 0 => do if (← get).trail.propagated then pure .complete else throw .exhausted
  | fuel + 1 => do
    let c ← get
    match c.trail.literals[c.trail.head]? with
    | none => pure .complete
    | some l =>
      modify fun c => { c with
        trail := { c.trail with head := c.trail.head + 1 }
        schedule := { c.schedule with simplifyIn := c.schedule.simplifyIn - 1 } }
      match ← propagateFalse l.negate with
      | .complete => propagateFor fuel
      | result =>
        modify fun c => { c with trail := { c.trail with head := c.trail.literals.size } }
        pure result

/-- Propagates every assigned literal.  Each literal that propagation adds gives a value to an atom without one, so what
is waiting and the count of atoms bound the literals there are to propagate. -/
def propagate : Solver Propagated := do
  let c ← get
  propagateFor (c.trail.literals.size - c.trail.head + c.atoms.count)

end Solver
end Cdcl
