import Cdcl.Clause
import Cdcl.Run
/-!
# Subsumption — which registered clauses have a true literal

A tracker counts, for each clause registered with it, the literals that are true.  It is told of every literal that
becomes true and of every literal that is true no more.
-/
namespace Cdcl

structure SubsumptionTracker where
  /-- The registered clauses a literal is in, once for each time it is in them. -/
  occurrences : Array (Array Nat) := #[]
  /-- How many literals of each clause are true. -/
  trueCounts : Array Nat := #[]
  /-- How many clauses have a true literal. -/
  subsumed : Nat := 0

namespace SubsumptionTracker

instance : Inhabited SubsumptionTracker := ⟨{}⟩

/-- Lists for all literals up to a given one. -/
def cover (occurrences : Array (Array Nat)) (l : Literal) : Array (Array Nat) :=
  occurrences ++ Array.replicate (l.index + 1 - occurrences.size) #[]

/-- Registers a clause, counting the literals a valuation makes true, and answers its number. -/
def register (s : SubsumptionTracker) (c : Clause) (value : Nat → Option Bool) : Nat × SubsumptionTracker :=
  let index := s.trueCounts.size
  let count := c.countP fun l => value l.atom == some l.positive
  (index,
    { occurrences := c.foldl (fun o l => (cover o l).modify l.index (·.push index)) s.occurrences
      trueCounts := s.trueCounts.push count
      subsumed := if count > 0 then s.subsumed + 1 else s.subsumed })

def gain (s : SubsumptionTracker) (index : Nat) : SubsumptionTracker :=
  { s with
    trueCounts := s.trueCounts.modify index (· + 1)
    subsumed := if s.trueCounts.getD index 0 = 0 then s.subsumed + 1 else s.subsumed }

/-- Notes that a literal is true. -/
def assigned (s : SubsumptionTracker) (l : Literal) : SubsumptionTracker :=
  (s.occurrences.getD l.index #[]).foldl gain s

/-- One true literal less, unless there is none. -/
def lose? (s : SubsumptionTracker) (index : Nat) : Option SubsumptionTracker :=
  let count := s.trueCounts.getD index 0
  if count = 0 then none
  else if count = 1 ∧ s.subsumed = 0 then none
  else
    some { s with
      trueCounts := s.trueCounts.modify index (· - 1)
      subsumed := if count = 1 then s.subsumed - 1 else s.subsumed }

/-- Notes that a literal is true no more.  A literal that was never true has no such note. -/
def unassigned? (s : SubsumptionTracker) (l : Literal) : Option SubsumptionTracker :=
  (s.occurrences.getD l.index #[]).foldlM lose? s

def isSubsumed (s : SubsumptionTracker) (index : Nat) : Bool := 0 < s.trueCounts.getD index 0

def subsumedClauses (s : SubsumptionTracker) : List Nat := (List.range s.trueCounts.size).filter s.isSubsumed

namespace Call

def register (c : Clause) (value : Nat → Option Bool) : Run SubsumptionTracker Nat := modifyGet (·.register c value)

def assigned (l : Literal) : Run SubsumptionTracker Unit := modify (·.assigned l)

def unassigned (l : Literal) : Run SubsumptionTracker Unit := do
  set (← Run.expect ((← get).unassigned? l))

end Call

end SubsumptionTracker

end Cdcl
