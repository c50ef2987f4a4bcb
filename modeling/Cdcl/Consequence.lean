import Cdcl.Clause.Key
/-!
# Consequence — why an atom has its value, and which clause is false

Clauses of two literals are not stored: they live in the watch lists alone.  So a literal propagated by one is
recorded with the other literal of the clause, and a false one is recorded as the pair.
-/
namespace Cdcl

/-- The clause which propagated a literal.  Decisions, assumptions and unit clauses have none. -/
inductive Reason
  | binary (other : Literal)
  | long (key : ClauseKey)
deriving DecidableEq, Inhabited, Repr

/-- A clause whose literals are all false. -/
inductive Conflict
  | binary (a b : Literal)
  | long (key : ClauseKey)
deriving DecidableEq, Inhabited, Repr

def Reason.toText : Reason → String
  | binary other => s!"Binary({other.toText})"
  | long key => key.toText

def Conflict.toText : Conflict → String
  | binary a b => s!"Binary({a.toText} {b.toText})"
  | long key => key.toText

end Cdcl
