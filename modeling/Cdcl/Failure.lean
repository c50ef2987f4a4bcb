import Cdcl.Literal
/-!
# Failure — how a call ends without an answer

A *failure* is an answer of its own kind: the call could not do its work, says why, and leaves the context usable.  A
*refusal* is a call made against a documented condition, noticed before anything changes.  That a formula, or a formula
with assumptions, has no model is neither: it is a report.
-/
namespace Cdcl

/-- What may go wrong while a conflict is analysed. -/
inductive AnalysisError
  | noAssertion
  | corruptLevel
deriving DecidableEq, Repr

inductive AtomError
  | atomsExhausted
deriving DecidableEq, Repr

inductive PropagationError
  | corruptWatch
deriving DecidableEq, Repr

inductive BuildError
  | unknownAssumption
deriving DecidableEq, Repr

inductive ClauseError
  | missing
  | invalidKeyToken
  | storageExhausted
  | unknownAtom
  | decisionMade
  | notLong
deriving DecidableEq, Repr

/-- What may be wrong with a text of clauses.  Lines are counted from one. -/
inductive ParseError
  | problemSpecification
  | line (number : Nat)
  | literal (number : Nat)
  | unterminatedClause
deriving DecidableEq, Repr

inductive Failure
  | analysis (e : AnalysisError)
  | atoms (e : AtomError)
  | propagation (e : PropagationError)
  | build (e : BuildError)
  | clauses (e : ClauseError)
  | parse (e : ParseError)
  | invalidState
deriving DecidableEq, Repr

def AnalysisError.name : AnalysisError → String
  | noAssertion => "NoAssertion"
  | corruptLevel => "CorruptLevel"

def AtomError.name : AtomError → String
  | atomsExhausted => "AtomsExhausted"

def PropagationError.name : PropagationError → String
  | corruptWatch => "CorruptWatch"

def BuildError.name : BuildError → String
  | unknownAssumption => "UnknownAssumption"

def ClauseError.name : ClauseError → String
  | missing => "Missing"
  | invalidKeyToken => "InvalidKeyToken"
  | storageExhausted => "StorageExhausted"
  | unknownAtom => "UnknownAtom"
  | decisionMade => "DecisionMade"
  | notLong => "NotLong"

def ParseError.name : ParseError → String
  | problemSpecification => "ProblemSpecification"
  | line n => s!"Line({n})"
  | literal n => s!"Literal({n})"
  | unterminatedClause => "UnterminatedClause"

def Failure.message : Failure → String
  | analysis e => "Analysis error: " ++ e.name
  | atoms e => "Atom database error: " ++ e.name
  | propagation e => "BCP error: " ++ e.name
  | build e => "Build error: " ++ e.name
  | clauses e => "Clause database error: " ++ e.name
  | parse e => "Parse error: " ++ e.name
  | invalidState => "Invalid state"

/-- The documented conditions of decisions, of undoing them, and of assertions. -/
inductive Refusal
  | valued (decision : Literal)
  | unvalued (decision : Literal)
  | fixed (decision : Literal)
  | noAssertionHere
deriving DecidableEq, Repr

def Refusal.message : Refusal → String
  | valued l => s!"! Decision on {l.toText}, which has a value"
  | unvalued l => s!"! Undo of {l.toText}, which has no value"
  | fixed l => s!"! Undo of {l.toText}, which was valued at level zero"
  | noAssertionHere => "! Assertion away from the assertion level"

end Cdcl
