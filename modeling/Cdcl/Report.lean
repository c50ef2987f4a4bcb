/-!
# Report — what is known of a formula

A context is in one of six states.  A report tells of the state what concerns the formula, and has the code solvers end
with.
-/
namespace Cdcl

inductive SolveState
  | input
  | solving
  | satisfiable
  /-- No model exists, whatever is assumed.  A context stays in this state. -/
  | unsatisfiable
  /-- No model agrees with the assumptions of the last solve. -/
  | failedAssumptions
  | unknown
deriving DecidableEq, Inhabited, Repr

inductive Report
  | satisfiable
  | unsatisfiable
  | unknown
deriving DecidableEq, Inhabited, Repr

namespace SolveState

def toText : SolveState → String
  | input => "Input"
  | solving => "Solving"
  | satisfiable => "Satisfiable"
  | unsatisfiable => "Unsatisfiable"
  | failedAssumptions => "FailedAssumptions"
  | unknown => "Unknown"

def report : SolveState → Report
  | input => .unknown
  | solving => .unknown
  | satisfiable => .satisfiable
  | unsatisfiable => .unsatisfiable
  | failedAssumptions => .unsatisfiable
  | unknown => .unknown

end SolveState

namespace Report

def code : Report → Nat
  | satisfiable => 10
  | unsatisfiable => 20
  | unknown => 0

def toText : Report → String
  | satisfiable => "Satisfiable"
  | unsatisfiable => "Unsatisfiable"
  | unknown => "Unknown"

end Report

end Cdcl
