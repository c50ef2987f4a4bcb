import Cdcl.Chance
import Cdcl.Clause.Store
import Cdcl.Listeners
import Cdcl.Luby
import Cdcl.Report
import Cdcl.Trail
import Cdcl.Watches
/-!
# Context — a formula, and what has been found out about it

Clauses of one literal are values at level zero, clauses of two live in the watch lists, and longer ones in the clause
store.  A context also holds the assignment in progress, what the last solve found, and a clause learnt after a decision
that still waits to be asserted.

Operations of a context are `Solver` programs: they answer or stop, and leave the context they reached.
-/
namespace Cdcl

structure Counters where
  /-- Conflicts of searches, assumptions, decisions and assertions. -/
  conflicts : Nat := 0
  /-- Conflicts since the last restart. -/
  freshConflicts : Nat := 0
  decisions : Nat := 0
  propagations : Nat := 0
  restarts : Nat := 0
  /-- Literals of learnt clauses before minimization. -/
  maxLiterals : Nat := 0
  /-- Literals of learnt clauses after minimization. -/
  totLiterals : Nat := 0
deriving DecidableEq, Inhabited, Repr

/-- A learnt clause, the asserting literal first, and the greatest level of the others. -/
structure LearntClause where
  clause : Clause
  level : Nat
deriving DecidableEq, Inhabited, Repr

/-- When to simplify, and when to give up learnt clauses. -/
structure Schedule where
  /-- The length of the trail at the last simplification. -/
  simplifiedAt : Option Nat := none
  /-- Propagations before a simplification is worth its while. -/
  simplifyIn : Int := 0
  /-- How many learnt clauses are too many. -/
  learntLimit : Float := 0.0
  /-- Conflicts between two growths of the limit. -/
  adjustEvery : Float := 0.0
  /-- Conflicts before the next growth. -/
  adjustIn : Int := 0
deriving Inhabited

structure Context where
  options : Options := {}
  counters : Counters := {}
  atoms : AtomTable := {}
  clauses : ClauseStore := {}
  watches : Watches := {}
  trail : Trail := {}
  state : SolveState := .input
  random : Chance := .default
  /-- Marks of analysis, one for each atom. -/
  marks : Array Bool := #[]
  model : Array Bool := #[]
  /-- The negations of the assumptions responsible for the last failure. -/
  failed : List Literal := []
  /-- A clause learnt after a decision, not yet asserted. -/
  pending : Option LearntClause := none
  /-- Whether a literal was assigned since this was last asked, or a decision undone. -/
  dirty : Bool := false
  /-- Units learnt above level zero, to be assigned again at level zero. -/
  pendingUnits : Array Literal := #[]
  schedule : Schedule := {}
  listeners : Listeners := {}

/-- A context over options and a source of randomness.  The tables take their part of the options. -/
def Context.make (options : Options) (random : Chance) : Context :=
  { options, random, atoms := { options := options.atoms }, clauses := { options := options.clauses } }

instance : Inhabited Context := ⟨.make {} .default⟩

abbrev Solver := Run Context

namespace Context

/-! ## Queries -/

def level (c : Context) : Nat := c.trail.level

def report (c : Context) : Report := c.state.report

def isUnsatisfiable (c : Context) : Bool := c.state == .unsatisfiable

def model? (c : Context) : Except Failure (Array Bool) :=
  if c.state = .satisfiable then .ok c.model else .error .invalidState

def fullyAssigned (c : Context) : Bool := c.trail.size == c.atoms.count

/-- Whether a learnt clause is pending and asserts at the current level. -/
def atAssertionLevel (c : Context) : Bool :=
  match c.pending with
  | some p => p.level == c.trail.level
  | none => false

/-- The pending clause, at the level where it may be asserted. -/
def assertion? (c : Context) : Option Clause :=
  if c.atAssertionLevel then c.pending.map (·.clause) else none

/-- The literals after the decision of the current level; at level zero, every literal. -/
def newlyImplied (c : Context) : List Literal :=
  let first := if c.trail.level = 0 then 0 else c.trail.start c.trail.level + 1
  c.trail.literals.toList.drop first

/-- Whether a stored clause is the reason of its first literal.  Such a clause is kept. -/
def locked (c : Context) (key : ClauseKey) : Bool :=
  match c.clauses.find key with
  | .error _ => false
  | .ok stored =>
    match stored.literals with
    | [] => false
    | first :: _ => c.atoms.isTrue first && c.atoms.reason first.atom == some (.long key)

end Context

namespace Solver

variable {α : Type}

/-! ## Running the calls of a part -/

@[inline] def onAtoms (m : Run AtomTable α) : Solver α := fun c =>
  let part := c.atoms
  let c := { c with atoms := default }
  match m part with
  | .ok a part => .ok a { c with atoms := part }
  | .error e part => .error e { c with atoms := part }

@[inline] def onClauses (m : Run ClauseStore α) : Solver α := fun c =>
  let part := c.clauses
  let c := { c with clauses := default }
  match m part with
  | .ok a part => .ok a { c with clauses := part }
  | .error e part => .error e { c with clauses := part }

@[inline] def onWatches (m : Run Watches α) : Solver α := fun c =>
  let part := c.watches
  let c := { c with watches := default }
  match m part with
  | .ok a part => .ok a { c with watches := part }
  | .error e part => .error e { c with watches := part }

theorem onAtoms_eq_ok_iff {m : Run AtomTable α} {c d : Context} {a : α} :
    onAtoms m c = .ok a d ↔ ∃ part, m c.atoms = .ok a part ∧ d = { c with atoms := part } := by
  unfold onAtoms
  dsimp only
  cases m c.atoms <;> grind

theorem onClauses_eq_ok_iff {m : Run ClauseStore α} {c d : Context} {a : α} :
    onClauses m c = .ok a d ↔ ∃ part, m c.clauses = .ok a part ∧ d = { c with clauses := part } := by
  unfold onClauses
  dsimp only
  cases m c.clauses <;> grind

theorem onWatches_eq_ok_iff {m : Run Watches α} {c d : Context} {a : α} :
    onWatches m c = .ok a d ↔ ∃ part, m c.watches = .ok a part ∧ d = { c with watches := part } := by
  unfold onWatches
  dsimp only
  cases m c.watches <;> grind

/-! ## Reading and noting -/

@[inline] def count (f : Counters → Counters) : Solver Unit := modify fun c => { c with counters := f c.counters }

@[inline] def setState (s : SolveState) : Solver Unit := modify ({ · with state := s })

@[inline] def record (a : Nat) : Solver AtomRecord := do
  Run.expect (← get).atoms.records[a]?

@[inline] def findClause (key : ClauseKey) : Solver StoredClause := do
  Run.ofExcept .clauses ((← get).clauses.find key)

theorem findClause_eq_ok_iff {key : ClauseKey} {c d : Context} {stored : StoredClause} :
    findClause key c = .ok stored d ↔ c.clauses.find key = .ok stored ∧ d = c := by
  unfold findClause
  rw [Run.bind_of_ok (Run.get_apply c), Run.ofExcept_eq_ok_iff]

/-- A draw that is true with the given probability. -/
def chance (p : Float) : Solver Bool := do
  let (drawn, random) ← Run.expect ((← get).random.chance? p)
  modify ({ · with random })
  pure drawn

def askStop : Solver Bool := modifyGet fun c =>
  let (stop, listeners) := c.listeners.ask
  (stop, { c with listeners })

end Solver

end Cdcl
