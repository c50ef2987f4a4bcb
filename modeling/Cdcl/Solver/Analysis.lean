import Cdcl.Solver.Minimization
/-!
# Solver.Analysis — learning a clause from a conflict

The trail is walked back from its end.  Atoms of the clause at hand that have the current level are counted, and
literals of lower levels above zero go into the learnt clause.  When one counted atom is left it is the first unique
implication point, and its negation is the asserting literal.  Until then each marked atom is resolved away by its
reason.

The learnt clause is minimized, and the first of its literals with the greatest level is put second; that level is where
the clause asserts.  At the end no mark is left.
-/
namespace Cdcl
namespace Solver

/-- The clause in the making: its literals of lower levels, and how many marked atoms have the current level. -/
structure Draft where
  lower : Array Literal := #[]
  waiting : Nat := 0

@[inline] def bumpAtom (a : Nat) : Solver Unit := onAtoms (AtomTable.Call.bump a)

@[inline] def bumpClause (key : ClauseKey) : Solver Unit := modify fun c => { c with clauses := c.clauses.bump key }

/-- Takes a clause into the draft.  Level zero, marked atoms and the atom resolved away are passed over. -/
def absorb (level : Nat) (resolved : Option Nat) : Clause → Draft → Solver Draft
  | [], draft => pure draft
  | l :: rest, draft => do
    if resolved = some l.atom then absorb level resolved rest draft
    else
      let here := (← record l.atom).level.getD 0
      if (← markOf l.atom) || here == 0 then absorb level resolved rest draft
      else
        bumpAtom l.atom
        setMark l.atom true
        if here < level then absorb level resolved rest { draft with lower := draft.lower.push l }
        else if here = level then absorb level resolved rest { draft with waiting := draft.waiting + 1 }
        else
          resetMarks
          Run.fail (.analysis .corruptLevel)

/-- The literals of a clause used in resolution; a learnt one becomes more active. -/
def antecedent (key : ClauseKey) : Solver Clause := do
  let stored ← findClause key
  bumpClause key
  pure stored.literals

/-- Walks the trail back from an index to the first unique implication point.  Answers the asserting literal and the
literals of lower levels. -/
def resolve (level : Nat) : Nat → Draft → Solver (Literal × Array Literal)
  | 0, _ => do
    resetMarks
    Run.fail (.analysis .noAssertion)
  | index + 1, draft => do
    let p ← Run.expect (← get).trail.literals[index]?
    if !(← markOf p.atom) then resolve level index draft
    else
      setMark p.atom false
      match draft.waiting with
      | 0 => Run.fault
      | 1 => pure (p.negate, draft.lower)
      | waiting + 1 =>
        let draft := { draft with waiting }
        match (← record p.atom).reason with
        | none =>
          resetMarks
          Run.fail (.analysis .noAssertion)
        | some (.binary other) => resolve level index (← absorb level (some p.atom) [other] draft)
        | some (.long key) => resolve level index (← absorb level (some p.atom) (← antecedent key) draft)

/-- The index of the first greatest number of a list. -/
def indexOfMax : List Nat → Nat
  | [] => 0
  | x :: rest =>
    let i := indexOfMax rest
    if rest.getD i 0 ≤ x then 0 else i + 1

/-- The clause with the first literal of the greatest level, but for the asserting one, put second, and that level. -/
def arrange : Clause → Solver LearntClause
  | asserting :: second :: rest => do
    let others := second :: rest
    let levels ← others.mapM fun l => return (← record l.atom).level.getD 0
    let i := indexOfMax levels
    let others ← Run.expect (Clause.swap? others 0 i)
    let level ← Run.expect levels[i]?
    pure { clause := asserting :: others, level }
  | clause => pure { clause, level := 0 }

/-- The clause that a conflict above level zero teaches. -/
def deduce (conflict : Conflict) : Solver LearntClause := do
  let level := (← get).trail.level
  let literals ← match conflict with
    | .binary a b => pure [a, b]
    | .long key => antecedent key
  let draft ← absorb level none literals {}
  let (asserting, lower) ← resolve level (← get).trail.literals.size draft
  let clause := asserting :: lower.toList
  count fun n => { n with maxLiterals := n.maxLiterals + clause.length }
  let (minimal, found) ← match (← get).options.minimization.value with
    | .none => pure (clause, [])
    | .cheap => do pure (← minimizeCheap clause, [])
    | .recursive => minimizeRecursive clause
  count fun n => { n with totLiterals := n.totLiterals + minimal.length }
  clearMarks (lower.toList.map Literal.atom ++ found)
  arrange minimal

/-- The clause learnt from a conflict above level zero.  It is told of. -/
def analyzeConflict (conflict : Conflict) : Solver LearntClause := do
  let learnt ← deduce conflict
  modify fun c => { c with listeners := c.listeners.learnt learnt.clause }
  pure learnt

/-! ## In parts -/

/-- The clause that resolution finds, with the asserting literal in front.  Its literals are counted. -/
def resolvent (conflict : Conflict) : Solver Clause := do
  let level := (← get).trail.level
  let literals ← match conflict with
    | .binary a b => pure [a, b]
    | .long key => antecedent key
  let draft ← absorb level none literals {}
  let (asserting, lower) ← resolve level (← get).trail.literals.size draft
  count fun n => { n with maxLiterals := n.maxLiterals + (asserting :: lower.toList).length }
  pure (asserting :: lower.toList)

/-- A clause, minimized as the options have it, and the atoms marked on the way. -/
def minimized (clause : Clause) : Solver (Clause × List Nat) := do
  match (← get).options.minimization.value with
  | .none => pure (clause, [])
  | .cheap => do pure (← minimizeCheap clause, [])
  | .recursive => minimizeRecursive clause

theorem minimized_bind (clause : Clause) {α : Type} (k : Clause × List Nat → Solver α) : minimized clause >>= k = (do
    match (← get).options.minimization.value with
    | .none => k (clause, [])
    | .cheap => do k (← minimizeCheap clause, [])
    | .recursive => do k (← minimizeRecursive clause)) := by
  unfold minimized
  rw [bind_assoc]
  refine bind_congr fun c => ?_
  cases c.options.minimization.value <;> simp only [bind_assoc, pure_bind]

/-- **To deduce a clause is to resolve, to minimize, and to arrange what is left.** -/
theorem deduce_eq (conflict : Conflict) : deduce conflict = (do
    let clause ← resolvent conflict
    let r ← minimized clause
    count fun n => { n with totLiterals := n.totLiterals + r.1.length }
    clearMarks (clause.tail.map Literal.atom ++ r.2)
    arrange r.1) := by
  unfold deduce resolvent
  simp only [bind_assoc, pure_bind, minimized_bind]
  cases conflict <;> simp only [bind_assoc, pure_bind] <;> rfl

end Solver
end Cdcl
