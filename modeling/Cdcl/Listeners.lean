import Cdcl.Subsumption
/-!
# Listeners — who is told of what a context does

A context tells of each assignment, of each assignment undone, of each learnt clause, and asks between searches whether
to stop.  What is told is recorded as an event, or passed to a tracker of subsumed clauses, or goes unheard.
-/
namespace Cdcl

inductive Event
  | assigned (l : Literal)
  | unassigned (l : Literal)
  | learnt (c : Clause)
  /-- The question whether to stop, asked for the `n`-th time. -/
  | asked (n : Nat)
deriving DecidableEq, Repr

/-- What happens to a literal that is told. -/
inductive Hook
  | silent
  | record
  | track
deriving DecidableEq, Inhabited, Repr

/-- Stops a solve from a certain asking on. -/
structure StopRule where
  after : Nat
  asked : Nat := 0

structure Listeners where
  onAssign : Hook := .silent
  onUnassign : Hook := .silent
  onLearnt : Bool := false
  stop : Option StopRule := none
  tracker : SubsumptionTracker := {}
  events : Array Event := #[]

namespace Listeners

instance : Inhabited Listeners := ⟨{}⟩

def record (s : Listeners) (e : Event) : Listeners := { s with events := s.events.push e }

def assigned (s : Listeners) (l : Literal) : Listeners :=
  match s.onAssign with
  | .silent => s
  | .record => s.record (.assigned l)
  | .track => { s with tracker := s.tracker.assigned l }

/-- A tracker that never heard of the literal becoming true cannot be told that it is true no more. -/
def unassigned? (s : Listeners) (l : Literal) : Option Listeners :=
  match s.onUnassign with
  | .silent => some s
  | .record => some (s.record (.unassigned l))
  | .track => (s.tracker.unassigned? l).map ({ s with tracker := · })

theorem exists_unassigned {s : Listeners} {l : Literal} (h : s.onUnassign ≠ .track) :
    ∃ t, s.unassigned? l = some t ∧ t.onUnassign ≠ .track := by
  unfold unassigned?
  cases hs : s.onUnassign with
  | silent => exact ⟨s, rfl, h⟩
  | record => exact ⟨s.record _, rfl, h⟩
  | track => exact absurd hs h

def learnt (s : Listeners) (c : Clause) : Listeners := if s.onLearnt then s.record (.learnt c) else s

/-- Whether to stop.  Without a rule nobody is asked. -/
def ask (s : Listeners) : Bool × Listeners :=
  match s.stop with
  | none => (false, s)
  | some rule =>
    let asked := rule.asked + 1
    (decide (rule.after ≤ asked), { s with stop := some { rule with asked } }.record (.asked asked))

/-- A fresh tracker that is told of assignments, made and undone. -/
def attachTracker (s : Listeners) : Listeners := { s with onAssign := .track, onUnassign := .track, tracker := {} }

end Listeners

end Cdcl
