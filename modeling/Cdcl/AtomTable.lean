import Cdcl.Consequence
import Cdcl.IndexHeap
import Cdcl.Options
import Cdcl.Run
/-!
# AtomTable — what is known of each atom

For each atom: its value, if it has one, with the level and the reason of the value; the value it last had; and its
activity.  Atoms without a value are on the activity heap.  Atoms with one may be, until they are popped.
-/
namespace Cdcl

structure AtomRecord where
  value : Option Bool := none
  /-- The value the atom last lost, or the one it was made with. -/
  previous : Bool
  level : Option Nat := none
  reason : Option Reason := none
deriving Inhabited

/-- How a literal stands under a partial valuation. -/
inductive Standing
  | unknown
  | free
  | holds
  | fails
deriving DecidableEq, Inhabited, Repr

structure AtomTable where
  records : Array AtomRecord := #[]
  activity : IndexHeap Float := {}
  /-- Decisions noted since activities last decayed. -/
  sinceDecay : Nat := 0
  options : AtomOptions := {}

namespace AtomTable

instance : Inhabited AtomTable := ⟨{}⟩

def count (t : AtomTable) : Nat := t.records.size

@[inline] def knows (t : AtomTable) (a : Nat) : Bool := decide (a < t.records.size)

/-- The value of an atom; an unknown atom has none. -/
@[inline] def value (t : AtomTable) (a : Nat) : Option Bool :=
  match t.records[a]? with
  | some r => r.value
  | none => none

@[inline] def standing (t : AtomTable) (l : Literal) : Standing :=
  match t.records[l.atom]? with
  | none => .unknown
  | some r =>
    match r.value with
    | none => .free
    | some v => if v == l.positive then .holds else .fails

def isTrue (t : AtomTable) (l : Literal) : Bool := t.standing l == .holds

def isFalse (t : AtomTable) (l : Literal) : Bool := t.standing l == .fails

/-- The level of an atom, where an atom without a level counts as level zero. -/
@[inline] def levelOrZero (t : AtomTable) (a : Nat) : Nat :=
  match t.records[a]? with
  | some r => r.level.getD 0
  | none => 0

@[inline] def reason (t : AtomTable) (a : Nat) : Option Reason :=
  match t.records[a]? with
  | some r => r.reason
  | none => none

def valuation (t : AtomTable) : List (Option Bool) := t.records.toList.map (·.value)

def firstFree? (t : AtomTable) : Option Nat := t.records.findIdx? (·.value.isNone)

/-! ## Values -/

def push (t : AtomTable) (previous : Bool) : AtomTable :=
  let a := t.records.size
  { t with
    records := t.records.push { previous }
    activity := ((t.activity.add a 0.0).2.activate a).2 }

def setValue (t : AtomTable) (l : Literal) (level : Nat) (reason : Option Reason) : AtomTable :=
  { t with
    records := t.records.modify l.atom fun r => { r with value := some l.positive, level := some level, reason } }

def setLevel (t : AtomTable) (a : Nat) (level : Nat) : AtomTable :=
  { t with records := t.records.modify a fun r => { r with level := some level } }

/-- Takes the value of an atom from its record. -/
def clearValue (t : AtomTable) (a : Nat) : AtomTable :=
  { t with
    records := t.records.modify a fun r =>
      { value := none, previous := r.value.getD r.previous, level := none, reason := none } }

/-- Takes the value of an atom, which goes back on the heap. -/
def dropValue (t : AtomTable) (a : Nat) (deferred : Bool) : AtomTable :=
  { t.clearValue a with
    activity := if deferred then (t.activity.activateDeferred a).2 else (t.activity.activate a).2 }

/-! ## Activity -/

def scaleActivity (t : AtomTable) (factor : Float) : AtomTable :=
  { t with activity := t.activity.mapValues (· * factor) }

def decay (t : AtomTable) : AtomTable := t.scaleActivity t.options.decay.value

/-- Scales all activities down by the greatest bump. -/
def rescore (t : AtomTable) : AtomTable := t.scaleActivity (1.0 / t.options.bump.max)

def activityOf (t : AtomTable) (a : Nat) : Float := (t.activity.value? a).getD 0.0

/-- Adds the bump to the activity of an atom. -/
def raise (t : AtomTable) (a : Nat) : AtomTable :=
  { t with activity := (t.activity.revalue a (t.activityOf a + t.options.bump.value)).settle a }

/-- Raises the activity of an atom, rescoring first if the sum would pass the greatest bump. -/
def bump (t : AtomTable) (a : Nat) : AtomTable :=
  (if t.options.bump.max < t.activityOf a + t.options.bump.value then t.rescore else t).raise a

/-- Counts a decision; after an interval of decisions, activities decay. -/
def noteDecision (t : AtomTable) : AtomTable :=
  if t.options.decayInterval.value ≤ t.sinceDecay + 1 then { t with sinceDecay := 0 }.decay
  else { t with sinceDecay := t.sinceDecay + 1 }

def popMostActive (t : AtomTable) : Option Nat × AtomTable :=
  let (a, activity) := t.activity.popMax
  (a, { t with activity })

def activeCount (t : AtomTable) : Nat := t.activity.activeCount

/-! ## Calls

What a caller may ask of the table, as it is run.  An atom the table does not know is a fault, and so is a place of the
activity heap that is not there. -/

namespace Call

variable {α : Type}

@[inline] def ask (a : Nat) (f : AtomRecord → α) : Run AtomTable α := do
  match (← get).records[a]? with
  | some r => pure (f r)
  | none => Run.fault

@[inline] def change (a : Nat) (f : AtomTable → AtomTable) : Run AtomTable Unit := do
  Run.require ((← get).knows a)
  modify f

/-- Runs a call of the activity heap. -/
@[inline] def onActivity (m : Run (IndexHeap Float) α) : Run AtomTable α := fun t =>
  let heap := t.activity
  let t := { t with activity := default }
  match m heap with
  | .ok a heap => .ok a { t with activity := heap }
  | .error e heap => .error e { t with activity := heap }

def fresh (previous : Bool) : Run AtomTable Nat := do
  let a := (← get).records.size
  if a ≤ atomMax then
    onActivity do
      let _ ← IndexHeap.Call.add a 0.0
      let _ ← IndexHeap.Call.activate a
    modify fun t => { t with records := t.records.push { previous } }
    pure a
  else Run.fail (.atoms .atomsExhausted)

def standing (l : Literal) : Run AtomTable (Option Bool) :=
  ask l.atom fun r => r.value.map (· == l.positive)

def setValue (l : Literal) (level : Nat) (reason : Option Reason) : Run AtomTable Unit :=
  change l.atom (·.setValue l level reason)

def setLevel (a : Nat) (level : Nat) : Run AtomTable Unit := change a (·.setLevel a level)

def dropValue (a : Nat) (deferred : Bool) : Run AtomTable Unit := do
  change a (·.clearValue a)
  let _ ← onActivity (if deferred then IndexHeap.Call.activateDeferred a else IndexHeap.Call.activate a)

def activity (a : Nat) : Run AtomTable Float := onActivity (IndexHeap.Call.value a)

def raise (a : Nat) : Run AtomTable Unit := do
  let raised := (← activity a) + (← get).options.bump.value
  onActivity do
    IndexHeap.Call.revalue a raised
    IndexHeap.Call.settle a

def bump (a : Nat) : Run AtomTable Unit := do
  let raised := (← activity a) + (← get).options.bump.value
  if (← get).options.bump.max < raised then modify rescore
  raise a

def popMostActive : Run AtomTable (Option Nat) := onActivity IndexHeap.Call.popMax

end Call

end AtomTable

end Cdcl
