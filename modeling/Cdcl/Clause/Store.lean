import Cdcl.Clause.Stored
/-!
# Clause.Store — the stored clauses

Clauses of three literals or more.  Those of the formula, the input clauses, stand in the order they came.  Learnt
clauses stand in slots that are used again, the slot freed last before the others; a token tells the clauses of one
slot apart.  Learnt clauses have an activity: it starts at the bump, grows by the bump each time the clause is of use,
and the bump itself grows as activities decay.
-/
namespace Cdcl

structure ClauseStore where
  options : ClauseOptions := {}
  input : Array (Option StoredClause) := #[]
  learnt : Array (Option StoredClause) := #[]
  /-- Keys of removed learnt clauses, the last removed first. -/
  freed : List ClauseKey := []
  inputCount : Nat := 0
  learntCount : Nat := 0
  inputLiterals : Nat := 0
  learntLiterals : Nat := 0

namespace ClauseStore

instance : Inhabited ClauseStore := ⟨{}⟩

/-! ## Looking up -/

@[inline] def slot (s : ClauseStore) : ClauseKey → Option StoredClause
  | .input i => s.input.getD i none
  | .learnt i _ => s.learnt.getD i none

/-- The clause of a key.  A slot may be empty, or hold a later clause. -/
@[inline] def find (s : ClauseStore) (key : ClauseKey) : Except ClauseError StoredClause :=
  match s.slot key with
  | some c => if c.key = key then .ok c else .error .invalidKeyToken
  | none => .error .missing

def clauses (s : ClauseStore) : List StoredClause := (s.input.toList ++ s.learnt.toList).filterMap id

def inputKeys (s : ClauseStore) : List ClauseKey := (s.input.toList.filterMap id).map (·.key)

def learntKeys (s : ClauseStore) : List ClauseKey := (s.learnt.toList.filterMap id).map (·.key)

def counts (s : ClauseStore) : List Nat := [s.inputCount, s.learntCount, s.inputLiterals, s.learntLiterals]

/-! ## Changing a clause in its slot -/

@[inline] def modifySlot (s : ClauseStore) (key : ClauseKey) (f : StoredClause → StoredClause) : ClauseStore :=
  match key with
  | .input i => { s with input := s.input.modify i (Option.map f) }
  | .learnt i _ => { s with learnt := s.learnt.modify i (Option.map f) }

@[inline] def setLiterals (s : ClauseStore) (key : ClauseKey) (literals : Clause) : ClauseStore :=
  s.modifySlot key fun c => { c with literals }

def setActivity (s : ClauseStore) (key : ClauseKey) (activity : Float) : ClauseStore :=
  s.modifySlot key fun c => { c with activity }

/-! ## Activity -/

def currentBump (s : ClauseStore) : Float := s.options.bump.value

/-- Scales the bump and all activities down by the greatest bump. -/
def rescale (s : ClauseStore) : ClauseStore :=
  let factor := 1.0 / s.options.bump.max
  { s with
    learnt := s.learnt.map (Option.map fun c => { c with activity := c.activity * factor })
    options := { s.options with bump := s.options.bump.put (s.options.bump.value * factor) } }

/-- Adds the bump to the activity of a learnt clause, if the key names one. -/
def bump (s : ClauseStore) (key : ClauseKey) : ClauseStore :=
  if key.isLearnt then
    match s.find key with
    | .error _ => s
    | .ok c =>
      let raised := c.activity + s.options.bump.value
      let s := s.setActivity key raised
      if s.options.bump.max < raised then s.rescale else s
  else s

/-- Lets all activities decay, by a growing bump. -/
def decay (s : ClauseStore) : ClauseStore :=
  let grown := s.options.bump.value / s.options.decay.value
  let s := { s with options := { s.options with bump := s.options.bump.put grown } }
  if s.options.bump.max < grown then s.rescale else s

/-! ## Storing and removing -/

/-- The key of the last freed slot that has a use left, and the keys freed before it. -/
def reuse : List ClauseKey → Option (ClauseKey × List ClauseKey)
  | [] => none
  | key :: freed =>
    match key.retoken with
    | .ok fresh => some (fresh, freed)
    | .error _ => reuse freed

def pushInput (s : ClauseStore) (key : ClauseKey) (literals : Clause) : ClauseStore :=
  { s with
    input := s.input.push (some { key, literals, activity := 0.0 })
    inputCount := s.inputCount + 1
    inputLiterals := s.inputLiterals + literals.length }

/-- Puts a learnt clause into the slot of its key, which is in use no more, or is the next one. -/
def putLearnt (s : ClauseStore) (key : ClauseKey) (literals : Clause) : ClauseStore :=
  let stored := some { key, literals, activity := 0.0 }
  let s := { s with
    learnt := if key.slot < s.learnt.size then s.learnt.setIfInBounds key.slot stored else s.learnt.push stored
    learntCount := s.learntCount + 1
    learntLiterals := s.learntLiterals + literals.length }
  s.bump key

namespace Call

def find (key : ClauseKey) : Run ClauseStore StoredClause := do
  Run.ofExcept .clauses ((← get).find key)

def storeInput (literals : Clause) : Run ClauseStore ClauseKey := do
  let slot := (← get).input.size
  if slot < slotLimit then
    modify (·.pushInput (.input slot) literals)
    pure (.input slot)
  else Run.fail (.clauses .storageExhausted)

def freshLearntKey : Run ClauseStore ClauseKey := do
  let s ← get
  match reuse s.freed with
  | some (key, freed) =>
    modify ({ · with freed })
    pure key
  | none =>
    let slot := s.learnt.size
    modify ({ · with freed := [] })
    if slot < slotLimit then pure (.learnt slot 0) else Run.fail (.clauses .storageExhausted)

def storeLearnt (literals : Clause) : Run ClauseStore ClauseKey := do
  let key ← freshLearntKey
  modify (·.putLearnt key literals)
  pure key

def remove (key : ClauseKey) : Run ClauseStore StoredClause := do
  let c ← find key
  let size := c.literals.length
  match key with
  | .input i =>
    let s ← get
    Run.require (1 ≤ s.inputCount && size ≤ s.inputLiterals)
    modify fun s => { s with
      input := s.input.setIfInBounds i none
      inputCount := s.inputCount - 1
      inputLiterals := s.inputLiterals - size }
  | .learnt i _ =>
    let s ← get
    Run.require (1 ≤ s.learntCount && size ≤ s.learntLiterals)
    modify fun s => { s with
      learnt := s.learnt.setIfInBounds i none
      learntCount := s.learntCount - 1
      learntLiterals := s.learntLiterals - size
      freed := key :: s.freed }
  pure c

def noteLiteralsRemoved (key : ClauseKey) (n : Nat) : Run ClauseStore Unit := do
  if key.isLearnt then
    Run.require (n ≤ (← get).learntLiterals)
    modify fun s => { s with learntLiterals := s.learntLiterals - n }
  else
    Run.require (n ≤ (← get).inputLiterals)
    modify fun s => { s with inputLiterals := s.inputLiterals - n }

def swap (key : ClauseKey) (i j : Nat) : Run ClauseStore Unit := do
  let c ← find key
  let literals ← Run.expect (c.literals.swap? i j)
  modify (·.setLiterals key literals)

def setActivity (key : ClauseKey) (activity : Float) : Run ClauseStore Unit := do
  let _ ← find key
  modify (·.setActivity key activity)

/-- Stores a learnt clause and removes it, so many times, and answers the last key. -/
def cycle (literals : Clause) : Nat → Run ClauseStore (Option ClauseKey)
  | 0 => pure none
  | n + 1 => do
    let key ← storeLearnt literals
    let _ ← remove key
    if n = 0 then pure (some key) else cycle literals n

end Call

end ClauseStore

end Cdcl
