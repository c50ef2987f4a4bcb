import Cdcl.Consequence
import Cdcl.Run
/-!
# Watches — the clauses to look at when a literal becomes false

Each literal has a list of the clauses of two literals it is in, by the other literal, and a list of the longer clauses
that watch it, by key.  A clause of two literals stands in the lists of both, and nowhere else.
-/
namespace Cdcl

structure Watches where
  /-- The other literals of the binary clauses, by literal. -/
  binary : Array (Array Literal) := #[]
  /-- The keys of the long clauses, by literal. -/
  long : Array (Array ClauseKey) := #[]

namespace Watches

instance : Inhabited Watches := ⟨{}⟩

/-- Whether there are lists for the literal, one of each kind. -/
@[inline] def knows (w : Watches) (l : Literal) : Bool :=
  decide (l.index < w.binary.size) && decide (l.index < w.long.size)

theorem knows_iff {w : Watches} {l : Literal} :
    w.knows l = true ↔ l.index < w.binary.size ∧ l.index < w.long.size := by simp [knows]

@[inline] def binaryOf (w : Watches) (l : Literal) : Array Literal := w.binary.getD l.index #[]

@[inline] def longOf (w : Watches) (l : Literal) : Array ClauseKey := w.long.getD l.index #[]

/-- Lists for both literals of a further atom. -/
def pushAtom (w : Watches) : Watches :=
  { binary := (w.binary.push #[]).push #[], long := (w.long.push #[]).push #[] }

def watchBinary (w : Watches) (a b : Literal) : Watches :=
  { w with binary := (w.binary.modify a.index (·.push b)).modify b.index (·.push a) }

def watchLong (w : Watches) (l : Literal) (key : ClauseKey) : Watches :=
  { w with long := w.long.modify l.index (·.push key) }

/-- Removes an element; the last one takes its place. -/
def removeAt {α : Type} (list : Array α) (i : Nat) : Array α :=
  match list[list.size - 1]? with
  | some last => (list.setIfInBounds i last).pop
  | none => list

/-- Removes every element equal to a given one, from an index on. -/
def removeAll {α : Type} [BEq α] (x : α) : Nat → Array α → Nat → Array α
  | 0, list, _ => list
  | fuel + 1, list, i =>
    match list[i]? with
    | none => list
    | some y => if y == x then removeAll x fuel (removeAt list i) i else removeAll x fuel list (i + 1)

def unwatchLong (w : Watches) (l : Literal) (key : ClauseKey) : Watches :=
  { w with long := w.long.modify l.index fun list => removeAll key list.size list 0 }

/-- Removes the first element equal to a given one. -/
def removeFirst {α : Type} [BEq α] (x : α) (list : Array α) : Array α :=
  match list.findIdx? (· == x) with
  | some i => removeAt list i
  | none => list

/-- The binary list of a literal, which is left empty. -/
def takeBinary (w : Watches) (l : Literal) : Array Literal × Watches :=
  (w.binaryOf l, { w with binary := w.binary.setIfInBounds l.index #[] })

/-- The long list of a literal, which is left empty until it is put back. -/
def takeLong (w : Watches) (l : Literal) : Array ClauseKey × Watches :=
  (w.longOf l, { w with long := w.long.setIfInBounds l.index #[] })

/-- Puts a long list back.  What was added meanwhile comes after it. -/
def restoreLong (w : Watches) (l : Literal) (list : Array ClauseKey) : Watches :=
  { w with long := w.long.modify l.index fun added => if added.isEmpty then list else list ++ added }

/-- Removes the binary clauses of a literal from the lists of both their literals.  Answers how many there were. -/
def removeBinaryOf (w : Watches) (l : Literal) : Nat × Watches :=
  let (list, w) := w.takeBinary l
  (list.size,
    { w with binary := list.foldl (fun binary other => binary.modify other.index (removeFirst l)) w.binary })

/-- How many binary clauses there are; each stands in two lists. -/
def binaryCount (w : Watches) : Nat := w.binary.foldl (fun n list => n + list.size) 0 / 2

/-! ## Calls

The operations as they are run.  A literal without lists is a fault. -/

namespace Call

variable {α : Type}

@[inline] def ask (l : Literal) (f : Watches → α) : Run Watches α := do
  Run.require ((← get).knows l)
  return f (← get)

@[inline] def change (l : Literal) (f : Watches → Watches) : Run Watches Unit := do
  Run.require ((← get).knows l)
  modify f

@[inline] def take (l : Literal) (f : Watches → α × Watches) : Run Watches α := do
  Run.require ((← get).knows l)
  modifyGet f

def fresh (n : Nat) : Run Watches Unit := n.forM fun _ _ => modify pushAtom

def watchBinary (a b : Literal) : Run Watches Unit := do
  Run.require ((← get).knows a)
  change b (·.watchBinary a b)

def watchLong (l : Literal) (key : ClauseKey) : Run Watches Unit := change l (·.watchLong l key)

def unwatchLong (l : Literal) (key : ClauseKey) : Run Watches Unit := change l (·.unwatchLong l key)

/-- A list that names a literal without lists of its own cannot be removed. -/
def removeBinaryOf (l : Literal) : Run Watches Nat := do
  let w ← get
  Run.require (w.knows l && (w.binaryOf l).all w.knows)
  modifyGet (·.removeBinaryOf l)

def takeBinary (l : Literal) : Run Watches (Array Literal) := take l (·.takeBinary l)

def takeLong (l : Literal) : Run Watches (Array ClauseKey) := take l (·.takeLong l)

def restoreLong (l : Literal) (list : Array ClauseKey) : Run Watches Unit := change l (·.restoreLong l list)

def binary (l : Literal) : Run Watches (Array Literal) := ask l (·.binaryOf l)

def long (l : Literal) : Run Watches (Array ClauseKey) := ask l (·.longOf l)

end Call

end Watches

end Cdcl
