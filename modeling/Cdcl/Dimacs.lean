import Cdcl.Solver.Building
import Cdcl.Text.Number
import Cdcl.Text.Split
/-!
# Dimacs — reading clauses from a text

A line that starts with `c` is a comment, one that starts with `p` announces the counts of atoms and clauses, and one
that starts with `%` ends the text; blanks before that first character do not count.  The other lines hold integers.
Each integer is a literal, zero ends a clause, and a clause may go over any number of lines.

Atoms are made as they are announced or met.  What was read before an error stays.
-/
namespace Cdcl
namespace Dimacs

/-- What a line is, by its first character that is not blank. -/
inductive Line
  | skip
  | stop
  | problem (words : List (List Char))
  | literals (words : List (List Char))
deriving DecidableEq, Repr

def Line.ofChars (cs : List Char) : Line :=
  match cs.dropWhile Text.isBlank with
  | [] => .skip
  | 'c' :: _ => .skip
  | '%' :: _ => .stop
  | 'p' :: _ => .problem (Text.words cs)
  | _ => .literals (Text.words cs)

/-- The counts of atoms and of clauses that a problem line announces. -/
def problem? : List (List Char) → Option (Nat × Nat)
  | ['p'] :: ['c', 'n', 'f'] :: atoms :: clauses :: _ => do
    let atoms ← Text.unsigned? countMax atoms
    let clauses ← Text.unsigned? countMax clauses
    if atoms ≤ atomLimit then some (atoms, clauses) else none
  | _ => none

/-- The integer of a word, if it is zero or a literal. -/
def integer? (word : List Char) : Option Int := (Text.signed64? word).filter fun v => decide (v.natAbs ≤ atomLimit)

/-- What a text announced, and what it held. -/
structure Info where
  expectedAtoms : Option Nat := none
  expectedClauses : Option Nat := none
  /-- Atoms of the context after reading. -/
  atoms : Nat := 0
  clauses : Nat := 0
deriving DecidableEq, Inhabited, Repr

/-- What has been read: the info, and the literals of the clause at hand, the last first. -/
structure Progress where
  info : Info := {}
  clause : Clause := []

end Dimacs

namespace Solver

open Dimacs

/-- Makes atoms until there are so many. -/
def ensureAtoms (n : Nat) : Solver Unit := do
  let _ ← freshAtoms (n - (← get).atoms.count)

def readWords (line : Nat) : List (List Char) → Progress → Solver Progress
  | [], p => pure p
  | word :: rest, p => do
    match integer? word with
    | none => Run.fail (.parse (.literal line))
    | some v =>
      if v = 0 then
        let _ ← addClause p.clause.reverse
        readWords line rest { info := { p.info with clauses := p.info.clauses + 1 }, clause := [] }
      else
        ensureAtoms v.natAbs
        readWords line rest { p with clause := .ofAtom (v.natAbs - 1) (0 < v) :: p.clause }

/-- Takes in lines, the first of them after so many.  A line that is no text ends the reading. -/
def readLines : Nat → List (Option (List Char)) → Progress → Solver Progress
  | _, [], p => pure p
  | before, none :: _, _ => Run.fail (.parse (.line before))
  | before, some cs :: rest, p => do
    match Line.ofChars cs with
    | .skip => readLines (before + 1) rest p
    | .stop => pure p
    | .problem words =>
      match problem? words with
      | none => Run.fail (.parse .problemSpecification)
      | some (atoms, clauses) =>
        ensureAtoms atoms
        readLines (before + 1) rest
          { p with info := { p.info with expectedAtoms := some atoms, expectedClauses := some clauses } }
    | .literals words => readLines (before + 1) rest (← readWords (before + 1) words p)

def readAll (lines : List (Option (List Char))) : Solver Info := do
  let p ← readLines 0 lines {}
  if p.clause.isEmpty then return { p.info with atoms := (← get).atoms.count }
  else Run.fail (.parse .unterminatedClause)

def readDimacs (text : List Char) : Solver Info := readAll ((Text.lines (· == '\n') text).map some)

/-- Reads bytes, of which each line for itself should be a text in UTF-8. -/
def readDimacsBytes (bytes : ByteArray) : Solver Info :=
  readAll ((Text.lines (· == 10) bytes.toList).map fun line =>
    (String.fromUTF8? ⟨line.toArray⟩).map String.toList)

end Solver
end Cdcl
