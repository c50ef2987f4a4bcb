import Cdcl.Dimacs
/-!
# Reading — a text asks for atoms and clauses

What a text asks for depends on the text alone (`requests`).  Reading it is to do what it asks for, one after the other,
and to fail at its end if the text is at fault (`readAll_eq`).  So what reading does to a context is what adding atoms and
clauses does.
-/
namespace Cdcl
namespace Dimacs

/-- What a text asks for at a time. -/
inductive Request
  /-- So many atoms, if there are not. -/
  | atoms (n : Nat)
  | clause (clause : Clause)
deriving DecidableEq, Repr

/-- What the words of a line ask for, and what has been read after them. -/
def wordRequests (line : Nat) : List (List Char) → Progress → List Request × Except Failure Progress
  | [], p => ([], .ok p)
  | word :: rest, p =>
    match integer? word with
    | none => ([], .error (.parse (.literal line)))
    | some v =>
      if v = 0 then
        let more := wordRequests line rest { info := { p.info with clauses := p.info.clauses + 1 }, clause := [] }
        (.clause p.clause.reverse :: more.1, more.2)
      else
        let more := wordRequests line rest { p with clause := .ofAtom (v.natAbs - 1) (0 < v) :: p.clause }
        (.atoms v.natAbs :: more.1, more.2)

/-- What lines ask for, and what has been read after them. -/
def lineRequests : Nat → List (Option (List Char)) → Progress → List Request × Except Failure Progress
  | _, [], p => ([], .ok p)
  | before, none :: _, _ => ([], .error (.parse (.line before)))
  | before, some cs :: rest, p =>
    match Line.ofChars cs with
    | .skip => lineRequests (before + 1) rest p
    | .stop => ([], .ok p)
    | .problem words =>
      match problem? words with
      | none => ([], .error (.parse .problemSpecification))
      | some (atoms, clauses) =>
        let more := lineRequests (before + 1) rest
          { p with info := { p.info with expectedAtoms := some atoms, expectedClauses := some clauses } }
        (.atoms atoms :: more.1, more.2)
    | .literals words =>
      match wordRequests (before + 1) words p with
      | (first, .error e) => (first, .error e)
      | (first, .ok p) =>
        let more := lineRequests (before + 1) rest p
        (first ++ more.1, more.2)

/-- What a text, given by its lines, asks for. -/
def requests (lines : List (Option (List Char))) : List Request := (lineRequests 0 lines {}).1

end Dimacs

namespace Solver

open Dimacs

def perform : Request → Solver Unit
  | .atoms n => ensureAtoms n
  | .clause clause => do
    let _ ← addClause clause

/-- What has been read, or why it cannot be. -/
def outcome {α : Type} : Except Failure α → Solver α
  | .ok a => pure a
  | .error e => Run.fail e

theorem readWords_eq (line : Nat) : ∀ (words : List (List Char)) (p : Progress),
    readWords line words p = (do
      (wordRequests line words p).1.forM perform
      outcome (wordRequests line words p).2)
  | [], p => by simp [readWords, wordRequests, outcome]
  | word :: rest, p => by
    unfold readWords wordRequests
    cases integer? word with
    | none => simp [outcome]
    | some v =>
      dsimp only
      split
      · dsimp only
        rw [List.forM_eq_forM, List.forM_cons, bind_assoc, ← List.forM_eq_forM, ← readWords_eq]
        simp [perform]
      · dsimp only
        rw [List.forM_eq_forM, List.forM_cons, bind_assoc, ← List.forM_eq_forM, ← readWords_eq]
        rfl

theorem readLines_eq : ∀ (before : Nat) (lines : List (Option (List Char))) (p : Progress),
    readLines before lines p = (do
      (lineRequests before lines p).1.forM perform
      outcome (lineRequests before lines p).2)
  | _, [], p => by simp [readLines, lineRequests, outcome]
  | before, none :: rest, p => by simp [readLines, lineRequests, outcome]
  | before, some cs :: rest, p => by
    unfold readLines lineRequests
    cases Line.ofChars cs with
    | skip => exact readLines_eq (before + 1) rest p
    | stop => simp [outcome]
    | problem words =>
      dsimp only
      cases problem? words with
      | none => simp [outcome]
      | some counts =>
        dsimp only
        rw [List.forM_eq_forM, List.forM_cons, bind_assoc, ← List.forM_eq_forM, ← readLines_eq]
        rfl
    | literals words =>
      dsimp only
      rw [readWords_eq]
      cases hwords : wordRequests (before + 1) words p with
      | mk first last =>
        cases last with
        | error e =>
          dsimp only
          rw [bind_assoc]
          rfl
        | ok p =>
          dsimp only
          rw [List.forM_eq_forM, List.forM_append, bind_assoc, bind_assoc, ← List.forM_eq_forM, ← readLines_eq]
          simp [outcome]

/-- **Reading a text is doing what it asks for**, and then saying what was read. -/
theorem readAll_eq (lines : List (Option (List Char))) :
    readAll lines = (do
      (requests lines).forM perform
      let p ← outcome (lineRequests 0 lines {}).2
      if p.clause.isEmpty then return { p.info with atoms := (← get).atoms.count }
      else Run.fail (.parse .unterminatedClause)) := by
  unfold readAll
  rw [readLines_eq, bind_assoc]
  rfl

end Solver
end Cdcl
