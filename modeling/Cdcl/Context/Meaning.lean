import Cdcl.Context
import Cdcl.Formula
/-!
# Context.Meaning — what a context says

The live clauses of a context are the binary ones in its watch lists and the long ones in its store.  At level zero a
context admits the valuations under which its live clauses and the literals of its trail hold; if it is known to be
unsatisfiable, it admits none.  A context just made admits every valuation (`admits_make`).
-/
namespace Cdcl
namespace Context

/-- The clauses a context holds, other than those of one literal. -/
inductive Live (c : Context) : Clause → Prop
  | binary {a b : Literal} (h : b ∈ c.watches.binaryOf a) : Live c [a, b]
  | long {key : ClauseKey} {stored : StoredClause} (h : c.clauses.find key = .ok stored) : Live c stored.literals

structure Admits (c : Context) (v : Valuation) : Prop where
  consistent : c.state ≠ .unsatisfiable
  clauses : ∀ d, c.Live d → d.Holds v
  literals : ∀ l ∈ c.trail.literals, l.Holds v

/-- The live clause that a conflict names. -/
inductive Names (c : Context) : Conflict → Clause → Prop
  | binary {a b : Literal} (h : b ∈ c.watches.binaryOf a) : Names c (.binary a b) [a, b]
  | long {key : ClauseKey} {stored : StoredClause} (h : c.clauses.find key = .ok stored) :
    Names c (.long key) stored.literals

theorem Names.live {c : Context} {conflict : Conflict} {clause : Clause} (h : c.Names conflict clause) :
    c.Live clause := by
  cases h with
  | binary h => exact .binary h
  | long h => exact .long h

/-- A live clause is false. -/
def Clashing (c : Context) : Prop := ∃ clause, c.Live clause ∧ ∀ l ∈ clause, c.atoms.isFalse l = true

/-- Where nothing is stored, and the binary lists are empty, no clause is live. -/
theorem not_live_of_empty {c : Context} (hb : ∀ l, c.watches.binaryOf l = #[]) (hi : c.clauses.input = #[])
    (hl : c.clauses.learnt = #[]) (d : Clause) : ¬c.Live d := by
  rintro (h | h)
  · simp [hb] at h
  · rename_i key stored
    cases key <;> simp [ClauseStore.find, ClauseStore.slot, hi, hl] at h

theorem not_live_make (options : Options) (random : Chance) (d : Clause) : ¬(make options random).Live d :=
  not_live_of_empty (fun l => by simp [make, Watches.binaryOf]) rfl rfl d

/-- **A context without clauses admits every valuation.** -/
theorem admits_make (options : Options) (random : Chance) (v : Valuation) : (make options random).Admits v where
  consistent := by simp [make]
  clauses d h := absurd h (not_live_make options random d)
  literals l h := by simp [make] at h

end Context
end Cdcl
