import Cdcl.AtomTable
import Cdcl.Clause
/-!
# Clause.Stored — a clause as the store holds it

A stored clause has its key and an activity, and its first two literals are watched.  While the clause is not satisfied,
neither of the two is false unless every other literal is.
-/
namespace Cdcl

/-- How the search for another literal to watch ends. -/
inductive Replacement
  | stray
  | none
  | found (watch : Literal) (clause : Clause)

namespace Clause

/-- The first literal that is not false, with `second` put into its place. -/
def replaceIn (standing : Literal → Standing) (second : Literal) : Clause → Replacement
  | [] => .none
  | l :: rest =>
    match standing l with
    | .unknown => .stray
    | .fails =>
      match replaceIn standing second rest with
      | .found watch rest => .found watch (l :: rest)
      | other => other
    | _ => .found l (second :: rest)

/-- Exchanges the second literal with the first one after it that is not false. -/
def replaceSecond (standing : Literal → Standing) : Clause → Replacement
  | first :: second :: rest =>
    match replaceIn standing second rest with
    | .found watch rest => .found watch (first :: watch :: rest)
    | other => other
  | _ => .none

theorem of_replaceIn {standing : Literal → Standing} {second watch : Literal} : ∀ {c d : Clause},
    replaceIn standing second c = .found watch d →
      (watch :: d).Perm (second :: c) ∧ watch ∈ c ∧ (standing watch = .holds ∨ standing watch = .free)
  | [], _, h => by simp [replaceIn] at h
  | l :: rest, d, h => by
    unfold replaceIn at h
    cases hl : standing l with
    | unknown => simp [hl] at h
    | holds =>
      simp only [hl] at h
      cases h
      exact ⟨.swap .., by simp, .inl hl⟩
    | free =>
      simp only [hl] at h
      cases h
      exact ⟨.swap .., by simp, .inr hl⟩
    | fails =>
      simp only [hl] at h
      cases hr : replaceIn standing second rest with
      | stray => simp [hr] at h
      | none => simp [hr] at h
      | found w e =>
        simp only [hr] at h
        cases h
        obtain ⟨hp, hw, hs⟩ := of_replaceIn hr
        exact ⟨(List.Perm.swap ..).trans ((hp.cons l).trans (.swap ..)), List.mem_cons_of_mem _ hw, hs⟩

theorem replaceIn_eq_none_iff {standing : Literal → Standing} {second : Literal} : ∀ {c : Clause},
    replaceIn standing second c = .none ↔ ∀ l ∈ c, standing l = .fails
  | [] => by simp [replaceIn]
  | l :: rest => by
    unfold replaceIn
    cases hl : standing l with
    | fails =>
      have ih := @replaceIn_eq_none_iff standing second rest
      cases hr : replaceIn standing second rest <;> simp_all
    | _ => simp [hl]

/-- The search goes astray only at an unknown literal. -/
theorem replaceIn_ne_stray {standing : Literal → Standing} {second : Literal} : ∀ {c : Clause},
    (∀ l ∈ c, standing l ≠ .unknown) → replaceIn standing second c ≠ .stray
  | [], _ => nofun
  | l :: rest, h => by
    have hrest : replaceIn standing second rest ≠ .stray := replaceIn_ne_stray fun m hm => h m (List.mem_cons_of_mem l hm)
    unfold replaceIn
    cases hl : standing l with
    | unknown => exact absurd hl (h l List.mem_cons_self)
    | fails =>
      cases hr : replaceIn standing second rest with
      | stray => exact absurd hr hrest
      | _ => simp
    | _ => simp

theorem replaceSecond_ne_stray {standing : Literal → Standing} {first second : Literal} {rest : Clause}
    (h : ∀ l ∈ rest, standing l ≠ .unknown) : replaceSecond standing (first :: second :: rest) ≠ .stray := by
  have hrest : replaceIn standing second rest ≠ .stray := replaceIn_ne_stray h
  unfold replaceSecond
  cases hr : replaceIn standing second rest with
  | stray => exact absurd hr hrest
  | _ => simp [hr]

/-- **A new watch is a literal of the clause that is not false, and the clause keeps its literals.** -/
theorem of_replaceSecond {standing : Literal → Standing} {watch : Literal} {c d : Clause}
    (h : replaceSecond standing c = .found watch d) :
    d.Perm c ∧ d[1]? = some watch ∧ d.head? = c.head? ∧ (standing watch = .holds ∨ standing watch = .free) := by
  unfold replaceSecond at h
  split at h
  · rename_i first second rest
    cases hr : replaceIn standing second rest with
    | stray => simp [hr] at h
    | none => simp [hr] at h
    | found w e =>
      simp only [hr] at h
      cases h
      obtain ⟨hp, _, hs⟩ := of_replaceIn hr
      exact ⟨hp.cons first, rfl, rfl, hs⟩
  · cases h

/-- **There is no new watch exactly if every literal after the second is false.** -/
theorem replaceSecond_eq_none_iff {standing : Literal → Standing} {first second : Literal} {rest : Clause} :
    replaceSecond standing (first :: second :: rest) = .none ↔ ∀ l ∈ rest, standing l = .fails := by
  rw [← @replaceIn_eq_none_iff standing second rest, replaceSecond]
  cases replaceIn standing second rest <;> simp

end Clause

namespace AtomTable

def trueAtRoot (t : AtomTable) (l : Literal) : Bool := t.isTrue l && t.levelOrZero l.atom == 0

def falseAtRoot (t : AtomTable) (l : Literal) : Bool := t.isFalse l && t.levelOrZero l.atom == 0

end AtomTable

structure StoredClause where
  key : ClauseKey
  literals : Clause
  activity : Float
deriving Inhabited

namespace StoredClause

def satisfiedAtRoot (c : StoredClause) (t : AtomTable) : Bool := c.literals.any t.trueAtRoot

def atRoot (c : StoredClause) (t : AtomTable) : Clause := c.literals.filter fun l => !t.falseAtRoot l

/-! ## Calls

A stored clause beside a table of atoms.  A literal of an atom the table does not know is a fault once it is looked
at. -/

namespace Call

def swap (i j : Nat) : Run (StoredClause × AtomTable) Unit := do
  let (c, t) ← get
  let literals ← Run.expect (c.literals.swap? i j)
  set ({ c with literals }, t)

def replaceSecond : Run (StoredClause × AtomTable) (Option Literal) := do
  let (c, t) ← get
  match c.literals.replaceSecond t.standing with
  | .stray => Run.fault
  | .none => pure none
  | .found watch literals =>
    set ({ c with literals }, t)
    pure (some watch)

def satisfiedAtRoot : Run (StoredClause × AtomTable) Bool := do
  let (c, t) ← get
  match c.literals.find? fun l => !t.knows l.atom || t.trueAtRoot l with
  | none => pure false
  | some l => if t.knows l.atom then pure true else Run.fault

/-- Removes the literals false at level zero, and counts them. -/
def strip : Run (StoredClause × AtomTable) Nat := do
  let (c, t) ← get
  Run.require (c.literals.all fun l => t.knows l.atom)
  let literals := c.atRoot t
  set ({ c with literals }, t)
  pure (c.literals.length - literals.length)

def onAtoms {α : Type} (m : Run AtomTable α) : Run (StoredClause × AtomTable) α := fun (c, t) =>
  match m t with
  | .ok a t => .ok a (c, t)
  | .error e t => .error e (c, t)

end Call

end StoredClause

end Cdcl
