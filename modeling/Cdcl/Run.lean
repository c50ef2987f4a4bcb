import Cdcl.Failure
/-!
# Run — programs over a state that may stop early

Every operation that can stop is a `Run σ α`: it takes a state of type `σ` to an answer or to an interrupt, and in
both cases to the state it reached.  What was changed before a failure stays changed.

A sequence answers exactly if its parts do (`bind_eq_ok_iff`), and stops where the first of them stops
(`bind_eq_error_iff`).
-/
namespace Cdcl

/-- Why a program stops without its answer.  A fault is a call that has no meaning: an atom no table knows, a count
taken below zero, a probability that is none.  `exhausted` says that the given fuel was too little. -/
inductive Interrupt
  | failure (f : Failure)
  | refusal (r : Refusal)
  | fault
  | exhausted
deriving DecidableEq, Repr

abbrev Run (σ : Type) := EStateM Interrupt σ

namespace Run

variable {σ α : Type}

@[inline] def fail (f : Failure) : Run σ α := throw (.failure f)

@[inline] def refuse (r : Refusal) : Run σ α := throw (.refusal r)

@[inline] def fault : Run σ α := throw .fault

@[inline] def require (ok : Bool) : Run σ Unit := if ok then pure () else fault

@[inline] def expect (x : Option α) : Run σ α :=
  match x with
  | some a => pure a
  | none => fault

/-- The value, or the failure that stands in its place. -/
@[inline] def ofExcept {ε : Type} (wrap : ε → Failure) (x : Except ε α) : Run σ α :=
  match x with
  | .ok a => pure a
  | .error e => fail (wrap e)

/-- Runs a program and hands back a failure as a value.  Other interrupts still stop. -/
@[inline] def attempt (m : Run σ α) : Run σ (Except Failure α) := fun s =>
  match m s with
  | .ok a s => .ok (.ok a) s
  | .error (.failure f) s => .ok (.error f) s
  | .error e s => .error e s

/-! ## Running a program step by step -/

variable {β : Type}

@[simp] theorem fail_apply (f : Failure) (s : σ) : (fail f : Run σ α) s = .error (.failure f) s := rfl

@[simp] theorem refuse_apply (r : Refusal) (s : σ) : (refuse r : Run σ α) s = .error (.refusal r) s := rfl

@[simp] theorem fault_apply (s : σ) : (fault : Run σ α) s = .error .fault s := rfl

@[simp] theorem pure_apply (a : α) (s : σ) : (pure a : Run σ α) s = .ok a s := rfl

@[simp] theorem get_apply (s : σ) : (get : Run σ σ) s = .ok s s := rfl

@[simp] theorem set_apply (s t : σ) : (set t : Run σ PUnit) s = .ok ⟨⟩ t := rfl

@[simp] theorem modify_apply (f : σ → σ) (s : σ) : (modify f : Run σ PUnit) s = .ok ⟨⟩ (f s) := rfl

@[simp] theorem modifyGet_apply (f : σ → α × σ) (s : σ) : (modifyGet f : Run σ α) s = .ok (f s).1 (f s).2 := rfl

theorem bind_of_ok {m : Run σ α} {f : α → Run σ β} {s t : σ} {a : α} (h : m s = .ok a t) : (m >>= f) s = f a t := by
  show EStateM.bind m f s = f a t
  unfold EStateM.bind
  rw [h]

theorem bind_of_error {m : Run σ α} {f : α → Run σ β} {s t : σ} {e : Interrupt} (h : m s = .error e t) :
    (m >>= f) s = .error e t := by
  show EStateM.bind m f s = .error e t
  unfold EStateM.bind
  rw [h]

/-- A program goes on alike after programs that end alike. -/
theorem bind_eq_of_eq {m n : Run σ α} {f : α → Run σ β} {s : σ} (h : m s = n s) : (m >>= f) s = (n >>= f) s := by
  show EStateM.bind m f s = EStateM.bind n f s
  unfold EStateM.bind
  rw [h]

/-- **A sequence answers exactly if both of its parts do.** -/
theorem bind_eq_ok_iff {m : Run σ α} {f : α → Run σ β} {s t : σ} {b : β} :
    (m >>= f) s = .ok b t ↔ ∃ a u, m s = .ok a u ∧ f a u = .ok b t := by
  cases h : m s with
  | ok a u =>
    rw [bind_of_ok h]
    exact ⟨fun hf => ⟨a, u, rfl, hf⟩, fun ⟨_, _, he, hf⟩ => by cases he; exact hf⟩
  | error e u => simp [bind_of_error h]

/-- **A sequence stops in its first part, or in its second.** -/
theorem bind_eq_error_iff {m : Run σ α} {f : α → Run σ β} {s t : σ} {e : Interrupt} :
    (m >>= f) s = .error e t ↔ m s = .error e t ∨ ∃ a u, m s = .ok a u ∧ f a u = .error e t := by
  cases h : m s with
  | ok a u =>
    rw [bind_of_ok h]
    exact ⟨fun hf => .inr ⟨a, u, rfl, hf⟩, fun hf => hf.elim nofun fun ⟨_, _, he, hf⟩ => by cases he; exact hf⟩
  | error e u => simp [bind_of_error h]

@[simp] theorem require_true (s : σ) : (require true : Run σ Unit) s = .ok () s := rfl

@[simp] theorem require_false (s : σ) : (require false : Run σ Unit) s = .error .fault s := rfl

theorem require_eq_ok_iff {ok : Bool} {s t : σ} {u : Unit} :
    (require ok : Run σ Unit) s = .ok u t ↔ ok = true ∧ t = s := by
  cases ok <;> simp [eq_comm]

theorem expect_eq_ok_iff {x : Option α} {s t : σ} {a : α} :
    (expect x : Run σ α) s = .ok a t ↔ x = some a ∧ t = s := by
  cases x <;> simp [expect, eq_comm]

theorem ofExcept_eq_ok_iff {ε : Type} {wrap : ε → Failure} {x : Except ε α} {s t : σ} {a : α} :
    (ofExcept wrap x : Run σ α) s = .ok a t ↔ x = .ok a ∧ t = s := by
  cases x <;> simp [ofExcept, eq_comm]

/-- An attempt takes a failure for an answer, in the state where it arose. -/
theorem attempt_eq_ok_iff {m : Run σ α} {s t : σ} {x : Except Failure α} :
    attempt m s = .ok x t ↔ (∃ a, x = .ok a ∧ m s = .ok a t) ∨ ∃ f, x = .error f ∧ m s = .error (.failure f) t := by
  unfold attempt
  cases h : m s with
  | ok a u => grind
  | error e u => cases e <;> grind

/-! ## Many programs, one after another -/

/-- What was asked and answered since a first state, the last first. -/
inductive Trace {ε : Type} (perform : ε → Run σ α) (first : σ) : List (ε × α) → σ → Prop
  | nil : Trace perform first [] first
  | cons {past : List (ε × α)} {s t : σ} {e : ε} {a : α} :
      Trace perform first past s → perform e s = .ok a t → Trace perform first ((e, a) :: past) t

end Run

end Cdcl
