/-!
# Options.Bounded — a value with bounds

An option has a name, a least and a greatest value, and a value.  `set?` takes only a value within the bounds; a value
that compares with nothing, such as a float that is no number, is within none.  `put` takes any value.
-/
namespace Cdcl

structure Bounded (α : Type) where
  name : String
  min : α
  max : α
  value : α

namespace Bounded

variable {α : Type}

/-- The option with a new value, if the bounds admit it. -/
def set? [LE α] [DecidableLE α] (o : Bounded α) (v : α) : Option (Bounded α) :=
  if o.min ≤ v ∧ v ≤ o.max then some { o with value := v } else none

def put (o : Bounded α) (v : α) : Bounded α := { o with value := v }

theorem set?_eq_some_iff [LE α] [DecidableLE α] {o o' : Bounded α} {v : α} :
    o.set? v = some o' ↔ (o.min ≤ v ∧ v ≤ o.max) ∧ o' = o.put v := by
  unfold set? put
  split
  · rename_i h
    simp only [h, and_self, true_and, Option.some.injEq]
    exact eq_comm
  · rename_i h
    simp [h]

end Bounded

end Cdcl
