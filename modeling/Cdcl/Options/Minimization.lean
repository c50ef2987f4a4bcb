import Cdcl.Text.Lowercase
/-!
# Options.Minimization — how far a learnt clause is minimized

From least to greatest: not at all, through the clauses that are reasons of its literals, through any chain of reasons.
A name is read in any mixture of cases.
-/
namespace Cdcl

inductive Minimization
  | none
  | cheap
  | recursive
deriving DecidableEq, Inhabited, Repr

namespace Minimization

def rank : Minimization → Nat
  | none => 0
  | cheap => 1
  | recursive => 2

instance : LE Minimization := ⟨fun a b => a.rank ≤ b.rank⟩

instance : DecidableLE Minimization := fun a b => inferInstanceAs (Decidable (a.rank ≤ b.rank))

def least : Minimization := .none

def greatest : Minimization := .recursive

def toText : Minimization → String
  | none => "None"
  | cheap => "Cheap"
  | recursive => "Recursive"

/-- Reads a name, or answers why not. -/
def parse (text : String) : Except String Minimization :=
  let lower := Text.lowercase text
  if lower = "none" then .ok .none
  else if lower = "cheap" then .ok .cheap
  else if lower = "recursive" then .ok .recursive
  else .error ("Unknown minimization: " ++ lower)

end Minimization

end Cdcl
