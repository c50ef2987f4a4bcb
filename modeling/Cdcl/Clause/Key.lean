import Cdcl.Failure
/-!
# Clause.Key — names of stored clauses

A key names a slot of the store.  Slots of input clauses are used once.  A slot of a learnt clause is used again
after its clause is removed, and a token tells the uses apart; a slot has as many uses as there are tokens.
-/
namespace Cdcl

/-- Slots of either kind are counted by a word of 32 bits. -/
def slotLimit : Nat := 4294967296

/-- The last token of a slot. -/
def tokenMax : Nat := 65535

inductive ClauseKey
  | input (slot : Nat)
  | learnt (slot token : Nat)
deriving DecidableEq, Inhabited, Repr

namespace ClauseKey

def slot : ClauseKey → Nat
  | input i => i
  | learnt i _ => i

def isLearnt : ClauseKey → Bool
  | input _ => false
  | learnt _ _ => true

/-- The key of the next use of a slot. -/
def retoken : ClauseKey → Except ClauseError ClauseKey
  | input _ => .error .invalidKeyToken
  | learnt i token => if token < tokenMax then .ok (.learnt i (token + 1)) else .error .storageExhausted

def toText : ClauseKey → String
  | input i => s!"Original({i})"
  | learnt i token => s!"Addition({i}, {token})"

/-- Input keys first, then by slot, then by token. -/
instance : Ord ClauseKey where
  compare
    | input i, input j => compare i j
    | input _, learnt _ _ => .lt
    | learnt _ _, input _ => .gt
    | learnt i s, learnt j t => (compare i j).then (compare s t)

end ClauseKey

end Cdcl
