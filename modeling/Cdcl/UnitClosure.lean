import Cdcl.Formula
/-!
# UnitClosure — what the unit rule derives

From some literals, taken as true, the unit rule derives each literal of a clause whose other literals are false by
then.  The closure is the least set that has the given literals and is closed under the rule.  So it does not depend
on any order, of clauses or of literals within them.

Whatever is derived holds wherever the clauses and the given literals do (`UnitClosure.holds`).
-/
namespace Cdcl

inductive UnitClosure (clauses : Clause → Prop) (given : Literal → Prop) : Literal → Prop
  | given {l : Literal} (h : given l) : UnitClosure clauses given l
  | unit {c : Clause} {l : Literal} (hc : clauses c) (hl : l ∈ c)
      (hothers : ∀ m ∈ c, m ≠ l → UnitClosure clauses given m.negate) : UnitClosure clauses given l

namespace UnitClosure

variable {clauses clauses' : Clause → Prop} {given given' : Literal → Prop} {l : Literal}

theorem mono (h : UnitClosure clauses given l) (hc : ∀ c, clauses c → clauses' c) (hg : ∀ m, given m → given' m) :
    UnitClosure clauses' given' l := by
  induction h with
  | given h => exact .given (hg _ h)
  | unit h hl _ ih => exact .unit (hc _ h) hl ih

/-- **The order of literals within clauses does not matter.** -/
theorem perm (h : UnitClosure clauses given l) (hc : ∀ c, clauses c → ∃ c', clauses' c' ∧ c'.Perm c) :
    UnitClosure clauses' given l := by
  induction h with
  | given h => exact .given h
  | unit h hl _ ih =>
    obtain ⟨c', hc', hp⟩ := hc _ h
    exact .unit hc' (hp.mem_iff.2 hl) fun m hm => ih m (hp.mem_iff.1 hm)

/-- **The unit rule derives only what follows.** -/
theorem holds {v : Valuation} (h : UnitClosure clauses given l) (hc : ∀ c, clauses c → c.Holds v)
    (hg : ∀ m, given m → m.Holds v) : l.Holds v := by
  induction h with
  | given h => exact hg _ h
  | @unit c l h hl _ ih =>
    obtain ⟨m, hm, hv⟩ := hc c h
    by_cases hml : m = l
    · exact hml ▸ hv
    · exact absurd hv (Literal.holds_negate.1 (ih m hm hml))

/-- A set with the given literals that is closed under the rule has everything derived. -/
theorem subset_of_closed {s : Literal → Prop} (hg : ∀ m, given m → s m)
    (hunit : ∀ c l, clauses c → l ∈ c → (∀ m ∈ c, m ≠ l → s m.negate) → s l) (h : UnitClosure clauses given l) :
    s l := by
  induction h with
  | given h => exact hg _ h
  | unit hc hl _ ih => exact hunit _ _ hc hl ih

end UnitClosure

end Cdcl
