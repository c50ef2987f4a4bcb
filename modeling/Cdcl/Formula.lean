import Cdcl.Clause
/-!
# Formula — what clauses say

A valuation gives a value to every atom.  A literal holds if it agrees with the value of its atom, a clause if one of
its literals holds, and a formula if all of its clauses hold.  A formula entails a clause that holds wherever it does.

What a clause says does not change with its normal form (`Clause.holds_normal`), nor by leaving out literals that fail
(`Clause.holds_filter_iff`), and two clauses that hold entail their resolvent (`Clause.holds_resolvent`).
-/
namespace Cdcl

abbrev Valuation := Nat → Bool

namespace Literal

def Holds (v : Valuation) (l : Literal) : Prop := v l.atom = l.positive

instance (v : Valuation) (l : Literal) : Decidable (l.Holds v) := inferInstanceAs (Decidable (_ = _))

@[simp] theorem holds_negate {v : Valuation} {l : Literal} : l.negate.Holds v ↔ ¬l.Holds v := by
  unfold Holds
  rw [atom_negate, positive_negate]
  cases v l.atom <;> cases l.positive <;> simp

end Literal

namespace Clause

def Holds (v : Valuation) (c : Clause) : Prop := ∃ l ∈ c, l.Holds v

instance (v : Valuation) (c : Clause) : Decidable (c.Holds v) := inferInstanceAs (Decidable (∃ l ∈ c, l.Holds v))

@[simp] theorem not_holds_nil {v : Valuation} : ¬Holds v [] := by simp [Holds]

@[simp] theorem holds_cons {v : Valuation} {l : Literal} {c : Clause} : Holds v (l :: c) ↔ l.Holds v ∨ c.Holds v := by
  simp [Holds]

theorem holds_append {v : Valuation} {c d : Clause} : Holds v (c ++ d) ↔ c.Holds v ∨ d.Holds v := by
  simp only [Holds, List.mem_append, or_and_right, exists_or]

theorem Holds.mono {v : Valuation} {c d : Clause} (h : c.Holds v) (hcd : ∀ l ∈ c, l ∈ d) : d.Holds v := by
  obtain ⟨l, hl, hv⟩ := h
  exact ⟨l, hcd l hl, hv⟩

/-- Only which literals are in a clause matters. -/
theorem holds_congr {v : Valuation} {c d : Clause} (h : ∀ l, l ∈ c ↔ l ∈ d) : c.Holds v ↔ d.Holds v :=
  ⟨fun hc => hc.mono fun l => (h l).1, fun hd => hd.mono fun l => (h l).2⟩

/-- **The normal form of a clause says what the clause says.** -/
@[simp] theorem holds_normal {v : Valuation} {c : Clause} : c.normal.Holds v ↔ c.Holds v :=
  holds_congr fun _ => mem_normal

/-- A clause with a literal and its negation says nothing. -/
theorem holds_of_mem_negate {v : Valuation} {c : Clause} {l : Literal} (hl : l ∈ c) (hn : l.negate ∈ c) :
    c.Holds v := by
  by_cases h : l.Holds v
  · exact ⟨l, hl, h⟩
  · exact ⟨l.negate, hn, Literal.holds_negate.2 h⟩

/-- **A literal that fails may be left out.** -/
theorem holds_filter_iff {v : Valuation} {c : Clause} {keep : Literal → Bool}
    (h : ∀ l ∈ c, keep l = false → ¬l.Holds v) : Holds v (c.filter keep) ↔ c.Holds v := by
  constructor
  · exact fun hf => hf.mono fun l hl => (List.mem_filter.1 hl).1
  · rintro ⟨l, hl, hv⟩
    refine ⟨l, List.mem_filter.2 ⟨hl, ?_⟩, hv⟩
    cases hk : keep l with
    | true => rfl
    | false => exact absurd hv (h l hl hk)

/-- **Where two clauses hold, so does what is left of them without a literal and its negation.** -/
theorem holds_resolvent {v : Valuation} {l : Literal} {c d : Clause} (hc : Holds v (l :: c))
    (hd : Holds v (l.negate :: d)) : Holds v (c ++ d) := by
  rw [holds_cons] at hc hd
  rw [Literal.holds_negate] at hd
  rw [holds_append]
  rcases hc with h | h
  · exact .inr (hd.resolve_left (not_not_intro h))
  · exact .inl h

end Clause

abbrev Formula := List Clause

namespace Formula

def Holds (v : Valuation) (f : Formula) : Prop := ∀ c ∈ f, c.Holds v

instance (v : Valuation) (f : Formula) : Decidable (f.Holds v) := inferInstanceAs (Decidable (∀ c ∈ f, c.Holds v))

def Satisfiable (f : Formula) : Prop := ∃ v, f.Holds v

def Entails (f : Formula) (c : Clause) : Prop := ∀ v, f.Holds v → c.Holds v

theorem holds_cons {v : Valuation} {c : Clause} {f : Formula} : Holds v (c :: f) ↔ c.Holds v ∧ f.Holds v := by
  simp [Holds]

theorem holds_append {v : Valuation} {f g : Formula} : Holds v (f ++ g) ↔ f.Holds v ∧ g.Holds v := by
  simp only [Holds, List.mem_append]
  exact ⟨fun h => ⟨fun c hc => h c (.inl hc), fun c hc => h c (.inr hc)⟩, fun h c hc => hc.elim (h.1 c) (h.2 c)⟩

/-- A formula without a model is one that entails the empty clause. -/
theorem entails_nil_iff {f : Formula} : f.Entails [] ↔ ¬f.Satisfiable := by
  simp [Entails, Satisfiable]

/-- **What entails two clauses entails what is left of them without a literal and its negation.** -/
theorem Entails.resolvent {f : Formula} {l : Literal} {c d : Clause} (hc : f.Entails (l :: c))
    (hd : f.Entails (l.negate :: d)) : f.Entails (c ++ d) :=
  fun v hv => Clause.holds_resolvent (hc v hv) (hd v hv)

end Formula

end Cdcl
