import Cdcl.Literal
/-!
# Clause — literals in order

A clause is the list of its literals.  The order is part of a stored clause, whose first two literals are watched; what
a clause says depends only on which literals are in it, and so does its normal form (`normal_eq_of_mem_iff`).
-/
namespace Cdcl

abbrev Clause := List Literal

namespace Clause

def atoms (c : Clause) : List Nat := c.map Literal.atom

/-- The clause as integers with blanks between them, with the closing zero or without. -/
def toDimacs (c : Clause) (zero : Bool) : String :=
  " ".intercalate (c.map Literal.toText ++ if zero then ["0"] else [])

/-- Whether some literal is true of a list of values by atom.  An atom outside the list has no value. -/
def satisfiedBy (c : Clause) (model : Array Bool) : Bool :=
  c.any fun l => model[l.atom]? == some l.positive

theorem satisfiedBy_iff {c : Clause} {model : Array Bool} :
    c.satisfiedBy model = true ↔ ∃ l ∈ c, model[l.atom]? = some l.positive := by
  simp [satisfiedBy]

def sorted (c : Clause) : Clause := c.mergeSort (fun a b => decide (a ≤ b))

def dedup : Clause → Clause
  | [] => []
  | [l] => [l]
  | l :: m :: rest => if l = m then dedup (m :: rest) else l :: dedup (m :: rest)

/-- The set of literals of a clause as an ascending list. -/
def normal (c : Clause) : Clause := c.sorted.dedup

/-- Whether two neighbours share their atom.  In a normal clause these are a literal and its negation. -/
def hasClash : Clause → Bool
  | [] => false
  | [_] => false
  | l :: m :: rest => l.atom == m.atom || hasClash (m :: rest)

def swap? (c : Clause) (i j : Nat) : Option Clause :=
  if i < c.length ∧ j < c.length then some (c.toArray.swapIfInBounds i j).toList else none

theorem perm_of_swap? {c d : Clause} {i j : Nat} (h : c.swap? i j = some d) : d.Perm c := by
  unfold swap? at h
  split at h
  · rename_i hij
    cases h
    rw [Array.swapIfInBounds_def, dif_pos (by simpa using hij.1), dif_pos (by simpa using hij.2)]
    exact (Array.swap_perm ..).toList
  · cases h

/-! ## The normal form -/

@[simp] theorem mem_sorted {c : Clause} {l : Literal} : l ∈ c.sorted ↔ l ∈ c := List.mem_mergeSort

theorem pairwise_sorted (c : Clause) : c.sorted.Pairwise (· ≤ ·) := by
  have h := @List.pairwise_mergeSort _ (fun a b : Literal => decide (a ≤ b))
    (fun a b c hab hbc => by
      simp only [decide_eq_true_eq, Literal.le_iff] at *
      omega)
    (fun a b => by
      simp only [Bool.or_eq_true, decide_eq_true_eq, Literal.le_iff]
      omega)
    c
  exact h.imp of_decide_eq_true

@[simp] theorem mem_dedup : ∀ {c : Clause} {l : Literal}, l ∈ c.dedup ↔ l ∈ c
  | [], _ => Iff.rfl
  | [_], _ => Iff.rfl
  | a :: b :: rest, l => by
    unfold dedup
    split
    · rename_i h
      rw [mem_dedup, h]
      simp
    · rw [List.mem_cons, mem_dedup]
      exact List.mem_cons.symm

theorem pairwise_dedup : ∀ {c : Clause}, c.Pairwise (· ≤ ·) → c.dedup.Pairwise (· < ·)
  | [], _ => .nil
  | [_], _ => List.pairwise_singleton ..
  | a :: b :: rest, h => by
    unfold dedup
    split
    · exact pairwise_dedup h.of_cons
    · rename_i hab
      refine List.Pairwise.cons (fun m hm => ?_) (pairwise_dedup h.of_cons)
      have hle : a ≤ b := List.rel_of_pairwise_cons h (by simp)
      have hbm : b ≤ m := by
        rcases List.mem_cons.1 (mem_dedup.1 hm) with rfl | hm
        · exact Nat.le_refl _
        · exact List.rel_of_pairwise_cons h.of_cons hm
      have hne := mt Literal.index_inj.1 hab
      rw [Literal.le_iff] at hle hbm
      rw [Literal.lt_iff]
      omega

@[simp] theorem mem_normal {c : Clause} {l : Literal} : l ∈ c.normal ↔ l ∈ c := by simp [normal]

theorem pairwise_normal (c : Clause) : c.normal.Pairwise (· < ·) := pairwise_dedup c.pairwise_sorted

theorem nodup_normal (c : Clause) : c.normal.Nodup := c.pairwise_normal.imp Literal.ne_of_lt

/-- Ascending clauses with the same literals are equal. -/
theorem eq_of_mem_iff {c d : Clause} (hc : c.Pairwise (· < ·)) (hd : d.Pairwise (· < ·)) (h : ∀ l, l ∈ c ↔ l ∈ d) :
    c = d := by
  have hp : c.Perm d := (List.perm_ext_iff_of_nodup (hc.imp Literal.ne_of_lt) (hd.imp Literal.ne_of_lt)).2 h
  refine hp.eq_of_pairwise (fun a b _ _ hab hba => ?_) hc hd
  rw [Literal.lt_iff] at hab hba
  omega

/-- **The normal form of a clause depends only on which literals are in it.** -/
theorem normal_eq_of_mem_iff {c d : Clause} (h : ∀ l, l ∈ c ↔ l ∈ d) : c.normal = d.normal :=
  eq_of_mem_iff c.pairwise_normal d.pairwise_normal fun l => by simp [h]

theorem normal_of_pairwise {c : Clause} (h : c.Pairwise (· < ·)) : c.normal = c :=
  eq_of_mem_iff c.pairwise_normal h fun _ => mem_normal

/-- Nothing stands between a literal and its negation. -/
theorem atom_eq_of_between {a b : Literal} {rest : Clause} (h : (a :: b :: rest).Pairwise (· < ·))
    (hn : a.negate ∈ b :: rest) : a.atom = b.atom := by
  have hab : a < b := List.rel_of_pairwise_cons h (by simp)
  have hbn : b.index ≤ a.negate.index := by
    rcases List.mem_cons.1 hn with e | hn
    · exact Nat.le_of_eq (congrArg Literal.index e).symm
    · exact Nat.le_of_lt (List.rel_of_pairwise_cons h.of_cons hn)
  have ha := a.index_eq
  have hb := b.index_eq
  rw [Literal.lt_iff] at hab
  rw [a.negate.index_eq, Literal.atom_negate] at hbn
  split at ha <;> split at hb <;> split at hbn <;> omega

/-- **In an ascending clause a literal and its negation are neighbours**, the positive one first. -/
theorem infix_of_negate_mem {l : Literal} (hp : l.positive = true) :
    ∀ {c : Clause}, c.Pairwise (· < ·) → l ∈ c → l.negate ∈ c → [l, l.negate] <:+: c
  | [], _, hl, _ => absurd hl List.not_mem_nil
  | a :: rest, h, hl, hn => by
    by_cases ha : l = a
    · subst ha
      have hrest : l.negate ∈ rest := (List.mem_cons.1 hn).resolve_left l.negate_ne
      cases rest with
      | nil => exact absurd hrest List.not_mem_nil
      | cons b rest =>
        have hlb : l < b := List.rel_of_pairwise_cons h List.mem_cons_self
        have hb : b = l.negate :=
          (Literal.eq_or_eq_negate (atom_eq_of_between h hrest).symm).resolve_left (Literal.ne_of_lt hlb).symm
        rw [hb]
        exact (List.prefix_append [l, l.negate] rest).isInfix
    · have hrest : l ∈ rest := (List.mem_cons.1 hl).resolve_left ha
      -- The negation is behind the literal, so it is not in front either.
      have hal : a < l.negate := Literal.lt_trans (List.rel_of_pairwise_cons h hrest) (Literal.lt_negate_iff.2 hp)
      exact List.infix_cons
        (infix_of_negate_mem hp h.of_cons hrest ((List.mem_cons.1 hn).resolve_left (Literal.ne_of_lt hal).symm))

/-- **A clause with a literal and its negation has them side by side in its normal form**, the positive one first. -/
theorem infix_normal {c : Clause} {l : Literal} (hl : l ∈ c) (hn : l.negate ∈ c) :
    (if l.positive then [l, l.negate] else [l.negate, l]) <:+: c.normal := by
  rw [← mem_normal] at hl hn
  cases hp : l.positive with
  | true =>
    rw [if_pos rfl]
    exact infix_of_negate_mem hp c.pairwise_normal hl hn
  | false =>
    have hp' : l.negate.positive = true := by rw [Literal.positive_negate, hp, Bool.not_false]
    have h := infix_of_negate_mem hp' c.pairwise_normal hn (by rwa [Literal.negate_negate])
    rw [Literal.negate_negate] at h
    rwa [if_neg Bool.false_ne_true]

/-- **In an ascending clause two neighbours of one atom are a literal and its negation.** -/
theorem hasClash_iff : ∀ {c : Clause}, c.Pairwise (· < ·) → (c.hasClash = true ↔ ∃ l ∈ c, l.negate ∈ c)
  | [], _ => by simp [hasClash]
  | [l], _ => by simp [hasClash, l.negate_ne]
  | a :: b :: rest, h => by
    have hab : a < b := List.rel_of_pairwise_cons h (by simp)
    rw [hasClash, Bool.or_eq_true, beq_iff_eq, hasClash_iff h.of_cons]
    constructor
    · rintro (he | ⟨l, hl, hn⟩)
      · have hn : a = b.negate := (Literal.eq_or_eq_negate he).resolve_left (Literal.ne_of_lt hab)
        exact ⟨b, by simp, by simp [hn]⟩
      · exact ⟨l, List.mem_cons_of_mem _ hl, List.mem_cons_of_mem _ hn⟩
    · rintro ⟨l, hl, hn⟩
      by_cases ha : a.negate ∈ b :: rest
      · exact .inl (atom_eq_of_between h ha)
      · refine .inr ⟨l, (List.mem_cons.1 hl).resolve_left fun e => ?_, (List.mem_cons.1 hn).resolve_left fun e => ?_⟩
        · rw [e] at hn
          exact ha ((List.mem_cons.1 hn).resolve_left a.negate_ne)
        · rw [← e, Literal.negate_negate] at ha
          exact ha ((List.mem_cons.1 hl).resolve_left fun hla => l.negate_ne (e.trans hla.symm))

end Clause

end Cdcl
