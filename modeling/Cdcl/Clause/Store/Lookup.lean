import Cdcl.Clause.Store
/-!
# Clause.Store.Lookup — what a key leads to after each change

A key leads to a clause exactly if its slot holds a clause of that key (`find_eq_ok_iff`).  Changing the literals of a
clause changes what its own key leads to, and nothing else; changes of activity change no clause's literals.
-/
namespace Cdcl
namespace ClauseStore

theorem find_eq_ok_iff {s : ClauseStore} {key : ClauseKey} {c : StoredClause} :
    s.find key = .ok c ↔ s.slot key = some c ∧ c.key = key := by
  unfold find
  cases s.slot key with
  | none => simp
  | some d =>
    dsimp only
    split
    · rename_i hd
      simp only [Except.ok.injEq, Option.some.injEq, iff_self_and]
      rintro rfl
      exact hd
    · rename_i hd
      simp only [reduceCtorEq, Option.some.injEq, false_iff, not_and]
      rintro rfl
      exact hd

theorem key_of_find {s : ClauseStore} {key : ClauseKey} {c : StoredClause} (h : s.find key = .ok c) : c.key = key :=
  (find_eq_ok_iff.1 h).2

theorem slot_modifySlot (s : ClauseStore) (key : ClauseKey) (f : StoredClause → StoredClause) (k : ClauseKey) :
    (s.modifySlot key f).slot k =
      if k.isLearnt = key.isLearnt ∧ k.slot = key.slot then (s.slot k).map f else s.slot k := by
  cases key <;> cases k <;>
    simp only [modifySlot, slot, ClauseKey.isLearnt, ClauseKey.slot, Array.getD_eq_getD_getElem?,
      Array.getElem?_modify] <;>
    grind

/-- **New literals are found under the key of their clause.** -/
theorem find_setLiterals_self {s : ClauseStore} {key : ClauseKey} {c : StoredClause} (h : s.find key = .ok c)
    (literals : Clause) : (s.setLiterals key literals).find key = .ok { c with literals } := by
  obtain ⟨hslot, hkey⟩ := find_eq_ok_iff.1 h
  rw [find_eq_ok_iff, setLiterals, slot_modifySlot, if_pos ⟨rfl, rfl⟩, hslot]
  exact ⟨rfl, hkey⟩

/-- **Under every other key the same is found as before.** -/
theorem find_setLiterals_of_ne {s : ClauseStore} {key k : ClauseKey} {c : StoredClause} (h : s.find key = .ok c)
    (hne : k ≠ key) (literals : Clause) : (s.setLiterals key literals).find k = s.find k := by
  obtain ⟨hslot, hkey⟩ := find_eq_ok_iff.1 h
  unfold find
  rw [setLiterals, slot_modifySlot]
  by_cases hsame : k.isLearnt = key.isLearnt ∧ k.slot = key.slot
  · rw [if_pos hsame]
    have hk : s.slot k = s.slot key := by
      cases key <;> cases k <;> simp_all [ClauseKey.isLearnt, ClauseKey.slot, slot]
    have hck : ¬c.key = k := fun e => hne (e.symm.trans hkey)
    rw [hk, hslot]
    simp only [Option.map_some, if_neg hck]
  · rw [if_neg hsame]

/-! ## Activity -/

/-- The literals a key leads to. -/
def literals? (s : ClauseStore) (key : ClauseKey) : Option Clause := (s.find key).toOption.map (·.literals)

theorem literals?_setActivity (s : ClauseStore) (key : ClauseKey) (activity : Float) (k : ClauseKey) :
    (s.setActivity key activity).literals? k = s.literals? k := by
  unfold literals? find
  rw [setActivity, slot_modifySlot]
  by_cases hsame : k.isLearnt = key.isLearnt ∧ k.slot = key.slot
  · rw [if_pos hsame]
    cases s.slot k with
    | none => rfl
    | some c =>
      dsimp only [Option.map_some]
      split <;> rfl
  · rw [if_neg hsame]

theorem literals?_rescale (s : ClauseStore) (k : ClauseKey) : s.rescale.literals? k = s.literals? k := by
  unfold literals? find
  cases k with
  | input i => rfl
  | learnt i token =>
    simp only [slot, rescale, Array.getD_eq_getD_getElem?, Array.getElem?_map]
    cases s.learnt[i]? with
    | none => rfl
    | some c =>
      cases c with
      | none => rfl
      | some c =>
        simp only [Option.map_some, Option.getD_some]
        split <;> rfl

/-- **Bumping a clause changes no literals.** -/
theorem literals?_bump (s : ClauseStore) (key k : ClauseKey) : (s.bump key).literals? k = s.literals? k := by
  unfold bump
  split
  · split
    · rfl
    · dsimp only
      split
      · rw [literals?_rescale, literals?_setActivity]
      · rw [literals?_setActivity]
  · rfl

theorem literals?_decay (s : ClauseStore) (k : ClauseKey) : s.decay.literals? k = s.literals? k := by
  unfold decay
  dsimp only
  split
  · rw [literals?_rescale]
    rfl
  · rfl

end ClauseStore
end Cdcl
