import Cdcl.Proofs.Storing
import Cdcl.Solver.Reduction
/-!
# Reduction — giving up learnt clauses loses nothing

A learnt clause follows from the formula, so what is left says what was said with it; and one that is the reason of its
first literal is locked, and stays.
-/
namespace Cdcl
namespace Solver

open Run Context

variable {f : Formula} {settled : Nat → Prop} {c : Context} {key : ClauseKey}

theorem isLearnt_of_mem_byActivity (h : c.clauses.Slotted) {p : ClauseKey × Float} (hp : p ∈ byActivity c) :
    p.1.isLearnt = true := by
  rw [byActivity, (c.random.sort_perm _).mem_iff, List.mem_map] at hp
  obtain ⟨stored, hmem, rfl⟩ := hp
  obtain ⟨slot, hslot, rfl⟩ := List.mem_filterMap.1 hmem
  obtain ⟨i, hi⟩ := List.mem_iff_getElem?.1 hslot
  rw [Array.getElem?_toList] at hi
  exact h.learnt i _ (ClauseStore.slotKeys_eq_some_iff.2 ⟨stored, hi, rfl⟩)

/-- A learnt clause that is not locked may go.  One that is not stored stays out. -/
theorem meets_giveUp (h : Sound f settled c) (hl : key.isLearnt = true) (hlocked : c.locked key = false) :
    Meets (removeLong key) c (fun _ d => Sound f settled d ∧ Cleared c key d) (fun d => d = c) := by
  cases hk : c.clauses.literals? key with
  | none =>
    unfold removeLong
    rw [meets_bind, meets_onClauses]
    refine (ClauseStore.meets_remove h.slotted key).mono (fun s t ⟨hs, _⟩ => ?_) fun t ⟨ht, _⟩ => ?_
    · rw [ClauseStore.literals?_of_find hs] at hk
      cases hk
    · rw [ht]
  | some old =>
    have hreason := not_reason_of_locked h.trailed hk hlocked
    refine (meets_removeLong_sound h hk hreason fun hinput => ?_).mono
      (fun _ d ⟨hd, hr⟩ => ⟨hd, hr.cleared (h.trailed.not_reason hk hreason)⟩) fun _ => False.elim
    rw [hl] at hinput
    cases hinput

theorem meets_removeInactive {limit : Float} : ∀ (half : Nat) (list : List (ClauseKey × Float)) (c : Context),
    Sound f settled c → (∀ p ∈ list, p.1.isLearnt = true) →
    Meets (removeInactive limit half list) c (fun _ d => Sound f settled d ∧ Trimmed c d)
      (fun d => Sound f settled d ∧ Trimmed c d)
  | _, [], c, h, _ => ⟨h, .refl c⟩
  | half, (key, activity) :: rest, c, h, hlist => by
    have hrest : ∀ p ∈ rest, p.1.isLearnt = true := fun p hp => hlist p (List.mem_cons_of_mem _ hp)
    unfold removeInactive
    rw [meets_bind]
    refine gives_isLocked.meets ?_
    dsimp only
    split
    · rename_i hgo
      rw [Bool.and_eq_true, Bool.not_eq_true'] at hgo
      rw [meets_bind]
      refine (meets_giveUp h (hlist _ List.mem_cons_self) hgo.1).mono (fun _ d ⟨hd, ht⟩ => ?_) fun d hd => ?_
      · exact (meets_removeInactive (half - 1) rest d hd hrest).mono (fun _ e ⟨he, ht'⟩ => ⟨he, ht.toTrimmed.trans ht'⟩)
          fun e ⟨he, ht'⟩ => ⟨he, ht.toTrimmed.trans ht'⟩
      · rw [hd]
        exact ⟨h, .refl c⟩
    · exact meets_removeInactive (half - 1) rest c h hrest

/-- **A reduction keeps the invariant**, the trail and the values, at any level. -/
theorem meets_reduce (h : Sound f settled c) :
    Meets reduce c (fun _ d => Sound f settled d ∧ Trimmed c d) (fun d => Sound f settled d ∧ Trimmed c d) := by
  unfold reduce
  rw [meets_bind, meets_get, meets_ite]
  refine ⟨fun _ => ⟨h, .refl c⟩, fun _ => ?_⟩
  exact meets_removeInactive _ _ c h fun p hp => isLearnt_of_mem_byActivity h.slotted hp

end Solver
end Cdcl
