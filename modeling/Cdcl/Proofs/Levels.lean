import Cdcl.Proofs.Termination
/-!
# Levels — a solve opens no more levels than can be counted

An assumption opens a level, and so does a decision.  Above the root level every level has a literal (`Trail.Steep`), so there
are no more of them than atoms, and in all no more levels than assumptions and atoms.  Where these are fewer than `levelLimit`
the levels are counted as they are (`level_lt_levelLimit`): a solve of a run has nothing to do with how a count of 32 bits goes
on from its greatest value.

A search that is given up goes back to its root level, and the next one starts without levels of its own.
-/
namespace Cdcl

open Run Context Trail Solver Steps

variable {f : Formula} {settled : Nat → Prop} {assumptions : List Literal} {root most : Nat} {c d : Context}
  {budget : Option Nat}

namespace Context

/-- **Above the root level there are no more levels than atoms.** -/
theorem Trailed.level_le_of_steep (h : Trailed f c) (hs : c.trail.Steep root) :
    c.trail.level ≤ root + c.atoms.count := by
  have hfull := hs c.trail.level (Nat.le_refl _)
  rw [start_of_level_lt (Nat.lt_succ_self _)] at hfull
  exact Nat.le_trans hfull (Nat.add_le_add_left h.size_le root)

/-- A search about to go on, whose levels are few enough whatever it decides. -/
structure Rising (f : Formula) (assumptions : List Literal) (root most : Nat) (c : Context) : Prop
    extends Poised f assumptions root c where
  steep : c.trail.Steep root
  room : root + c.atoms.count ≤ most

theorem Rising.level_le (h : Rising f assumptions root most c) : c.trail.level ≤ most :=
  Nat.le_trans (h.trailed.level_le_of_steep h.steep) h.room

/-- At the root level a search has no levels of its own. -/
theorem Poised.rising (h : Poised f assumptions root c) (hlevel : c.trail.level ≤ root)
    (hroom : root + c.atoms.count ≤ most) : Rising f assumptions root most c :=
  ⟨h, fun _ hk => Nat.le_add_right_of_le (Nat.le_trans hk hlevel), hroom⟩

end Context

/-- A step is taken where no more levels are open than that. -/
def Step.Low (most : Nat) (_ : Step) (c : Context) : Prop := c.trail.level ≤ most

namespace Solver

/-- Wherever a program takes a step from here, no more levels are open than that. -/
def Below (most : Nat) (p : Steps) (c : Context) : Prop := p.All c (Step.Low most)

theorem below_take {step : Step} (h : c.trail.level ≤ most) : Below most (take step) c := all_take h

theorem below_simplify (h : c.trail.level ≤ most) : Below most simplify.steps c := by
  rintro st d (⟨rfl, rfl⟩ | ⟨-, -, rfl, rfl⟩) <;> exact h

/-! ## A search -/

/-- **A search that is given up is back at its root level.** -/
theorem meets_searchFor_low : ∀ (fuel : Nat) (c : Context), Poised f assumptions root c →
    Meets (searchFor budget fuel) c (fun state d => state = .unknown → d.trail.level ≤ root) fun _ => True
  | 0, _, _ => trivial
  | fuel + 1, c, h => by
    unfold searchFor
    rw [meets_bind]
    refine (meets_propagate (E := fun _ => True) h.toSound fun _ => h.current).mono (fun result d hd => ?_) fun _ => id
    have hsearch := h.propagated hd
    cases result with
    | corrupt => trivial
    | conflict conflict =>
      dsimp only
      rw [meets_bind]
      refine ((meets_atConflict hsearch hd.verdict (h.here hd)).and meets_atConflict_decided).mono
        (fun answer e hanswer => ?_) fun _ _ => trivial
      obtain ⟨he, hdecided⟩ := hanswer
      cases answer with
      | some state =>
        rintro rfl
        exact absurd rfl (hdecided _ rfl)
      | none => exact meets_searchFor_low fuel e he.2
    | complete =>
      dsimp only
      rw [meets_bind]
      refine ((meets_atRest (h.complete hd)).and meets_atRest_undecided).mono (fun answer e hanswer => ?_) fun _ _ => trivial
      obtain ⟨he, hlow⟩ := hanswer
      cases answer with
      | some state =>
        rintro rfl
        exact hsearch.ends ▸ (hlow _ rfl).2 rfl
      | none => exact meets_searchFor_low fuel e he.2

theorem meets_search_low {fuel : Nat} (h : Poised f assumptions root c) :
    Meets (search fuel budget) c (fun state d => state = .unknown → d.trail.level ≤ root) fun _ => True := by
  unfold search
  rw [meets_bind, meets_count]
  exact meets_searchFor_low fuel _ (h.alike (.of_eq rfl rfl rfl rfl rfl) rfl rfl rfl)

theorem below_atConflict {conflict : Conflict} (h : c.trail.level ≤ most) : Below most (atConflict.steps conflict) c :=
  all_after (Q := fun _ d => d.trail = c.trail) (E := fun _ => False) (meets_count.2 rfl) fun _ _ hd =>
    all_ite (fun _ => all_nil) fun _ => all_ite (fun _ => all_nil) fun _ => below_take (hd ▸ h)

theorem below_atRest (hc : Complete f assumptions root c) (h : c.trail.level ≤ most) : Below most (atRest.steps budget) c := by
  refine all_ite (fun _ => all_nil) fun _ => ?_
  refine all_seq (all_ite (fun _ => below_simplify h) fun _ => all_nil) (meets_simplifyAtRoot_trail hc) fun _ d hd => ?_
  exact all_ite (fun _ => all_nil) fun _ => all_ite (fun _ => below_take (hd ▸ h)) fun _ => all_nil

theorem below_searchFor : ∀ (fuel : Nat) (c : Context), Rising f assumptions root most c →
    Below most (searchFor.steps budget fuel) c
  | 0, _, _ => all_nil
  | fuel + 1, c, h => by
    refine all_seq (below_take h.level_le) (meets_propagate (E := fun _ => False) h.toSound fun _ => h.current)
      fun result d hd => ?_
    have hsearch := h.propagated hd
    have hlevel : d.trail.level ≤ most := hd.extended.trail_level ▸ h.level_le
    -- a step that does not end the search climbs, so its levels still have literals
    have hnext : ∀ e, Searched f assumptions root d none e → Climbing root d none e → Rising f assumptions root most e :=
      fun e he hclimbs => ⟨he.2, (hclimbs rfl).steep (hd.extended.steep h.steep),
        he.1.count.symm ▸ hd.extended.count.symm ▸ h.room⟩
    cases result with
    | corrupt => exact all_nil
    | conflict conflict =>
      refine all_seq (below_atConflict hlevel) ((meets_atConflict hsearch hd.verdict (h.here hd)).and
        (climbs_atConflict hsearch hd.verdict (h.here hd))) fun answer e hanswer => ?_
      obtain ⟨he, hclimbs⟩ := hanswer
      cases answer with
      | some _ => exact all_nil
      | none => exact below_searchFor fuel e (hnext e he hclimbs)
    | complete =>
      have hcomplete := h.complete hd
      refine all_seq (below_atRest hcomplete hlevel) ((meets_atRest hcomplete).and (climbs_atRest hcomplete))
        fun answer e hanswer => ?_
      obtain ⟨he, hclimbs⟩ := hanswer
      cases answer with
      | some _ => exact all_nil
      | none => exact below_searchFor fuel e (hnext e he hclimbs)

theorem below_search {fuel : Nat} (h : Rising f assumptions root most c) : Below most (search.steps fuel budget) c :=
  all_after (Q := fun _ d => Rising f assumptions root most d) (E := fun _ => False)
    (meets_count.2 { h with toPoised := h.toPoised.alike (.of_eq rfl rfl rfl rfl rfl) rfl rfl rfl })
    fun _ d hd => below_searchFor fuel d hd

theorem below_searchAll {conflictsBefore : Nat} : ∀ (fuel : Nat) (luby : Luby) (c : Context),
    Rising f assumptions root most c → Below most (searchAll.steps conflictsBefore fuel luby) c
  | 0, _, _, _ => all_nil
  | fuel + 1, luby, c, h => by
    refine all_after meets_nextBudget fun next d hd => ?_
    subst hd
    cases next with
    | none => exact all_nil
    | some next =>
      refine all_seq (below_search h) ((meets_search h.toPoised).and (meets_search_low h.toPoised))
        fun state e hanswer => ?_
      obtain ⟨⟨hs, he⟩, hlow⟩ := hanswer
      cases state with
      | unknown =>
        refine all_after (Q := fun _ g => Rising f assumptions root most g) (E := fun _ => False) ?_ fun stop g hg => ?_
        · rw [meets_bind, meets_count]
          exact meets_askStop fun stop listeners => Poised.rising
            ((he.again rfl).alike (.of_eq rfl rfl rfl rfl rfl) rfl rfl rfl) (hlow rfl) (hs.count.symm ▸ h.room)
        · cases stop with
          | true => exact all_nil
          | false => exact below_searchAll fuel next.2 g hg
      | _ => exact all_nil

/-! ## A solve -/

/-- **The assumptions have as many levels as there are.** -/
theorem below_assumeEach : ∀ (rest made : List Literal) (c : Context), Assuming f made c →
    c.trail.level + rest.length ≤ most → Below most (assumeEach.steps rest) c
  | [], _, _, _, _ => all_nil
  | l :: rest, made, c, h, hmost => by
    rw [List.length_cons] at hmost
    unfold Below assumeEach.steps
    intro st d
    dsimp only
    cases hstanding : c.atoms.standing l with
    | unknown => exact all_nil st d
    | fails => exact all_nil st d
    | holds =>
      refine all_after (Q := fun _ d => Assuming f (made ++ [l]) d ∧ d.trail = c.trail.newLevel) (E := fun _ => False) ?_
        (fun _ d hd => below_assumeEach rest _ d hd.1 ?_) st d
      · exact ⟨h.hold (h.trailed.standing_holds_iff.1 hstanding), rfl⟩
      · rw [hd.2, level_newLevel]
        omega
    | free =>
      refine all_after (Q := fun _ d => Sound f (fun _ => True) d ∧ Opened c l d) (E := fun _ => False) ?_
        (fun _ d hopened => ?_) st d
      · exact meets_assume h (AtomTable.standing_eq_free_iff.1 hstanding).2
      obtain ⟨hd, ho⟩ := hopened
      have hlevel := ho.level
      refine all_seq (below_take (by omega)) (meets_propagate (E := fun _ => False) hd fun _ => h.current_opened ho)
        fun result e he => ?_
      cases result with
      | complete =>
        refine below_assumeEach rest _ e (h.propagated hd ho he) ?_
        rw [he.extended.trail_level]
        omega
      | _ => exact all_nil

theorem below_solveFromRoot {fuel : Nat} (h : Rooted f settled c) (hu : c.pendingUnits = #[])
    (hmost : assumptions.length + c.atoms.count ≤ most) : Below most (solveFromRoot.steps fuel assumptions) c := by
  have hall : Rooted f (fun _ => True) c := h.anywhere
  have hzero : c.trail.level ≤ most := h.level ▸ Nat.zero_le most
  refine all_seq (all_ite (fun _ => below_simplify hzero) fun _ => below_take hzero) (meets_prepare hall)
    fun _ d ⟨hs, ht⟩ => ?_
  have hd : Rooted f (fun _ => True) d := hall.trimmed hs ht
  refine all_ite (fun _ => all_nil) fun hne => ?_
  refine all_after (meets_setOut hd (ht.units.trans hu) hne) fun _ e ⟨hse, he⟩ => ?_
  have hassuming := he.toRooted.assuming he.units
  have hroot : assumptions ≠ [] → e.trail.root ≠ 0 := fun hn hz =>
    hn (List.eq_nil_of_length_eq_zero (he.ends.symm.trans hz))
  have hcount : e.atoms.count = c.atoms.count := hse.count.trans (congrArg AtomTable.count ht.atoms)
  have hfits : e.trail.level + assumptions.length ≤ most := by
    have := he.level
    omega
  refine all_seq (below_assumeEach assumptions [] e hassuming hfits)
    ((meets_makeAssumptions he).and (meets_assumeEach assumptions [] e hassuming hroot))
    fun failed g ⟨⟨hsg, _, hpoised⟩, _, _, hmade⟩ => ?_
  cases failed with
  | true => exact all_nil
  | false =>
    refine below_searchAll fuel _ g ((hpoised rfl).rising ?_ (hsg.count.symm ▸ hcount.symm ▸ hmost))
    rw [(hmade rfl).2.1, he.level, Nat.zero_add]

theorem below_returnToRoot {matters : Prop} (h : Stopped f matters c) : Below most returnToRoot.steps c := by
  refine all_after (meets_backToRoot h) fun _ d ⟨hd, _⟩ => ?_
  exact all_after (meets_assignNoted hd) fun _ e ⟨he, _⟩ => below_take (he.level ▸ Nat.zero_le most)

theorem below_solveGiven {fuel : Nat} (h : Resting f (· = 0) c) (hmost : assumptions.length + c.atoms.count ≤ most) :
    Below most (solveGiven.steps fuel assumptions) c := by
  refine all_after (Q := fun _ d => (d.state ≠ .unsatisfiable → Quiet f (· = 0) d) ∧ d.atoms = c.atoms)
    (E := fun _ => False) ?_ fun _ d ⟨hd, hatoms⟩ => ?_
  · exact ⟨fun hs => (h.quiet hs).alike (.of_eq rfl rfl rfl rfl rfl) rfl rfl, rfl⟩
  refine all_ite (fun _ => all_nil) fun hs => all_ite (fun _ => all_nil) fun _ => ?_
  refine all_after (meets_enter (hd hs) rfl) fun _ e ⟨he, hu, hsolving, _, hcount⟩ => ?_
  refine all_seq (below_solveFromRoot he hu ?_) (Q := fun _ g => Stopped f False g) (E := fun _ => False) ?_
    fun _ g hg => below_returnToRoot hg
  · rw [hcount, hatoms]
    exact hmost
  · exact meets_attempt ((meets_solveFromRoot he hu (hsolving ▸ nofun)).mono
      (fun _ _ hg => ⟨hg.2.1.toSound, nofun, hg.2.1.noted⟩) fun _ hg _ => ⟨hg.2.toSound, nofun, hg.2.noted⟩)

end Solver

namespace Session

variable {s : Session} {k : Call} {st : Step}

/-- **The levels of a solve can be counted.**  Wherever a solve of a run takes a step, fewer than `levelLimit` levels are
open. -/
theorem level_lt_levelLimit (h : s.Reachable) (hk : k.Solves) (hst : s.steps k s.context st d) :
    d.trail.level < levelLimit := by
  have hbelow : ∀ {fuel : Nat} {assumptions : List Literal}, assumptions.length + s.context.atoms.count < levelLimit →
      solveGiven.steps fuel assumptions s.context st d → d.trail.level < levelLimit := fun hlevels hst =>
    Nat.lt_of_le_of_lt (below_solveGiven h.held.toResting (Nat.le_refl _) st d hst) hlevels
  unfold Session.steps at hst
  cases k with
  | solve fuel =>
    have hlevels : ([] : List Literal).length + s.context.atoms.count < levelLimit := h.held.lt_levelLimit (by decide)
    exact hbelow hlevels hst
  | solveGiven fuel assumptions =>
    dsimp only at hst
    split at hst
    · exact hbelow ‹_› hst
    · exact hst.elim
  | _ => exact hk.elim

end Session
end Cdcl
