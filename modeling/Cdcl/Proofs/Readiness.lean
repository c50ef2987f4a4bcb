import Cdcl.Proofs.Steps
/-!
# Readiness — the invariant holds wherever a step is taken

A step asks for something of the context it is taken in: an analysis for a conflict of the current level, above level zero,
and a simplification for everything to be propagated, where it does not stop at once.  Wherever a call takes a step, the
invariant holds with what the step asks for (`Held.ready`).  For all steps but the propagation of an added unit this is so
for the formula as it was before the call.

Where a conflict is analysed, literals above the root level go back to literals of their own level, and the level below the
current one is settled if it was settled before the call, or opened by it (`Held.prepared`).
-/
namespace Cdcl

open Context

/-- What a step asks for, besides the invariant. -/
def Step.Asks (f : Formula) (c : Context) : Step → Prop
  | .propagate => True
  | .analyze conflict => Refuted f c conflict ∧ c.Here conflict ∧ 0 < c.trail.level
  | .simplify => 0 < c.trail.level ∨ c.state = .unsatisfiable ∨ c.Current c.trail.size ∧ c.trail.head = c.trail.size
  | .reduce => True

/-- A step may be taken. -/
structure Step.Ready (f : Formula) (st : Step) (c : Context) : Prop where
  sound : ∃ settled, Sound f settled c
  noted : ∃ k, Noted k c
  asks : st.Asks f c

/-- Where a conflict is analysed, the levels below it are in order. -/
structure Context.Probed (settled : Nat → Prop) (c : Context) : Prop where
  anchored : c.Anchored c.trail.root
  noted : Noted (c.trail.level - 1) c
  below : settled (c.trail.level - 1) →
    c.Settles (c.trail.upTo (c.trail.level - 1)) (c.trail.upTo (c.trail.level - 1))

theorem Context.Probed.mono {settled other : Nat → Prop} {c : Context} (h : c.Probed settled)
    (hw : ∀ k, other k → settled k) : c.Probed other := { h with below := fun hs => h.below (hw _ hs) }

/-- A step may be taken, where some levels are to be settled. -/
structure Step.Prepared (f : Formula) (settled : Nat → Prop) (st : Step) (c : Context) : Prop extends st.Ready f c where
  probed : ∀ conflict, st = .analyze conflict → c.Probed settled

namespace Solver

open Run Steps

variable {f : Formula} {assumptions made : List Literal} {root : Nat} {settled other : Nat → Prop} {c d : Context}

/-- Wherever a program takes a step from here, the step may be taken. -/
def ReadyAt (f : Formula) (settled : Nat → Prop) (p : Steps) (c : Context) : Prop := p.All c (Step.Prepared f settled)

theorem ready_propagate (h : Sound f settled c) {k : Nat} (hn : Noted k c) : ReadyAt f other (take .propagate) c :=
  all_take ⟨⟨⟨settled, h⟩, ⟨k, hn⟩, trivial⟩, nofun⟩

theorem ready_simplify (h : Step.Ready f .simplify c) : ReadyAt f other simplify.steps c := by
  rintro st d (⟨rfl, rfl⟩ | ⟨-, -, rfl, rfl⟩)
  · exact ⟨h, nofun⟩
  · exact ⟨⟨h.sound, h.noted, trivial⟩, nofun⟩

/-! ## A search -/

theorem ready_atConflict {conflict : Conflict} (h : Searching f assumptions root c) (hr : Refuted f c conflict)
    (hh : root < c.trail.level → c.Here conflict) : ReadyAt f other (atConflict.steps conflict) c := by
  refine all_after (Q := fun _ d => Alike c d ∧ d.marks = c.marks ∧ d.course = c.course) (E := fun _ => False)
    (meets_count.2 ⟨.of_eq rfl rfl rfl rfl rfl, rfl, rfl⟩) fun _ d ⟨ha, hm, hcourse⟩ => ?_
  refine all_ite (fun _ => all_nil) fun hne => all_ite (fun _ => all_nil) fun hlt => ?_
  have hd := h.alike ha hm hcourse
  have hroot : root < c.trail.level := ha.level ▸ hd.ends ▸ Nat.lt_of_not_le hlt
  refine all_take ⟨⟨⟨_, hd.toSound⟩, ⟨root, hd.noted⟩, hr.alike ha, (hh hroot).alike ha, Nat.pos_of_ne_zero hne⟩,
    fun _ _ => ⟨hd.ends.symm ▸ hd.anchored, hd.noted.mono hd.trailed.layered ?_, fun _ => hd.below _ (.inr ?_) ?_⟩⟩ <;>
  have := ha.level <;> omega

theorem ready_simplifyAtRoot (h : Complete f assumptions root c) : ReadyAt f other simplifyAtRoot.steps c :=
  all_ite (fun _ => ready_simplify ⟨⟨_, h.toSound⟩, ⟨root, h.noted⟩, .inr (.inr ⟨h.current, h.head⟩)⟩) fun _ => all_nil

theorem ready_atRest {budget : Option Nat} (h : Complete f assumptions root c) :
    ReadyAt f other (atRest.steps budget) c := by
  refine all_ite (fun _ => all_nil) fun _ => ?_
  refine all_seq (ready_simplifyAtRoot h) (meets_simplifyAtRoot h) fun stop d ⟨_, _, hd⟩ => ?_
  exact all_ite (fun _ => all_nil) fun _ => all_ite
    (fun _ => all_take ⟨⟨⟨_, hd.toSound⟩, ⟨root, hd.noted⟩, trivial⟩, nofun⟩) fun _ => all_nil

theorem ready_searchFor {budget : Option Nat} : ∀ (fuel : Nat) (c : Context), Poised f assumptions root c →
    ReadyAt f other (searchFor.steps budget fuel) c
  | 0, _, _ => all_nil
  | fuel + 1, c, h => by
    refine all_seq (ready_propagate h.toSound h.noted)
      (meets_propagate (E := fun _ => False) h.toSound fun _ => h.current) fun result d hd => ?_
    have hsearch := h.propagated hd
    cases result with
    | corrupt => exact all_nil
    | conflict conflict =>
      refine all_seq (ready_atConflict hsearch hd.verdict (h.here hd)) (meets_atConflict hsearch hd.verdict (h.here hd))
        fun answer e he => ?_
      cases answer with
      | some _ => exact all_nil
      | none => exact ready_searchFor fuel e he.2
    | complete =>
      refine all_seq (ready_atRest (h.complete hd)) (meets_atRest (h.complete hd)) fun answer e he => ?_
      cases answer with
      | some _ => exact all_nil
      | none => exact ready_searchFor fuel e he.2

theorem ready_search {fuel : Nat} {budget : Option Nat} (h : Poised f assumptions root c) :
    ReadyAt f other (search.steps fuel budget) c :=
  all_after (Q := fun _ d => Poised f assumptions root d) (E := fun _ => False)
    (meets_count.2 (h.alike (.of_eq rfl rfl rfl rfl rfl) rfl rfl rfl)) fun _ d hd => ready_searchFor fuel d hd

/-! ## A solve -/

theorem ready_assumeEach : ∀ (rest made : List Literal) (c : Context), Assuming f made c →
    ReadyAt f other (assumeEach.steps rest) c
  | [], _, _, _ => all_nil
  | l :: rest, made, c, h => by
    unfold ReadyAt assumeEach.steps
    intro st d
    dsimp only
    cases hstanding : c.atoms.standing l with
    | unknown => exact all_nil st d
    | fails => exact all_nil st d
    | holds =>
      refine all_after (Q := fun _ d => Assuming f (made ++ [l]) d) (E := fun _ => False) ?_
        (fun _ d hd => ready_assumeEach rest _ d hd) st d
      exact h.hold (h.trailed.standing_holds_iff.1 hstanding)
    | free =>
      refine all_after (Q := fun _ d => Sound f (fun _ => True) d ∧ Opened c l d) (E := fun _ => False) ?_
        (fun _ d ⟨hd, ho⟩ => ?_) st d
      · exact meets_assume h (AtomTable.standing_eq_free_iff.1 hstanding).2
      refine all_seq (ready_propagate (k := 0) hd (.of_none (ho.units.trans h.units)))
        (meets_propagate (E := fun _ => False) hd fun _ => h.current_opened ho) fun result e he => ?_
      cases result with
      | complete => exact ready_assumeEach rest _ e (h.propagated hd ho he)
      | _ => exact all_nil

theorem ready_searchAll {conflictsBefore : Nat} : ∀ (fuel : Nat) (luby : Luby) (c : Context),
    Poised f assumptions root c → ReadyAt f other (searchAll.steps conflictsBefore fuel luby) c
  | 0, _, _, _ => all_nil
  | fuel + 1, luby, c, h => by
    refine all_after meets_nextBudget fun next d hd => ?_
    subst hd
    cases next with
    | none => exact all_nil
    | some next =>
      refine all_seq (ready_search h) (meets_search h) fun state e ⟨_, he⟩ => ?_
      cases state with
      | unknown =>
        refine all_after (Q := fun _ g => Poised f assumptions root g) (E := fun _ => False) ?_ fun stop g hg => ?_
        · rw [meets_bind, meets_count]
          exact meets_askStop fun stop listeners => (he.again rfl).alike (.of_eq rfl rfl rfl rfl rfl) rfl rfl rfl
        · cases stop with
          | true => exact all_nil
          | false => exact ready_searchAll fuel next.2 g hg
      | _ => exact all_nil

theorem ready_prepare (h : Rooted f settled c) (hu : c.pendingUnits = #[]) : ReadyAt f other prepare.steps c :=
  all_ite (fun _ => ready_simplify ⟨⟨_, h.toSound⟩, ⟨0, .of_none hu⟩, .inr (.inr ⟨h.current, h.head⟩)⟩)
    fun _ => ready_propagate (k := 0) h.toSound (.of_none hu)

theorem ready_solveFromRoot {fuel : Nat} (h : Rooted f settled c) (hu : c.pendingUnits = #[]) :
    ReadyAt f other (solveFromRoot.steps fuel assumptions) c := by
  have hall : Rooted f (fun _ => True) c := h.anywhere
  refine all_seq (ready_prepare hall hu) (meets_prepare hall) fun _ d ⟨hs, ht⟩ => ?_
  have hd : Rooted f (fun _ => True) d := hall.trimmed hs ht
  refine all_ite (fun _ => all_nil) fun hne => ?_
  refine all_after (meets_setOut hd (ht.units.trans hu) hne) fun _ e ⟨_, he⟩ => ?_
  refine all_seq (ready_assumeEach assumptions [] e (he.toRooted.assuming he.units)) (meets_makeAssumptions he)
    fun failed g ⟨_, _, hfalse⟩ => ?_
  cases failed with
  | true => exact all_nil
  | false => exact ready_searchAll fuel _ g (hfalse rfl)

theorem ready_returnToRoot {matters : Prop} (h : Stopped f matters c) : ReadyAt f other returnToRoot.steps c := by
  refine all_after (meets_backToRoot h) fun _ d ⟨hd, _⟩ => ?_
  exact all_after (meets_assignNoted hd) fun _ e ⟨he, hu⟩ => ready_propagate (k := 0) he.toSound (.of_none hu.units)

theorem ready_solveGiven {fuel : Nat} (h : Resting f (· = 0) c) :
    ReadyAt f other (solveGiven.steps fuel assumptions) c := by
  refine all_after (Q := fun _ d => d.state ≠ .unsatisfiable → Quiet f (· = 0) d) (E := fun _ => False) ?_ fun _ d hd => ?_
  · exact fun hs => (h.quiet hs).alike (.of_eq rfl rfl rfl rfl rfl) rfl rfl
  refine all_ite (fun _ => all_nil) fun hs => all_ite (fun _ => all_nil) fun _ => ?_
  refine all_after (meets_enter (hd hs) rfl) fun _ e ⟨he, hu, hsolving, _⟩ => ?_
  refine all_seq (ready_solveFromRoot he hu) (Q := fun _ g => Stopped f False g) (E := fun _ => False) ?_
    fun _ g hg => ready_returnToRoot hg
  -- wherever the work stops, the way back starts there
  exact meets_attempt ((meets_solveFromRoot he hu (hsolving ▸ nofun)).mono
    (fun _ _ hg => ⟨hg.2.1.toSound, nofun, hg.2.1.noted⟩) fun _ hg _ => ⟨hg.2.toSound, nofun, hg.2.noted⟩)

/-! ## Decisions from outside -/

theorem ready_propagateDecision (h : Due f settled c) : ReadyAt f settled propagateDecision.steps c := by
  refine all_seq (ready_propagate (k := 0) h.toSound (.of_none h.units))
    (meets_propagate (E := fun _ => False) h.toSound h.current) fun result d hd => ?_
  cases result with
  | conflict conflict =>
    refine all_after (Q := fun _ e => Alike d e ∧ e.marks = d.marks) (E := fun _ => False)
      (meets_count.2 ⟨.of_eq rfl rfl rfl rfl rfl, rfl⟩) fun _ e ⟨ha, hm⟩ => ?_
    refine all_ite (fun _ => all_nil) fun hne => all_take ?_
    have hpos : 0 < d.trail.level := ha.level ▸ Nat.pos_of_ne_zero hne
    have hhere := hd.here h.trailed.layered (h.fresh (hd.extended.trail_level ▸ hpos))
    have hs := ha.sound hd.sound hm
    have hpos' : 0 < e.trail.level := Nat.pos_of_ne_zero hne
    have hunits := ha.units.trans (hd.units.trans h.units)
    refine ⟨⟨⟨_, hs⟩, ⟨0, .of_none hunits⟩, Refuted.alike hd.verdict ha, hhere.alike ha, hpos'⟩,
      fun _ _ => ⟨?_, .of_none hunits, fun hk => hs.below _ hk (Nat.sub_lt hpos' Nat.one_pos)⟩⟩
    exact (ha.anchored hd.sound.trailed (h.anchored_after hd)).mono (Nat.zero_le _)
  | _ => exact all_nil

theorem ready_decide {l : Literal} (h : Resting f settled c) (hg : Gapless settled) :
    ReadyAt f settled (decide.steps l) c := by
  refine all_ite (fun _ => all_nil) fun hs => ?_
  have hquiet := h.quiet hs
  refine all_after (Q := fun r d => d = c ∧ c.atoms.records[l.atom]? = some r) (E := fun _ => False)
    (meets_record.2 fun r hr => ⟨rfl, hr⟩) fun r d ⟨hd, hr⟩ => ?_
  subst hd
  refine all_ite (fun _ => all_nil) fun hnone => ?_
  have hv : d.atoms.value l.atom = none := (AtomTable.value_of_record hr).trans (Option.not_isSome_iff_eq_none.1 hnone)
  have hl : l.atom < d.atoms.count := (Array.getElem?_eq_some_iff.1 hr).1
  exact all_after (E := fun _ => False) (answers_decideFree hquiet hg hl hv).meets
    fun _ e he => ready_propagateDecision he.1

theorem ready_assertPending (h : Idle f settled c) (hl : c.atAssertionLevel = true) :
    ReadyAt f settled assertPending.steps c := by
  unfold ReadyAt assertPending.steps
  intro st d
  dsimp only
  cases hp : c.pending with
  | none => exact all_nil st d
  | some p =>
    exact all_after (meets_learnPending h hl hp) (fun _ e he => ready_propagateDecision he.toDue) st d

theorem ready_assertHere (h : Idle f settled c) : ReadyAt f settled assertHere.steps c :=
  all_ite (fun hl => ready_assertPending h hl) fun _ => all_nil

theorem ready_findModel (hg : Gapless settled) : ∀ (fuel : Nat) (c : Context), Resting f settled c →
    ReadyAt f settled (findModel.steps fuel) c
  | 0, _, _ => all_nil
  | fuel + 1, c, h => by
    refine all_ite (fun _ => all_nil) fun hu => ?_
    intro st d
    dsimp only
    cases hfree : c.atoms.firstFree? with
    | none => exact all_nil st d
    | some a =>
      have hfinished := not_finished hu hfree
      refine all_seq (ready_decide h hg) (meets_decide h hg) (fun decided e ⟨he, htrue⟩ => ?_) st d
      have he := (he.resolve_right fun he => hfinished he.2).toIdle
      refine all_seq (Q := fun _ g => Idle f (g.clear settled) g) (E := Idle f settled) ?_ ?_ fun found g hg' => ?_
      · cases decided with
        | true => exact ready_findModel hg fuel e (htrue rfl).toResting
        | false => exact all_nil
      · refine meets_ite.2 ⟨fun ht => ?_, fun _ => he⟩
        exact (meets_findModel hg fuel e (htrue ht).toResting).mono
          (fun _ g hg => hg.elim Halted.toIdle fun hg => hg.1 ▸ he) fun _ => id
      · cases found with
        | true => exact all_nil
        | false =>
          refine all_after (meets_undo_clear hg') fun _ k hk => ?_
          refine all_seq (ready_assertHere hk) (meets_assertIfHere hk) fun answer n hn => ?_
          rcases answer with _ | _ | _
          · exact all_nil
          · exact all_nil
          · exact ready_findModel hg fuel n hn.settles.toResting

theorem ready_countModelsFor (hg : Gapless settled) : ∀ (depth : Nat) (c : Context), Resting f settled c →
    ReadyAt f settled (countModelsFor.steps depth) c
  | 0, _, _ => all_nil
  | depth + 1, c, h => by
    have hbranch : ∀ (l : Literal) (d : Context), Resting f settled d → ReadyAt f settled (seq (decide l) (decide.steps l)
        fun decided => if decided then countModelsFor.steps depth else nil) d := fun l d hd => by
      refine all_seq (Q := fun decided e => decided = true → Resting f settled e) (E := fun _ => False) (ready_decide hd hg)
        ((meets_decide hd hg).mono (fun _ e he ht => (he.2 ht).toResting) fun _ => id) fun decided e he => ?_
      cases decided with
      | true => exact ready_countModelsFor hg depth e (he rfl)
      | false => exact all_nil
    refine all_ite (fun _ => all_nil) fun hu => ?_
    intro st d
    dsimp only
    cases hfree : c.atoms.firstFree? with
    | none => exact all_nil st d
    | some a =>
      have hfinished := not_finished hu hfree
      refine all_seq (hbranch _ c h) (meets_countBranch h hg (.inl hfinished) fun d hd => ?_)
        (fun _ e he => hbranch _ e he.toResting) st d
      exact (meets_countModelsFor hg depth d hd.toResting).mono
        (fun _ e he => he.elim id fun he => he.1 ▸ hd) fun _ => id

/-! ## Adding clauses -/

theorem ready_install {g : Formula} {clause : Clause} (h : Installing f g c clause) :
    (install.steps clause).All c fun st d => st = .propagate ∧ st.Ready g d := by
  match clause, h with
  | [], _ => exact all_nil
  | [l], h =>
    refine all_after (Q := fun _ d => Sound g (· = 0) d ∧ d.pendingUnits = #[]) (E := fun _ => False)
      (meets_assign fun d hp hu _ => ⟨(h.push hp hu).1, hu.trans h.units⟩) fun _ d ⟨hd, hu⟩ => ?_
    exact all_take ⟨rfl, ⟨_, hd⟩, ⟨0, .of_none hu⟩, trivial⟩
  | _ :: _ :: _, _ => exact all_nil

/-- The one step of adding a clause propagates, and the clause is part of the formula then. -/
theorem ready_addClause {clause : Clause} (h : Resting f (· = 0) c) :
    (addClause.steps clause).All c fun st d => st = .propagate ∧ st.Ready (f ++ [clause]) d := by
  refine all_ite (fun _ => all_nil) fun hs => all_ite (fun _ => all_nil) fun hlevel => ?_
  refine all_ite (fun _ => all_nil) fun hany => all_ite (fun _ => all_nil) fun hclash => ?_
  refine all_ite (fun _ => all_nil) fun htrue => ?_
  refine all_after (Q := fun _ d => Installing f (f ++ [clause]) d (c.leftOf clause)) (E := fun _ => False)
    (meets_setState.2 ?_) fun _ d hd => ready_install hd
  have hquiet := h.quiet hs
  refine installing_leftOf (hquiet.rooted rfl (Nat.eq_zero_of_not_pos hlevel)) hquiet.units (fun l hl => ?_) hclash htrue
  rw [← AtomTable.knows_iff]
  simp only [List.any_eq_true, Bool.not_eq_true', not_exists, not_and, Bool.not_eq_false] at hany
  exact hany l hl

end Solver

namespace Session

open Run Solver Steps

variable {s : Session} {settled : Nat → Prop} {k : Call} {st : Step} {d : Context}

theorem ready_perform : ∀ (requests : List Dimacs.Request) (s : Session), Held (· = 0) s →
    (perform.steps requests).All s.context fun st d => st = .propagate ∧ ∃ g, st.Ready g d
  | [], _, _ => all_nil
  | .atoms n :: rest, s, h =>
    have hbuilding : Building (Held (· = 0)) := held_building rfl
    all_after (hbuilding.ensureAtoms n h) fun _ d hd => ready_perform rest (s.goTo d) hd
  | .clause clause :: rest, s, h =>
    all_seq (fun st d hst => (ready_addClause h.toResting st d hst).imp_right fun hd => ⟨_, hd⟩) (h.addClause rfl clause)
      fun outcome d hd => ready_perform rest (s.accept clause outcome d) hd

/-- **Wherever a call takes a step, the step may be taken**, and where it analyses a conflict the levels are in order.  The
formula is what the clauses accepted before the call say, or a part of it, but where an added unit is propagated. -/
theorem Held.prepared (h : Held settled s) (hg : Gapless settled) (hst : s.steps k s.context st d) :
    ∃ g, st.Prepared g (fun n => settled n ∨ k.Solves) d ∧ (st ≠ .propagate → ∀ v, s.formula.Holds v → g.Holds v) := by
  have hall : ∀ {other : Nat → Prop} {p : Steps}, (∀ n, settled n ∨ k.Solves → other n) →
      ReadyAt s.formula other p s.context → p s.context st d → ∃ g, st.Prepared g (fun n => settled n ∨ k.Solves) d ∧
        (st ≠ .propagate → ∀ v, s.formula.Holds v → g.Holds v) := fun hw hp hst =>
    have hd := hp st d hst
    ⟨s.formula, ⟨hd.toReady, fun conflict he => (hd.probed conflict he).mono hw⟩, fun _ _ => id⟩
  have hzero : Held (· = 0) s := h.weaken fun k _ hk => hk ▸ hg.zero
  unfold Session.steps at hst
  cases k with
  | freshAtom => exact hst.elim
  | undo l => exact hst.elim
  | addClause clause =>
    obtain ⟨rfl, hd⟩ := ready_addClause hzero.toResting st d hst
    exact ⟨_, ⟨hd, nofun⟩, fun hne => absurd rfl hne⟩
  | readDimacs lines =>
    obtain ⟨rfl, g, hd⟩ := ready_perform _ s hzero st d hst
    exact ⟨g, ⟨hd, nofun⟩, fun hne => absurd rfl hne⟩
  | solve fuel => exact hall (fun _ => id) (ready_solveGiven hzero.toResting) hst
  | solveGiven fuel assumptions =>
    dsimp only at hst
    split at hst
    · exact hall (fun _ => id) (ready_solveGiven hzero.toResting) hst
    · exact hst.elim
  | simplify =>
    obtain ⟨g, _, hsound, hu, hg⟩ := hzero.exists_sound
    refine ⟨g, ready_simplify ⟨⟨_, hsound⟩, ⟨0, .of_none hu⟩, ?_⟩ st d hst, fun _ => hg⟩
    by_cases hs : s.context.state = .unsatisfiable
    · exact .inr (.inl hs)
    · have hquiet := hzero.quiet hs
      rcases Nat.eq_zero_or_pos s.context.trail.level with hz | hpos
      · exact .inr (.inr ⟨hquiet.current hz, hquiet.head⟩)
      · exact .inl hpos
  | reduce =>
    obtain ⟨g, _, hsound, hu, hg⟩ := hzero.exists_sound
    obtain ⟨rfl, rfl⟩ := hst
    exact ⟨g, ⟨⟨⟨_, hsound⟩, ⟨0, .of_none hu⟩, trivial⟩, nofun⟩, fun _ => hg⟩
  | decide l => exact hall (fun _ hn => hn.resolve_right id) (ready_decide h.toResting hg) hst
  | assertHere =>
    dsimp only at hst
    split at hst
    · exact hst.elim
    · rename_i ho
      exact hall (fun _ hn => hn.resolve_right id) (ready_assertHere (h.idle (by simpa using ho))) hst
  | countModels => exact hall (fun _ hn => hn.resolve_right id) (ready_countModelsFor hg _ _ h.toResting) hst
  | findModel fuel => exact hall (fun _ hn => hn.resolve_right id) (ready_findModel hg fuel _ h.toResting) hst

theorem Held.ready (h : Held (· = 0) s) (hst : s.steps k s.context st d) :
    ∃ g, st.Ready g d ∧ (st ≠ .propagate → ∀ v, s.formula.Holds v → g.Holds v) :=
  have ⟨g, hd, hg⟩ := h.prepared gapless_zero hst
  ⟨g, hd.toReady, hg⟩

end Session
end Cdcl
