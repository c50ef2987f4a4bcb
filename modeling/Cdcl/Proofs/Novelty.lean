import Cdcl.Proofs.Clearing
import Cdcl.Proofs.LearntClauses
import Cdcl.Proofs.Undoing
import Cdcl.Proofs.UnitPropagation
/-!
# Novelty — a learnt clause says more than every stored one

Where a conflict is analysed, everything is propagated at the levels below, if no literal was decided above a conflict that
stands (`Careful`).  So no stored clause is unit there, and a clause within the learnt one would be: but for the literal that
the learnt clause asserts its literals are false below the level of the conflict (`analyzeConflict_new`).

A clause that waits for a level below is asserted under every level that was left in a conflict, so no stored clause is
within it where it is asserted (`Careful.guarded`).
-/
namespace Cdcl
namespace Context

variable {f : Formula} {settled : Nat → Prop} {c d e : Context} {clause : Clause} {l first : Literal} {rest : Clause}
  {learnt : LearntClause}

/-! ## Clauses within a learnt one -/

/-- **Where some literals are settled, no live clause leaves one literal alone** that is not among them. -/
theorem Shaped.exists_other {p : List Literal} (h : Shaped c) (hs : c.Settles p p) (hl : c.Live clause)
    (hp : ∀ m ∈ p, m.negate ∉ p) (hfirst : first ∉ p) : ∃ m ∈ clause, m ≠ first ∧ m.negate ∉ p := by
  obtain ⟨a, ha, b, hb, hne, hab, hba⟩ := h.exists_partners hl
  by_contra hnone
  simp only [not_exists, not_and, not_not] at hnone
  -- a partner that is false makes the other one true, which is false as well or the literal left alone
  have hpair : ∀ m n, m ∈ clause → n ∈ clause → c.Partners m n → m ≠ first → False := fun m n hm hn hmn hne => by
    have htrue := hs m n hmn (hnone m hm hne)
    by_cases he : n = first
    · exact hfirst (he ▸ htrue)
    · exact hp n htrue (hnone n hn he)
  by_cases he : a = first
  · exact hpair b a hb ha hba fun hbl => hne (he.trans hbl.symm)
  · exact hpair a b ha hb hab he

/-- What is within a clause once literals false at level zero are dropped is within it, or false at level zero. -/
theorem mem_of_stripped_subset (h : c.stripped clause ⊆ rest) (hl : l ∈ clause) :
    l ∈ rest ∨ c.atoms.falseAtRoot l = true := by
  by_cases hz : c.atoms.falseAtRoot l = true
  · exact .inr hz
  · exact .inl (h (List.mem_filter.2 ⟨hl, by simpa using hz⟩))

theorem Trailed.falseAtRoot_iff (h : Trailed f c) :
    c.atoms.falseAtRoot l = true ↔ l.negate ∈ c.trail.literals.toList ∧ c.atoms.levelOrZero l.atom = 0 := by
  simp [AtomTable.falseAtRoot, ← h.isFalse_iff_mem]

/-- **No live clause is within a clause whose literals but one are false on settled levels**, even without its literals
false at level zero. -/
theorem Trailed.not_stripped_subset {k : Nat} (h : Trailed f c) (hshaped : Shaped c) (hn : Noted k c)
    (hs : c.Settles (c.trail.upTo k) (c.trail.upTo k)) (hl : c.Live clause) (hfirst : first ∉ c.trail.upTo k)
    (hrest : ∀ m ∈ rest, m.negate ∈ c.trail.upTo k) : ¬c.stripped clause ⊆ first :: rest := fun hsub => by
  obtain ⟨m, hm, hne, hother⟩ := hshaped.exists_other hs hl (fun m hm hnm =>
    h.not_mem_negate (Trail.upTo_subset_literals hm) (Trail.upTo_subset_literals hnm)) hfirst
  rcases mem_of_stripped_subset hsub hm with hm | hz
  · exact hother (hrest m ((List.mem_cons.1 hm).resolve_left hne))
  · obtain ⟨hmem, hlevel⟩ := h.falseAtRoot_iff.1 hz
    exact hother (hn.mem_upTo h hmem (by rw [Literal.atom_negate, hlevel]; exact Nat.zero_le k))

/-- **Where the levels below a conflict are settled, no live clause is within the clause it teaches.** -/
theorem Learnable.not_stripped_subset (h : Learnable f c learnt first rest) (ht : Trailed f c) (hshaped : Shaped c)
    (hp : c.Probed settled) (hs : settled (c.trail.level - 1)) (hl : c.Live clause) :
    ¬c.stripped clause ⊆ learnt.clause := by
  have hbelow := h.below
  rw [h.clause]
  exact ht.not_stripped_subset hshaped hp.noted (hp.below hs) hl (h.first_free ht (by omega)).1 fun m hm =>
    h.mem_upTo ht (by omega) hm

theorem Alike.stripped (h : Alike c d) (clause : Clause) : d.stripped clause = c.stripped clause :=
  List.filter_congr fun l _ => by
    have hfalse : d.atoms.isFalse l = c.atoms.isFalse l := by
      rw [Bool.eq_iff_iff, AtomTable.isFalse_iff, AtomTable.isFalse_iff, h.value]
    rw [AtomTable.falseAtRoot, AtomTable.falseAtRoot, hfalse, h.levelOrZero]

/-- **The way back from a conflict leaves it so.** -/
theorem Jumped.not_stripped_subset {target : Nat} (hj : Jumped c target d) (hc : Trailed f c) (hd : Trailed f d)
    (h : ∀ clause, c.Live clause → ¬c.stripped clause ⊆ rest) (hl : d.Live clause) : ¬d.stripped clause ⊆ rest :=
  fun hsub => by
    have hlive : c.Live clause := by
      rwa [live_iff, ← hj.clauses, ← hj.watches, ← live_iff]
    refine h clause hlive fun m hm => hsub ?_
    obtain ⟨hm, hz⟩ := List.mem_filter.1 hm
    refine List.mem_filter.2 ⟨hm, ?_⟩
    rw [Bool.not_eq_true', ← Bool.not_eq_true, hd.falseAtRoot_iff]
    rintro ⟨hmem, hlevel⟩
    have hlevels := hj.levels _ hmem
    rw [Literal.atom_negate] at hlevels
    rw [hj.literals] at hmem
    rw [hc.falseAtRoot_iff.2 ⟨Trail.upTo_subset_literals hmem, hlevels.symm.trans hlevel⟩] at hz
    exact absurd hz (by decide)

/-- **Where everything is propagated, no live clause is within the clause that waits to be asserted here.** -/
theorem Quiet.not_stripped_subset (h : Quiet f settled c) (hs : settled c.trail.level) (ha : Awaited f c learnt first rest)
    (hlevel : learnt.level = c.trail.level) (hl : c.Live clause) : ¬c.stripped clause ⊆ learnt.clause := by
  have hupTo : c.trail.upTo c.trail.level = c.trail.literals.toList := Trail.upTo_of_level_le (Nat.le_refl _)
  have hsettles : c.Settles (c.trail.upTo c.trail.level) (c.trail.upTo c.trail.level) := by
    rw [hupTo, ← Trail.before_of_size_le (Nat.le_refl c.trail.size)]
    simpa only [Current, Trail.before_of_size_le (Nat.le_refl c.trail.size)] using h.current hs
  obtain ⟨hfirst, -, hrest⟩ := ha.here (Nat.le_of_eq hlevel)
  rw [hlevel] at hfirst hrest
  rw [ha.clause]
  exact h.trailed.not_stripped_subset h.shaped (.of_none h.units) hsettles hl hfirst hrest

/-! ## Levels with a conflict -/

/-- **A level that is settled has no conflict.** -/
theorem Resting.not_clashing (h : Resting f settled c) (hs : settled c.trail.level) (hpos : 0 < c.trail.level) :
    ¬c.Clashing := by
  have hquiet := h.quiet (h.state_ne hpos)
  exact Session.not_clashing_of_slack fun clause => hquiet.toSound.slack (hquiet.current hs)

theorem Thwarted.pending_lt (h : c.Thwarted) (hp : c.pending = some learnt) (hpos : 0 < c.trail.level) :
    learnt.level < c.trail.level := by
  rcases h with ⟨hz, -⟩ | ⟨other, ho, hlt⟩
  · omega
  · cases hp.symm.trans ho
    exact hlt

end Context

namespace Solver

open Run Context

variable {f : Formula} {settled : Nat → Prop} {c : Context}

/-- The clause that waits stays. -/
def SamePending (c d : Context) : Prop := d.pending = c.pending

instance : Chained SamePending where
  refl _ := rfl
  trans h h' := h'.trans h

instance : Stepped SamePending := .ofStill (fun _ _ => trivial) Still.pending

instance : Refutable SamePending where
  refuted _ := rfl

/-- **A clause that is asserted leaves the level where it is**, settled or with no way on. -/
theorem meets_assertHere_halted (h : Idle f settled c) :
    Meets assertHere c (fun _ d => d.trail.level = c.trail.level ∧ Halted f settled d ∧ c.atAssertionLevel = true)
      (fun d => Idle f settled d ∧ d.pending = none) := by
  unfold assertHere
  rw [meets_bind, meets_get, meets_ite]
  refine ⟨fun hl => (meets_assertPending h hl).mono (fun _ _ ⟨_, he, hr⟩ => ⟨?_, hr.halted, hl⟩) fun _ => id,
    fun _ => trivial⟩
  exact hr.grown.trail_level.trans he.extended.trail_level

end Solver

namespace Session

open Run Context Solver

variable {s t : Session} {levels : Nat → Prop} {k : Call} {conflict : Conflict} {d : Context} {p : LearntClause}

/-! ## Calls that decide above no conflict -/

/-- The levels left of some with a conflict, and the one a call ended at if it has a conflict. -/
def clashes (t : Session) (levels : Nat → Prop) : Nat → Prop :=
  fun n => n ≤ t.context.trail.level ∧ (levels n ∨ n = t.context.trail.level ∧ 0 < n ∧ t.context.Clashing)

/-- Calls have led here, with options and listeners that may change between them, and no literal was decided while a level
with a conflict stood.  Those that stand now are told. -/
inductive Careful : Session → (Nat → Prop) → Prop
  | start (options : Options) (random : Chance) : Careful (start options random) fun _ => False
  | equip {s : Session} {levels : Nat → Prop} (h : Careful s levels) (options : Options) (listeners : Listeners) :
    Careful (s.goTo { s.context with options, listeners }) levels
  | call {s t : Session} {levels : Nat → Prop} {k : Call} (h : Careful s levels) (hk : k.Decides → ∀ n, ¬levels n)
    (ht : s.call k = some t) : Careful t (t.clashes levels)
  | assert {s t : Session} {levels : Nat → Prop} (h : Careful s levels) (hfree : s.context.Assertable)
    (ht : s.after Solver.assertHere (fun _ => s.forget) = some t) : Careful t (t.clashes levels)

/-- The levels below a conflict are settled, and a clause that waits does so for one of them. -/
structure Guarded (s : Session) (levels : Nat → Prop) : Prop where
  held : Held (fun k => ∀ n, levels n → k < n) s
  pos : ∀ n, levels n → 0 < n
  spared : ∀ p, s.context.pending = some p → ∀ n, levels n → p.level < n

/-- **A call that neither decides, asserts nor solves keeps the clause that waits.** -/
theorem pending_call (ht : s.call k = some t) (hd : ¬k.Decides) (ha : k ≠ .assertHere) (hs : ¬k.Solves) :
    t.context.pending = s.context.pending := by
  have hatom : Within SamePending freshAtom := within_freshAtom fun _ _ => rfl
  have hclause : ∀ clause, Within SamePending (addClause clause) := within_addClause fun _ => rfl
  refine meets_call (P := fun d => d.pending = s.context.pending) ?_ ht
  cases k with
  | freshAtom => exact (leads_discard (hatom _)).meets
  | addClause clause => exact (leads_discard (hclause clause _)).meets
  | readDimacs lines => exact (leads_discard (within_readAll hatom hclause lines _)).meets
  | simplify => exact (within_simplify (R := SamePending) _).meets
  | reduce => exact (within_reduce (R := SamePending) _).meets
  | undo l => exact meets_undo_course.mono (fun _ _ => pending_eq_of_course) fun _ => pending_eq_of_course
  | assertHere => exact absurd rfl ha
  | solve fuel => exact absurd trivial hs
  | solveGiven fuel assumptions => exact absurd trivial hs
  | decide l => exact absurd trivial hd
  | countModels => exact absurd trivial hd
  | findModel fuel => exact absurd trivial hd

/-- **Decisions that end without a clause waiting below the level they end at leave that level settled.** -/
theorem Held.decided {settled : Nat → Prop} (h : Held settled s) (hg : Gapless settled) (ht : s.call k = some t)
    (hd : k.Decides) : t.context.Thwarted ∨ Held settled t := by
  have hhalted : ∀ {e}, Halted s.formula settled e ∨ e = s.context ∧ s.context.Finished →
      e.Thwarted ∨ Held settled (s.branch e) := fun {e} he => by
    rcases he with he | ⟨rfl, hf⟩
    · exact he.settles.imp_right fun he => ⟨he.toResting, fun _ => he.waiting⟩
    · exact .inr (h.finished hf)
  unfold Session.call at ht
  cases k with
  | decide l =>
    exact meets_after (P := fun t => t.context.Thwarted ∨ Held settled t)
      ((meets_decide h.toResting hg).mono (fun _ _ he => hhalted he.1) fun _ => False.elim) ht
  | countModels =>
    refine meets_after (P := fun t => t.context.Thwarted ∨ Held settled t) ?_ ht
    unfold countModels
    rw [meets_bind, meets_get]
    exact (meets_countModelsFor hg _ _ h.toResting).mono (fun _ _ he => hhalted (he.imp_left Idle.halted))
      fun _ he => hhalted (.inl he.halted)
  | findModel fuel =>
    exact meets_after (P := fun t => t.context.Thwarted ∨ Held settled t)
      ((meets_findModel hg fuel _ h.toResting).mono (fun _ _ he => hhalted he) fun _ he => hhalted (.inl he.halted)) ht
  | _ => exact hd.elim

/-- **What a call leaves guarded**: a clause that waits does so below the levels with a conflict that are left, and below
the one it ended at. -/
theorem Guarded.next (h : s.Guarded levels) (ht : Held (t.context.clear fun k => ∀ n, levels n → k < n) t)
    (hspared : ∀ p, t.context.pending = some p → (∀ n ≤ t.context.trail.level, levels n → p.level < n) ∧
      (0 < t.context.trail.level → t.context.Clashing → p.level < t.context.trail.level)) : t.Guarded (t.clashes levels) := by
  refine ⟨ht.below_clashes, fun n hn => hn.2.elim (h.pos n) fun hn => hn.2.1, fun p hp n ⟨hle, hn⟩ => ?_⟩
  obtain ⟨hbelow, hhere⟩ := hspared p hp
  rcases hn with hn | ⟨rfl, hpos, hc⟩
  · exact hbelow n hle hn
  · exact hhere hpos hc

/-- **A clause is asserted below every level that was left in a conflict**, and so one that waits then is. -/
theorem Guarded.asserted {next : Option Bool → Context → Session} (h : s.Guarded levels)
    (hidle : Idle s.formula (fun k => ∀ n, levels n → k < n) s.context)
    (ht : s.after assertHere next = some t) (hnext : ∀ r d, (next r d).context = d ∧ (next r d).formula = s.formula) :
    t.Guarded (t.clashes levels) := by
  have hled : t.formula = s.formula ∧ ((t.context.trail.level = s.context.trail.level ∧
      Halted s.formula (fun k => ∀ n, levels n → k < n) t.context ∧ s.context.atAssertionLevel = true) ∨
      Idle s.formula (fun k => ∀ n, levels n → k < n) t.context ∧ t.context.pending = none) := by
    obtain ⟨r, d, hr, rfl⟩ := after_eq_some ht
    rw [(hnext r d).1]
    exact ⟨(hnext r d).2, Meets.of_ended (P := fun _ d => (d.trail.level = s.context.trail.level ∧
      Halted s.formula (fun k => ∀ n, levels n → k < n) d ∧ s.context.atAssertionLevel = true) ∨
      Idle s.formula (fun k => ∀ n, levels n → k < n) d ∧ d.pending = none)
      ((meets_assertHere_halted hidle).mono (fun _ _ => .inl) fun _ => .inr) hr⟩
  obtain ⟨hformula, hled⟩ := hled
  rw [← hformula] at hled
  rcases hled with ⟨hlevel, hhalted, hguard⟩ | ⟨hsettled, hnone⟩
  · obtain ⟨q, hq, hql⟩ := exists_pending hguard
    have habove : ∀ n, levels n → t.context.trail.level < n := fun n hn => by
      rw [hlevel, ← hql]
      exact h.spared q hq n hn
    refine h.next (.of_idle hhalted.toIdle) fun p hp =>
      ⟨fun n hle hn => absurd (habove n hn) (Nat.not_lt.2 hle), fun hpos hc => ?_⟩
    rcases hhalted.settles with hthwarted | hsettled
    · exact hthwarted.pending_lt hp hpos
    · exact absurd hc (hsettled.toResting.not_clashing habove hpos)
  · refine h.next (Held.of_idle hsettled).clear fun p hp => ?_
    rw [hnone] at hp
    cases hp

/-- **Every call leaves levels guarded**, if it decides no literal above a conflict. -/
theorem Guarded.call (h : s.Guarded levels) (hk : k.Decides → ∀ n, ¬levels n) (ht : s.call k = some t) :
    t.Guarded (t.clashes levels) := by
  have hg := gapless_below h.pos
  have hheld := h.held.call hg ht
  by_cases hd : k.Decides
  · have hnone := hk hd
    refine h.next hheld fun p hp => ⟨fun n _ hn => absurd hn (hnone n), fun hpos hc => ?_⟩
    rcases h.held.decided hg ht hd with hthwarted | hsettled
    · exact hthwarted.pending_lt hp hpos
    · exact absurd hc (hsettled.toResting.not_clashing (fun n hn => absurd hn (hnone n)) hpos)
  by_cases ha : k = .assertHere
  · subst ha
    unfold Session.call at ht
    dsimp only at ht
    split at ht
    · cases ht
    · rename_i ho
      exact h.asserted (h.held.idle (by simpa using ho)) ht fun _ _ => ⟨rfl, rfl⟩
  by_cases hs : k.Solves
  · have hnone : t.context.pending = none := by
      have hsolved : ∀ fuel assumptions, Meets (Solver.solveGiven fuel assumptions) s.context
          (fun _ d => d.pending = none) fun d => d.pending = none := fun fuel assumptions =>
        (meets_solveGiven h.held.toResting hg.zero).mono (fun _ _ hd => hd.pending) fun _ hd => hd.2.1
      unfold Session.call at ht
      cases k with
      | solve fuel => exact meets_after (P := fun t => t.context.pending = none) (hsolved fuel []) ht
      | solveGiven fuel assumptions =>
        exact meets_after (P := fun t => t.context.pending = none) (hsolved fuel assumptions)
          (Option.ite_none_right_eq_some.1 ht).2
      | _ => exact hs.elim
    refine h.next hheld fun p hp => ?_
    rw [hnone] at hp
    cases hp
  · refine h.next hheld fun p hp => ?_
    rw [pending_call ht hd ha hs] at hp
    refine ⟨fun n _ hn => h.spared p hp n hn, fun hpos hc => Classical.byContradiction fun hlt => ?_⟩
    refine (h.held.kept hg.zero ht hd ha).toResting.not_clashing (fun n hn => ?_) hpos hc
    have := h.spared p hp n hn
    omega

theorem Careful.followed (h : s.Careful levels) : s.Followed := by
  induction h with
  | start options random => exact .start options random
  | equip _ options listeners ih => exact ih.equip options listeners
  | call _ _ ht ih => exact ih.call ht
  | assert _ hfree ht ih => exact ih.assert hfree ht

theorem Careful.le (h : s.Careful levels) {n : Nat} (hn : levels n) : n ≤ s.context.trail.level := by
  induction h with
  | start => exact hn.elim
  | equip _ _ _ ih => exact ih hn
  | call => exact hn.1
  | assert => exact hn.1

theorem Careful.run : ∀ (calls : List Call) {s t : Session} {levels : Nat → Prop}, s.Careful levels →
    (∀ k ∈ calls, ¬k.Decides) → s.run calls = some t → ∃ levels, t.Careful levels
  | [], _, _, levels, h, _, ht => by
    cases ht
    exact ⟨levels, h⟩
  | k :: rest, _, _, _, h, hd, ht => by
    obtain ⟨u, hu, ht⟩ := Option.bind_eq_some_iff.1 ht
    obtain ⟨hk, hd⟩ := List.forall_mem_cons.1 hd
    exact Careful.run rest (h.call (fun hdecides => absurd hdecides hk) hu) hd ht

/-- **To assert a clause that may be asserted leaves levels guarded**, overtaken or not. -/
theorem Guarded.assert (h : s.Guarded levels) (ho : Owing s) (hfree : s.context.Assertable)
    (ht : s.after assertHere (fun _ => s.forget) = some t) : t.Guarded (t.clashes levels) := by
  have hheld : Held (· = 0) t := (meets_after (ho.assert hfree) ht).toHeld
  have hl : s.context.atAssertionLevel = true := by
    refine meets_after (P := fun _ => s.context.atAssertionLevel = true) (m := assertHere) ?_ ht
    unfold Solver.assertHere
    rw [meets_bind, meets_get, meets_ite]
    exact ⟨fun hl => meets_any.mono (fun _ _ _ => hl) fun _ _ => hl, fun _ => trivial⟩
  by_cases hs : s.context.state = .unsatisfiable
  · have hover : s.context.Overtaken s.formula := ho.owed.resolve_left fun hw =>
      have ⟨p, hp, _⟩ := exists_pending hl
      (hw p hp).1 hs
    have hstate : t.context.state = .unsatisfiable := by
      refine meets_after (P := fun t => t.context.state = .unsatisfiable) (m := assertHere) ?_ ht
      unfold Solver.assertHere
      rw [meets_bind, meets_get, if_pos hl]
      exact (meets_assertPending_barren (ho.barren hs) hover hs hl hfree).mono (fun _ _ => And.left) fun _ => False.elim
    have hz := (hheld.barren hstate).level
    refine h.next (hheld.weaken fun k hk _ => by omega) fun p hp => ⟨fun n hle hn => ?_, fun hpos => absurd hpos (by omega)⟩
    exact absurd (h.pos n hn) (by omega)
  · have hw : s.context.Waiting s.formula := ho.owed.elim id fun hover => hover.waiting ho.toResting hs hl hfree
    exact h.asserted ⟨h.held.toResting, hw⟩ ht fun _ _ => ⟨rfl, rfl⟩

/-- **Nothing decided above a conflict leaves levels guarded.** -/
theorem Careful.guarded (h : s.Careful levels) : s.Guarded levels := by
  induction h with
  | start options random => exact ⟨held_start options random, nofun, nofun⟩
  | equip _ options listeners ih => exact ⟨ih.held.equip options listeners, ih.pos, ih.spared⟩
  | call _ hk ht ih => exact ih.call hk ht
  | assert h hfree ht ih => exact ih.assert h.followed.owing hfree ht

/-- Where a conflict is analysed by a call that decides nothing above another, all levels below are settled. -/
theorem Guarded.prepared (h : s.Guarded levels) (hk : k.Decides → ∀ n, ¬levels n)
    (hst : s.steps k s.context (.analyze conflict) d) :
    ∃ g, Step.Prepared g (fun _ => True) (.analyze conflict) d := by
  have hall : (∀ n ≤ s.context.trail.level, ∀ m, levels m → n < m) →
      ∃ g, Step.Prepared g (fun _ => True) (.analyze conflict) d := fun hbelow =>
    have hheld : Held (fun _ => True) s := h.held.weaken fun n hn _ => hbelow n hn
    have ⟨g, hd, _⟩ := hheld.prepared ⟨trivial, fun _ _ => trivial⟩ hst
    ⟨g, hd.toReady, fun c hc => (hd.probed c hc).mono fun _ => .inl⟩
  have hzero : Held (· = 0) s := h.held.weaken fun n _ hn m hm => hn ▸ h.pos m hm
  have hnot : ∀ {p : Prop}, Step.analyze conflict = .propagate → p := nofun
  cases k with
  | decide l => exact hall fun _ _ m hm => absurd hm (hk trivial m)
  | countModels => exact hall fun _ _ m hm => absurd hm (hk trivial m)
  | findModel fuel => exact hall fun _ _ m hm => absurd hm (hk trivial m)
  | solve fuel =>
    obtain ⟨g, hd, -⟩ := h.held.prepared (gapless_below h.pos) hst
    exact ⟨g, hd.toReady, fun c hc => (hd.probed c hc).mono fun _ _ => .inr trivial⟩
  | solveGiven fuel assumptions =>
    obtain ⟨g, hd, -⟩ := h.held.prepared (gapless_below h.pos) hst
    exact ⟨g, hd.toReady, fun c hc => (hd.probed c hc).mono fun _ _ => .inr trivial⟩
  | assertHere =>
    refine hall fun n hn m hm => ?_
    unfold Session.steps at hst
    dsimp only at hst
    split at hst
    · exact hst.elim
    · unfold assertHere.steps at hst
      split at hst
      · obtain ⟨q, hq, hql⟩ := exists_pending ‹_›
        exact Nat.lt_of_le_of_lt hn (hql ▸ h.spared q hq m hm)
      · exact hst.elim
  | freshAtom => exact hst.elim
  | undo l => exact hst.elim
  | addClause clause => exact hnot (ready_addClause hzero.toResting _ d hst).1
  | readDimacs lines => exact hnot (ready_perform _ s hzero _ d hst).1
  | simplify => rcases hst with ⟨he, -⟩ | ⟨-, -, he, -⟩ <;> cases he
  | reduce => cases hst.1

/-- **A clause learnt from a conflict is new.**  If no literal was decided above a conflict that stands, every analysis
answers, and no live clause is within the clause it answers with, even without its literals false at level zero, neither then
nor after the way back.  Nor is any within a clause that waits, where it is to be asserted, unless it is known that there is no
model. -/
theorem analyzeConflict_new (h : s.Careful levels) :
    (∀ k conflict d, (k.Decides → ∀ n, ¬levels n) → s.steps k s.context (.analyze conflict) d →
      ∃ learnt e, analyzeConflict conflict d = .ok learnt e ∧
        (∀ clause, d.Live clause → ¬d.stripped clause ⊆ learnt.clause) ∧
        ∀ target g, backjump target e = .ok () g → ∀ clause, g.Live clause → ¬g.stripped clause ⊆ learnt.clause) ∧
    ∀ p, s.context.pending = some p → p.level = s.context.trail.level →
      s.outdated = false ∨ s.context.Assertable ∧ s.context.state ≠ .unsatisfiable →
      ∀ clause, s.context.Live clause → ¬s.context.stripped clause ⊆ p.clause := by
  refine ⟨fun k conflict d hk hst => ?_, fun p hp hlevel ho clause hl => ?_⟩
  · obtain ⟨f, ⟨⟨⟨settled, hd⟩, -, hr, hhere, hpos⟩, hprobed⟩⟩ := h.guarded.prepared hk hst
    obtain ⟨learnt, e, he, hrest, first, rest, hlearnt⟩ := answers_analyzeConflict hd.toBase hd.marks hr hhere hpos
    have hnew : ∀ clause, d.Live clause → ¬d.stripped clause ⊆ learnt.clause := fun clause hl =>
      hlearnt.not_stripped_subset hd.trailed hd.shaped (hprobed conflict rfl) trivial hl
    refine ⟨learnt, e, he, hnew, fun target g hg clause hl => ?_⟩
    -- the analysis has left the clauses and the values as they were
    have hsound := hrest.toAlike.sound hd (hrest.marks.trans hd.marks.symm)
    have hstill : ∀ clause, e.Live clause → ¬e.stripped clause ⊆ learnt.clause := fun clause hl => by
      rw [hrest.toAlike.stripped]
      exact hnew clause (hrest.toAlike.live_iff.1 hl)
    obtain ⟨hg, hstay, hjump⟩ := (meets_backjump hsound).of_ok hg
    rcases Nat.lt_or_ge target e.trail.level with hlt | hge
    · exact (hjump hlt).1.not_stripped_subset hsound.trailed hg.trailed hstill hl
    · rw [hstay hge] at hl ⊢
      exact hstill clause hl
  · have hheld := h.guarded.held
    have hw : s.context.Waiting s.formula := by
      rcases ho with ho | ⟨hfree, hs⟩
      · exact hheld.waiting ho
      · refine h.followed.owing.owed.elim id fun hover => hover.waiting hheld.toResting hs ?_ hfree
        unfold atAssertionLevel
        rw [hp]
        exact beq_iff_eq.2 hlevel
    obtain ⟨hs, first, rest, ha⟩ := hw p hp
    refine (hheld.quiet hs).not_stripped_subset (fun n hn => ?_) ha hlevel hl
    exact hlevel ▸ h.guarded.spared p hp n hn

theorem Careful.not_mem (h : s.Careful levels) (hz : s.context.trail.level = 0) (n : Nat) : ¬levels n := fun hn => by
  have := h.le hn
  have := h.guarded.pos n hn
  omega

/-- With two clauses that leave the first atom one value only: where the other value is decided, and where that has been undone
and the unit learnt from it waits. -/
theorem analyzeConflict_new_or : ∃ (s t : Session) (levels others : Nat → Prop) (conflict : Conflict) (d : Context)
    (p : LearntClause), s.Careful levels ∧ s.formula = [[x₀, x₁], [x₀, x₁.negate]] ∧ (∀ n, ¬levels n) ∧
    s.steps (.decide x₀.negate) s.context (.analyze conflict) d ∧
    (∃ learnt e, analyzeConflict conflict d = .ok learnt e ∧
      (∀ clause, d.Live clause → ¬d.stripped clause ⊆ learnt.clause) ∧
      ∀ target g, backjump target e = .ok () g → ∀ clause, g.Live clause → ¬g.stripped clause ⊆ learnt.clause) ∧
    s.run [.decide x₀.negate, .undo x₀.negate] = some t ∧ t.Careful others ∧ t.context.pending = some p ∧ p.clause = [x₀] ∧
    p.level = t.context.trail.level ∧ ∀ clause, t.context.Live clause → ¬t.context.stripped clause ⊆ p.clause := by
  have h : (dispute [.freshAtom, .freshAtom, .addClause [x₀, x₁], .addClause [x₀, x₁.negate]] x₀.negate).map
      (fun r => (Decidable.decide (r.1.formula = [[x₀, x₁], [x₀, x₁.negate]] ∧ r.1.context.trail.level = 0),
        (r.1.run [.decide x₀.negate, .undo x₀.negate]).map fun t => Decidable.decide (t.outdated = false ∧
          t.context.trail.level = 0 ∧ t.context.pending.map (fun p => (p.clause, p.level)) = some ([x₀], 0)))) =
      some (true, some true) := by
    simp only [dispute, Session.run, Session.call, Session.after, addClause, normal_or, normal_or_negate]
    decide +kernel
  obtain ⟨s, conflict, e, hs, hst, hview⟩ := exists_analyze_of_dispute h
  simp only [Prod.mk.injEq, decide_eq_true_iff, Option.map_eq_some_iff] at hview
  obtain ⟨⟨hf, hz⟩, t, ht, ho, htz, p, hp, hclause, hlevel⟩ := hview
  obtain ⟨levels, hcareful⟩ := Careful.run _ (.start {} .default) (by simp [Call.Decides]) hs
  have hnone := hcareful.not_mem hz
  obtain ⟨u, hu, hrest⟩ := Option.bind_eq_some_iff.1 ht
  obtain ⟨others, hothers⟩ := Careful.run _ (hcareful.call (fun _ => hnone) hu) (by simp [Call.Decides]) hrest
  exact ⟨s, t, levels, others, conflict, e, p, hcareful, hf, hnone, hst,
    (analyzeConflict_new hcareful).1 (.decide x₀.negate) conflict e (fun _ => hnone) hst, ht, hothers, hp, hclause,
    hlevel.trans htz.symm, (analyzeConflict_new hothers).2 p hp (hlevel.trans htz.symm) (.inl ho)⟩

end Session
end Cdcl
