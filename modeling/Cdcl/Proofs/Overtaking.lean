import Cdcl.Proofs.Consistency
/-!
# Overtaking — a clause that waits while others are accepted

A clause accepted at level zero overtakes the clause that waits: its literals may have got values since.  What is left of
such a clause is known at level zero only.  If it waits for that level it has one literal and follows from the formula, but
the literal may have a value (`Overtaken`).

A run of calls is orderly if a clause is asserted only while its first literal has no value.  Where no clause has overtaken
it that is so wherever it asserts.  Every orderly run keeps what holds between calls (`Orderly.owing`).
-/
namespace Cdcl
namespace Context

/-- At level zero, where a clause may have been accepted since one was learnt to wait: if that waits for level zero it has
one literal, of whose value nothing is known. -/
structure Overtaken (f : Formula) (c : Context) : Prop where
  level : c.trail.level = 0
  unit : ∀ p, c.pending = some p → p.level = 0 →
    ∃ first, p.clause = [first] ∧ f.Entails [first] ∧ first.atom < c.atoms.count

/-- The first literal of the clause that waits has no value. -/
def Assertable (c : Context) : Prop :=
  ∀ p, c.pending = some p → ∀ first ∈ p.clause.head?, c.atoms.value first.atom = none

variable {f g : Formula} {settled : Nat → Prop} {c d : Context} {p : LearntClause} {l first : Literal}

/-- The guard is open at the level of a clause that waits. -/
theorem exists_pending (hl : c.atAssertionLevel = true) : ∃ p, c.pending = some p ∧ p.level = c.trail.level := by
  unfold atAssertionLevel at hl
  split at hl
  · exact ⟨_, ‹_›, beq_iff_eq.1 hl⟩
  · cases hl

theorem level_eq_of_atAssertionLevel (hl : c.atAssertionLevel = true) (hp : c.pending = some p) :
    p.level = c.trail.level := by
  obtain ⟨q, hq, hlevel⟩ := exists_pending hl
  cases hp.symm.trans hq
  exact hlevel

theorem Assertable.of_pending {rest : Clause} (hp : c.pending = some p) (hclause : p.clause = first :: rest)
    (hfree : c.atoms.value first.atom = none) : c.Assertable := fun q hq l hl => by
  cases hp.symm.trans hq
  rw [hclause] at hl
  cases hl
  exact hfree

theorem Overtaken.carry (h : Overtaken f c) (hfg : ∀ v, g.Holds v → f.Holds v) (hp : d.pending = c.pending)
    (hcount : c.atoms.count ≤ d.atoms.count) (hl : d.trail.level = 0) : Overtaken g d :=
  ⟨hl, fun p he hz =>
    have ⟨first, hclause, hf, hk⟩ := h.unit p (hp ▸ he) hz
    ⟨first, hclause, hf.mono hfg, Nat.lt_of_lt_of_le hk hcount⟩⟩

theorem Waiting.overtaken (h : Waiting f c) (hfg : ∀ v, g.Holds v → f.Holds v) (hp : d.pending = c.pending)
    (hcount : c.atoms.count ≤ d.atoms.count) (hl : d.trail.level = 0) : Overtaken g d := by
  refine ⟨hl, fun p he hz => ?_⟩
  obtain ⟨-, first, rest, ha⟩ := h p (hp ▸ he)
  have hrest := ha.unit.2 hz
  subst hrest
  exact ⟨first, ha.clause, ha.entails.mono hfg, Nat.lt_of_lt_of_le (ha.known first List.mem_cons_self) hcount⟩

/-- **A clause that was overtaken waits as before if its literal has no value**, and a model is not known to be missing. -/
theorem Overtaken.waiting (h : Overtaken f c) (hr : Resting f settled c) (hs : c.state ≠ .unsatisfiable)
    (hl : c.atAssertionLevel = true) (hfree : c.Assertable) : Waiting f c := by
  refine fun p hp => ⟨hs, ?_⟩
  have hlevel := level_eq_of_atAssertionLevel hl hp
  have hz : p.level = 0 := hlevel.trans h.level
  obtain ⟨first, hclause, he, hknown⟩ := h.unit p hp hz
  have hv := hfree p hp first (by rw [hclause]; rfl)
  have hnot := (hr.quiet hs).trailed.not_mem_of_value_none hv
  exact ⟨first, [], hclause, he, List.nodup_singleton _, fun l hl => by rwa [List.mem_singleton.1 hl],
    fun _ => ⟨fun hm => hnot.1 (Trail.upTo_subset_literals hm), fun hm => hnot.2 (Trail.upTo_subset_literals hm), nofun⟩,
    nofun, by simp [hz]⟩

/-- A literal may be put on the trail at level zero where it is known that there is no model. -/
theorem Barren.push (h : Barren f c) (he : f.Entails [l]) (hv : c.atoms.value l.atom = none)
    (hl : l.atom < c.atoms.count) (hp : Pushed c l 0 none d) (hu : d.pendingUnits = c.pendingUnits) :
    ∃ part, (∀ v, f.Holds v → part.Holds v) ∧ Sound part (· = 0) d := by
  obtain ⟨part, hpart, hs⟩ := h.sound
  refine ⟨part ++ [[l]], fun v hv => Formula.holds_append.2 ⟨hpart v hv, fun d hd => ?_⟩, ?_⟩
  · rw [List.mem_singleton.1 hd]
    exact he v hv
  refine hs.pushUnit ⟨fun v hv => (Formula.holds_append.1 hv).1, fun v hv => ?_, fun d hd => ?_, fun v hv _ hclause =>
    Formula.holds_append.2 ⟨hv, fun d hd => ?_⟩⟩ hp hu hv h.level
  · exact (Formula.holds_append.1 hv).2 [l] (List.mem_singleton_self _)
  · rcases List.mem_append.1 hd with hd | hd
    · exact hs.denotes.known d hd
    · rw [List.mem_singleton.1 hd]
      exact fun m hm => by rwa [List.mem_singleton.1 hm]
  · rwa [List.mem_singleton.1 hd]

end Context

namespace Solver

open Run Context

variable {f : Formula} {settled : Nat → Prop} {c : Context}

/-- Propagating where it is known that there is no model, after an assertion. -/
theorem meets_propagateDecision_barren (hf : ¬f.Satisfiable) (hs : ∃ part, (∀ v, f.Holds v → part.Holds v) ∧
    Sound part (· = 0) c) (hl : c.trail.level = 0) (hu : c.pendingUnits = #[]) (hstate : c.state = .unsatisfiable)
    (hp : c.pending = none) :
    Meets propagateDecision c (fun _ d => d.state = .unsatisfiable ∧ Barren f d ∧ d.pending = none)
      (fun _ => False) := by
  obtain ⟨part, hpart, hs⟩ := hs
  unfold propagateDecision
  rw [meets_bind]
  refine (meets_propagate hs.unsettled nofun).mono (fun result d hd => ?_) fun _ => False.elim
  have hcourse := hd.extended.course
  have hlevel : d.trail.level = 0 := hd.extended.trail_level.trans hl
  have hunits : d.pendingUnits = #[] := hd.units.trans hu
  have hzero : ∀ e, Sound part (fun _ => False) e → e.trail.level = 0 → Sound part (· = 0) e := fun e he hz =>
    he.weaken fun _ _ hlt => absurd (hz ▸ hlt) (Nat.not_lt_zero _)
  cases result with
  | corrupt => exact hd.verdict.elim
  | complete =>
    exact ⟨(state_eq_of_course hcourse).trans hstate, ⟨hf, ⟨part, hpart, hzero d hd.sound hlevel⟩, hlevel, hd.head, hunits⟩,
      (pending_eq_of_course hcourse).trans hp⟩
  | conflict conflict =>
    have halike : Alike d { d with counters := { d.counters with conflicts := d.counters.conflicts + 1 } } :=
      .of_eq rfl rfl rfl rfl rfl
    have hsound := halike.sound hd.sound rfl
    have hr : Refuted part _ conflict := Refuted.alike hd.verdict halike
    show Meets (count _ >>= _) _ _ _
    rw [meets_bind, meets_count, meets_bind, meets_get, meets_ite]
    refine ⟨fun _ => ?_, fun hne => absurd hlevel hne⟩
    rw [meets_bind]
    refine (answers_failedByConflict hsound.toBase hsound.marks hr).meets.mono (fun failed e ⟨he, _⟩ => ?_) fun _ => False.elim
    rw [meets_bind, meets_modify, meets_pure]
    have hend : Alike e { e with failed, state := .unsatisfiable, pending := none } := .of_eq rfl rfl rfl rfl rfl
    have hsound' := (he.toAlike.trans hend).sound hsound (he.marks.trans hsound.marks.symm)
    have hlevel' := he.level.trans hlevel
    exact ⟨rfl, ⟨hf, ⟨part, hpart, hzero _ hsound' hlevel'⟩, hlevel', he.head.trans (hd.head.trans he.size.symm),
      he.units.trans hunits⟩, rfl⟩

/-- **Asserting a literal without a value keeps what is known where there is no model.** -/
theorem meets_assertPending_barren (h : Barren f c) (ho : Overtaken f c) (hs : c.state = .unsatisfiable)
    (hl : c.atAssertionLevel = true) (hfree : c.Assertable) :
    Meets assertPending c (fun _ d => d.state = .unsatisfiable ∧ Barren f d ∧ d.pending = none) (fun _ => False) := by
  unfold assertPending
  rw [meets_bind, meets_get]
  cases hp : c.pending with
  | none => simp [atAssertionLevel, hp] at hl
  | some p =>
    have hz := (level_eq_of_atAssertionLevel hl hp).trans h.level
    obtain ⟨first, hclause, he, hknown⟩ := ho.unit p hp hz
    have hv := hfree p hp first (by rw [hclause]; rfl)
    have hbarren : Barren f { c with pending := none } := h.alike (.of_eq rfl rfl rfl rfl rfl) rfl rfl
    dsimp only
    show Meets (modify _ >>= fun _ => learn p.clause >>= fun _ => propagateDecision) _ _ _
    rw [meets_bind, meets_modify, meets_bind, hclause]
    unfold learn
    rw [meets_bind]
    refine meets_assign fun d hpush hu hl => ?_
    have hlevel : d.trail.level = 0 := by rw [hpush.trail, Trail.level_push, h.level]
    rw [meets_bind]
    refine (gives_onAtoms AtomTable.Call.gives_setLevel).meets ?_
    rw [meets_modify, hlevel, if_neg (Nat.lt_irrefl 0)]
    rw [show ({ c with pending := none } : Context).trail.level = 0 from h.level] at hpush
    have hpush' := hpush.setLevel hl fun u hu => hu
    exact meets_propagateDecision_barren h.unsatisfiable (hbarren.push he hv hknown hpush' hu) hlevel
      (hu.trans h.units) ((state_eq_of_course hpush.course).trans hs) (pending_eq_of_course hpush.course)

end Solver

namespace Session

open Run Context Solver

variable {s t : Session} {d : Context} {l : Literal} {k : Call}

/-- What holds of a session, and of the clause that waits there even if it is outdated. -/
structure Owing (s : Session) : Prop extends Held (· = 0) s where
  owed : s.context.Waiting s.formula ∨ s.context.Overtaken s.formula

theorem Owing.of_waiting (h : Held (· = 0) s) (hw : s.context.Waiting s.formula) : Owing s := ⟨h, .inl hw⟩

/-- What leaves the trail and the clause that waits as they are leaves what is owed. -/
theorem Owing.still (h : Owing s) (hd : Held (· = 0) (s.goTo d)) (ht : d.trail = s.context.trail)
    (hcourse : d.course = s.context.course) (hcount : s.context.atoms.count ≤ d.atoms.count) : Owing (s.goTo d) := by
  refine ⟨hd, h.owed.imp (fun hw => ?_) fun ho => ?_⟩
  · exact hw.still (pending_eq_of_course hcourse) (fun hs => state_eq_of_course hcourse ▸ hs) hcount ht
  · exact ho.carry (fun _ => id) (pending_eq_of_course hcourse) hcount (ht ▸ ho.level)

theorem Owing.trimmed (h : Owing s) (hd : Held (· = 0) (s.goTo d)) (ht : Trimmed s.context d) : Owing (s.goTo d) :=
  h.still hd ht.trail ht.course (Nat.le_of_eq (congrArg AtomTable.count ht.atoms.symm))

theorem Owing.freshAtom (h : Owing s) :
    Meets freshAtom s.context (fun _ d => Owing (s.goTo d)) fun d => Owing (s.goTo d) := by
  obtain ⟨g, _, hs, -⟩ := h.exists_sound
  refine (h.toHeld.freshAtom.and ((meets_freshAtom hs).and meets_freshAtom_course)).mono
    (fun _ d ⟨hd, ⟨_, hw⟩, hcourse⟩ => ?_) fun d ⟨hd, ⟨ha, _, ht⟩, hcourse⟩ => ?_
  · exact h.still hd hw.trail hcourse (hw.count ▸ Nat.le_succ _)
  · exact h.still hd ht hcourse (Nat.le_of_eq ha.count.symm)

/-- **A clause accepted at level zero overtakes the clause that waits**, unless it says nothing new. -/
theorem Owing.addClause (h : Owing s) (clause : Clause) :
    Meets (addClause clause) s.context (fun outcome d => Owing (s.accept clause outcome d))
      fun d => Owing (s.goTo d) := by
  have hf : ∀ v, (s.formula ++ [clause]).Holds v → s.formula.Holds v := fun v hv => (Formula.holds_append.1 hv).1
  refine ((h.toHeld.addClause rfl clause).and (meets_addClause h.toResting rfl)).mono
    (fun outcome d ⟨hheld, hd⟩ => ⟨hheld, ?_⟩) fun d ⟨hheld, _, ht, ha, hp, hstate, _⟩ => ⟨hheld, ?_⟩
  · by_cases hnew : outcome = .added ∨ outcome = .unsatisfiable
    · have hlevel : d.trail.level = 0 :=
        hnew.elim (fun he => (hd.added he).1) fun he => (hd.resting.barren (hd.unsatisfiable he)).level
      have hcount := Nat.le_of_eq hd.count.symm
      exact .inr (h.owed.elim (fun hw => hw.overtaken hf hd.pending hcount hlevel)
        fun ho => ho.carry hf hd.pending hcount hlevel)
    · rw [not_or] at hnew
      rw [hd.same hnew.1 hnew.2]
      refine h.owed.imp (fun hw => ?_) fun ho => ho.carry hf rfl (Nat.le_refl _) ho.level
      exact hw.carry hf rfl id (Nat.le_refl _) (Nat.le_refl _) fun _ _ => rfl
  · have hcount := Nat.le_of_eq (congrArg AtomTable.count ha.symm)
    exact h.owed.imp (fun hw => hw.still hp hstate hcount ht) fun ho =>
      ho.carry (fun _ => id) hp hcount (ht ▸ ho.level)

theorem owing_building : Building Owing := ⟨fun _ h => h.freshAtom, fun clause _ h => h.addClause clause⟩

theorem Owing.simplify (h : Owing s) :
    Meets simplify s.context (fun _ d => Owing (s.goTo d)) fun d => Owing (s.goTo d) := by
  by_cases hl : s.context.trail.level = 0 ∧ s.context.state ≠ .unsatisfiable
  · exact (meets_simplify ((h.quiet hl.2).rooted rfl hl.1)).mono
      (fun _ d ⟨hd, ht⟩ => h.trimmed (h.sameTrail hl.2 hd ht) ht) fun d ⟨hd, ht⟩ => h.trimmed (h.sameTrail hl.2 hd ht) ht
  · unfold Solver.simplify
    rw [meets_bind, meets_get, meets_ite]
    refine ⟨fun _ => h, fun hz => ?_⟩
    rw [meets_ite]
    exact ⟨fun _ => h, fun hs => absurd ⟨Nat.eq_zero_of_not_pos hz, hs⟩ hl⟩

theorem Owing.reduce (h : Owing s) : Meets reduce s.context (fun _ d => Owing (s.goTo d)) fun d => Owing (s.goTo d) := by
  obtain ⟨g, _, hs, -⟩ := h.exists_sound
  exact (h.toHeld.reduce.and (meets_reduce hs)).mono (fun _ d ⟨hheld, _, ht⟩ => h.trimmed hheld ht)
    fun d ⟨hheld, _, ht⟩ => h.trimmed hheld ht

theorem Owing.undo (h : Owing s) : Meets (undo l) s.context (fun _ d => Owing (s.goTo d)) fun d => Owing (s.goTo d) := by
  refine ((h.toHeld.undo l).and ((meets_undo h.toResting).and meets_undo_course)).mono
    (fun _ d ⟨hheld, ⟨hd, hw, hlt, hcount⟩, hcourse⟩ => ⟨hheld, h.owed.imp hw fun ho => ?_⟩) fun _ hd => hd.2.1.elim
  refine ho.carry (fun _ => id) (pending_eq_of_course hcourse) (Nat.le_of_eq hcount.symm) ?_
  by_cases hs : d.state = .unsatisfiable
  · exact (hd.barren hs).level
  · exact absurd (ho.level ▸ hlt hs) (Nat.not_lt_zero _)

/-- **Every call leaves what is owed of a clause that waits**, outdated or not. -/
theorem Owing.call (h : Owing s) (ht : s.call k = some t) : Owing t := by
  have hheld : Held (· = 0) t := h.toHeld.next ht
  have hsolved : ∀ fuel assumptions, Meets (Solver.solveGiven fuel assumptions) s.context
      (fun _ d => d.Waiting s.formula) fun d => d.Waiting s.formula := fun _ _ =>
    (meets_solveGiven h.toResting rfl).mono (fun _ _ hd => .of_none hd.pending) fun _ hd => .of_none hd.2.1
  have hbranch : ∀ {d}, Idle s.formula (d.clear (· = 0)) d ∨ d = s.context ∧ s.context.Finished →
      d.Waiting s.formula ∨ d.Overtaken s.formula := fun hd =>
    hd.elim (fun hd => .inl hd.waiting) fun hd => hd.1 ▸ h.owed
  refine ⟨hheld, ?_⟩
  unfold Session.call at ht
  cases k with
  | freshAtom => exact (meets_after h.freshAtom ht).owed
  | addClause clause => exact (meets_after (h.addClause clause) ht).owed
  | readDimacs lines =>
    exact (meets_after ((owing_building.readAll h lines).mono (fun _ _ => And.left) fun _ => And.left) ht).owed
  | solve fuel => exact .inl (meets_after (P := fun t => t.context.Waiting t.formula) (hsolved fuel []) ht)
  | solveGiven fuel assumptions =>
    exact .inl (meets_after (P := fun t => t.context.Waiting t.formula) (hsolved fuel assumptions)
      (Option.ite_none_right_eq_some.1 ht).2)
  | simplify => exact (meets_after h.simplify ht).owed
  | reduce => exact (meets_after h.reduce ht).owed
  | decide l =>
    exact meets_after (P := fun t => t.context.Waiting t.formula ∨ t.context.Overtaken t.formula)
      ((meets_decide h.toResting gapless_zero).mono (fun _ _ hd => hbranch (hd.1.imp_left Halted.toIdle))
        fun _ => False.elim) ht
  | undo l => exact (meets_after h.undo ht).owed
  | assertHere =>
    dsimp only at ht
    split at ht
    · cases ht
    · rename_i ho
      exact .inl (meets_after (P := fun t => t.context.Waiting t.formula)
        ((meets_assertHere (h.toHeld.idle (by simpa using ho))).mono (fun _ _ hd => hd.waiting) fun _ hd => hd.waiting) ht)
  | countModels =>
    refine meets_after (P := fun t => t.context.Waiting t.formula ∨ t.context.Overtaken t.formula) ?_ ht
    unfold countModels
    rw [meets_bind, meets_get]
    exact (meets_countModelsFor gapless_zero _ _ h.toResting).mono (fun _ _ hd => hbranch (hd.imp_left Idle.clear))
      fun _ hd => .inl hd.waiting
  | findModel fuel =>
    exact meets_after (P := fun t => t.context.Waiting t.formula ∨ t.context.Overtaken t.formula)
      ((meets_findModel gapless_zero fuel _ h.toResting).mono (fun _ _ hd => hbranch (hd.imp_left Halted.toIdle))
        fun _ hd => .inl hd.waiting) ht

/-- **A clause may be asserted while its literal has no value**, overtaken or not. -/
theorem Owing.assert (h : Owing s) (hfree : s.context.Assertable) :
    Meets assertHere s.context (fun _ d => Owing (s.forget d)) fun d => Owing (s.forget d) := by
  by_cases hl : s.context.atAssertionLevel = true
  case neg =>
    unfold assertHere
    rw [meets_bind, meets_get, meets_ite]
    exact ⟨fun he => absurd he hl, fun _ => trivial⟩
  have hwaiting : s.context.Waiting s.formula → Meets assertHere s.context (fun _ d => Owing (s.forget d))
      fun d => Owing (s.forget d) := fun hw =>
    (meets_assertHere ⟨h.toResting, hw⟩).mono (fun _ d hd => .of_waiting ⟨hd.zero.toResting, fun _ => hd.waiting⟩ hd.waiting)
      fun d hd => .of_waiting ⟨hd.toResting, fun _ => hd.waiting⟩ hd.waiting
  refine h.owed.elim hwaiting fun ho => ?_
  by_cases hs : s.context.state = .unsatisfiable
  · unfold assertHere
    rw [meets_bind, meets_get, if_pos hl]
    exact (meets_assertPending_barren (h.barren hs) ho hs hl hfree).mono
      (fun _ d ⟨hstate, hd, hp⟩ => .of_waiting ⟨.of_barren hd hstate, fun _ => .of_none hp⟩ (.of_none hp)) fun _ => False.elim
  · exact hwaiting (ho.waiting h.toResting hs hl hfree)

theorem Held.equip {settled : Nat → Prop} (h : Held settled s) (options : Options) (listeners : Listeners) :
    Held settled (s.goTo { s.context with options, listeners }) := by
  have halike : Alike s.context { s.context with options, listeners } := .of_eq rfl rfl rfl rfl rfl
  refine ⟨?_, fun ho => (h.waiting ho).still rfl id (Nat.le_refl _) rfl⟩
  exact ⟨fun hs => (h.barren hs).alike halike rfl rfl, fun hs => (h.quiet hs).alike halike rfl rfl⟩

theorem Owing.equip (h : Owing s) (options : Options) (listeners : Listeners) :
    Owing (s.goTo { s.context with options, listeners }) :=
  h.still (h.toHeld.equip options listeners) rfl rfl (Nat.le_refl _)

/-- A session that a run of calls leads to, with options that may change between the calls.  A clause may have been overtaken
when it was asserted, if only its first literal had no value. -/
inductive Orderly : Session → Prop
  | start (options : Options) (random : Chance) : Orderly (start options random)
  | configure {s : Session} (h : Orderly s) (options : Options) : Orderly (s.goTo { s.context with options })
  | call {s t : Session} {k : Call} (h : Orderly s) (ht : s.call k = some t) : Orderly t
  | assert {s t : Session} (h : Orderly s) (hfree : s.context.Assertable)
    (ht : s.after Solver.assertHere (fun _ => s.forget) = some t) : Orderly t

/-- **Every orderly run leaves what is owed of a clause that waits.** -/
theorem Orderly.owing (h : Orderly s) : Owing s := by
  induction h with
  | start options random => exact .of_waiting (held_start options random) (.of_none rfl)
  | configure _ options ih => exact ih.equip options _
  | call _ ht ih => exact ih.call ht
  | assert _ hfree ht ih => exact meets_after (ih.assert hfree) ht

theorem Orderly.held (h : Orderly s) : Held (· = 0) s := h.owing.toHeld

theorem Orderly.run : ∀ (calls : List Call) {s t : Session}, Orderly s → s.run calls = some t → Orderly t
  | [], _, _, h, ht => by
    cases ht
    exact h
  | _ :: rest, _, _, h, ht => by
    obtain ⟨u, hu, ht⟩ := Option.bind_eq_some_iff.1 ht
    exact Orderly.run rest (h.call hu) ht

theorem Reachable.orderly (h : s.Reachable) : Orderly s :=
  have ⟨options, random, calls, hs⟩ := h
  Orderly.run calls (.start options random) hs

end Session
end Cdcl
