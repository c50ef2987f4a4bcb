import Cdcl.Proofs.Solve
import Cdcl.Solver.Exhaustive
/-!
# Branching — decisions from outside keep what holds between calls

A decision or an assertion that leads to a conflict leaves a clause that was learnt from it, and the clause may be
learnt where it asserts, for as long as the levels up to there stand (`Waiting`).  A decision forgets the clause that
waited before, so what holds after it does not depend on that clause.

A conflict stops propagation, so the level it was found at is not settled then.  What was settled below stays so, and the
levels opened above are undone by the searches that opened them (`clear`, `meets_undo_clear`).
-/
namespace Cdcl
namespace Context

/-- The clause that waits, if there is one, may be learnt where it asserts. -/
def Waiting (f : Formula) (c : Context) : Prop :=
  ∀ p, c.pending = some p → c.state ≠ .unsatisfiable ∧ ∃ first rest, Awaited f c p first rest

/-- What holds of a context between calls, and of the clause that waits. -/
structure Idle (f : Formula) (settled : Nat → Prop) (c : Context) : Prop extends Resting f settled c where
  waiting : Waiting f c

/-- The levels that were settled, but for the current one if a conflict was found there. -/
def clear (c : Context) (settled : Nat → Prop) : Nat → Prop :=
  fun k => settled k ∧ ¬(k = c.trail.level ∧ 0 < k ∧ c.Clashing)

/-- A decision or an assertion is yet to be propagated. -/
structure Due (f : Formula) (settled : Nat → Prop) (c : Context) : Prop extends Sound f settled c where
  current : settled c.trail.level → c.Current c.trail.head
  fresh : 0 < c.trail.level → c.Fresh
  units : c.pendingUnits = #[]
  anchored : c.Anchored 0

/-- There is no way on: it is known that there is no model, or a clause waits for a level below. -/
def Thwarted (c : Context) : Prop :=
  (c.trail.level = 0 ∧ c.state = .unsatisfiable) ∨ ∃ p, c.pending = some p ∧ p.level < c.trail.level

/-- Where a decision or an assertion has led: the level it ended at is settled, or there is no way on. -/
structure Halted (f : Formula) (settled : Nat → Prop) (c : Context) : Prop extends Idle f (c.clear settled) c where
  settles : c.Thwarted ∨ Idle f settled c

/-- A search made of decisions has nothing to decide here. -/
def Finished (c : Context) : Prop := c.isUnsatisfiable = true ∨ c.atoms.firstFree? = none

instance (c : Context) : Decidable c.Finished := inferInstanceAs (Decidable (_ ∨ _))

theorem not_finished {c : Context} {a : Nat} (hu : ¬c.isUnsatisfiable = true) (h : c.atoms.firstFree? = some a) :
    ¬Finished c := fun hf => hf.elim hu fun hnone => by
  rw [h] at hnone
  cases hnone

variable {f : Formula} {settled other : Nat → Prop} {c d : Context} {l first : Literal} {rest : Clause}

theorem Waiting.of_none (h : c.pending = none) : Waiting f c := fun p hp => by
  rw [h] at hp
  cases hp

theorem Waiting.carry {g : Formula} (h : Waiting f c) (hfg : ∀ v, g.Holds v → f.Holds v) (hp : d.pending = c.pending)
    (hs : c.state ≠ .unsatisfiable → d.state ≠ .unsatisfiable) (hcount : c.atoms.count ≤ d.atoms.count)
    (hlevel : d.trail.level ≤ c.trail.level) (hupTo : ∀ k ≤ d.trail.level, d.trail.upTo k = c.trail.upTo k) : Waiting g d := fun p he =>
  have ⟨hstate, first, rest, ha⟩ := h p (hp ▸ he)
  ⟨hs hstate, first, rest, ha.carry hfg hcount hlevel hupTo⟩

theorem Waiting.still (h : Waiting f c) (hp : d.pending = c.pending)
    (hs : c.state ≠ .unsatisfiable → d.state ≠ .unsatisfiable) (hcount : c.atoms.count ≤ d.atoms.count) (ht : d.trail = c.trail) : Waiting f d :=
  h.carry (fun _ => id) hp hs hcount (Nat.le_of_eq (congrArg Trail.level ht)) fun k _ => by rw [ht]

theorem Idle.weaken (h : Idle f settled c) (hw : ∀ k ≤ c.trail.level, other k → settled k) : Idle f other c :=
  ⟨h.toResting.weaken hw, h.waiting⟩

theorem clear_zero (c : Context) (hz : settled 0) : c.clear settled 0 := ⟨hz, fun h => absurd h.2.1 (Nat.lt_irrefl 0)⟩

theorem Idle.clear (h : Idle f settled c) : Idle f (c.clear settled) c := h.weaken fun _ _ hk => hk.1

theorem Idle.halted (h : Idle f settled c) : Halted f settled c := ⟨h.clear, .inr h⟩

theorem Idle.zero (h : Idle f (c.clear (· = 0)) c) : Idle f (· = 0) c := h.weaken fun k _ hk => by
  subst hk
  exact clear_zero _ rfl

theorem Resting.below (h : Resting f (d.clear settled) c) (hlt : c.trail.level < d.trail.level) : Resting f settled c :=
  h.weaken fun k hk hs => ⟨hs, fun hc => by omega⟩

/-- **A conflict names a live clause, which is false.** -/
theorem Refuted.exists_named {conflict : Conflict} (h : Refuted f c conflict) (hb : c.Blames l conflict)
    (ht : Trailed f c) : ∃ clause, c.Names conflict clause ∧ ∀ m ∈ clause, c.atoms.isFalse m = true := by
  cases conflict with
  | binary a b =>
    refine ⟨[a, b], .binary (Array.mem_toList_iff.1 hb.1), fun m hm => ht.isFalse_iff_mem.2 ?_⟩
    rcases List.mem_cons.1 hm with rfl | hm
    · exact h.2.1
    · rw [List.mem_singleton.1 hm]
      exact h.2.2
  | long key =>
    obtain ⟨ls, hk, hfalse⟩ := h
    obtain ⟨stored, hfind, rfl⟩ := ClauseStore.literals?_eq_some_iff.1 hk
    exact ⟨_, .long hfind, fun m hm => ht.isFalse_iff_mem.2 (hfalse m hm)⟩

theorem Refuted.clashing {conflict : Conflict} (h : Refuted f c conflict) (hb : c.Blames l conflict) (ht : Trailed f c) :
    c.Clashing :=
  have ⟨clause, hn, hfalse⟩ := h.exists_named hb ht
  ⟨clause, hn.live, hfalse⟩

theorem Rested.quiet (hr : Rested c d) (h : Sound f settled c) (hh : c.trail.head = c.trail.size)
    (hu : c.pendingUnits = #[]) (ha : c.Anchored 0) : Quiet f (fun k => settled k ∧ k ≠ d.trail.level) d where
  units := hr.units.trans hu
  toSound := (hr.toAlike.sound h (hr.marks.trans h.marks.symm)).weaken fun _ hk _ => hk.1
  head := by rw [hr.head, hr.size, hh]
  current hk := absurd rfl hk.2
  anchored := hr.toAlike.anchored h.trailed ha

theorem Quiet.clear (h : Quiet f (fun k => settled k ∧ k ≠ c.trail.level) c) (hl : 0 < c.trail.level) (hc : c.Clashing) :
    Quiet f (c.clear settled) c := h.weaken fun _ _ hk => ⟨hk.1, fun he => hk.2 ⟨he, he ▸ hl, hc⟩⟩

theorem Due.anchored_after {r : Propagated} (h : Due f settled c) (hd : Propagates f settled c r d) : d.Anchored 0 := by
  rcases Nat.eq_zero_or_pos c.trail.level with hz | hpos
  · exact .of_level_le hd.sound.trailed (Nat.le_of_eq (hd.extended.trail_level.trans hz))
  · exact hd.anchored h.trailed h.anchored (h.fresh hpos)

/-- Where everything was propagated without a conflict, the context is at rest again, and no clause waits. -/
theorem Due.complete (h : Due f settled c) (hp : c.pending = none) (hs : c.state ≠ .unsatisfiable)
    (hd : Propagates f settled c .complete d) : Idle f settled d := by
  have hcourse := hd.extended.course
  exact ⟨.of_quiet ⟨hd.sound, hd.head, hd.units.trans h.units, hd.verdict, h.anchored_after hd⟩
    (state_eq_of_course hcourse ▸ hs), .of_none ((pending_eq_of_course hcourse).trans hp)⟩

theorem Trimmed.quiet (ht : Trimmed c d) (h : Quiet f settled c) (hs : Sound f settled d) : Quiet f settled d where
  units := ht.units.trans h.units
  toSound := hs
  head := by rw [ht.trail, h.head]
  current hl := by
    rw [ht.trail] at hl ⊢
    exact ht.current (h.current hl)
  anchored := ht.anchored h.trailed hs.trailed h.anchored

end Context

namespace Solver

open Run Context

variable {f : Formula} {settled : Nat → Prop} {c d : Context} {l : Literal}

/-! ## Deciding and asserting -/

/-- An answer tells how propagation ended. -/
def Replied (f : Formula) (settled : Nat → Prop) (c : Context) (answer : Bool) (d : Context) : Prop :=
  ∃ result e, propagate c = .ok result e ∧ Propagates f settled c result e ∧ Alike e d ∧ d.trail = e.trail ∧
    (answer = true ↔ result = .complete)

/-- What follows from a decision or an assertion has been propagated. -/
structure Resumed (f : Formula) (settled : Nat → Prop) (c : Context) (answer : Bool) (d : Context) : Prop where
  idle : Idle f (d.clear settled) d
  settles : answer = true → Idle f settled d
  state : answer = true → d.state = c.state
  thwarted : answer = false → d.Thwarted
  replied : Replied f settled c answer d

theorem Resumed.halted {answer : Bool} (h : Resumed f settled c answer d) : Halted f settled d := by
  cases answer with
  | false => exact ⟨h.idle, .inl (h.thwarted rfl)⟩
  | true => exact (h.settles rfl).halted

/-- A conflict above level zero leaves a clause that may be learnt. -/
theorem answers_analyzePending {conflict : Conflict} (h : Due f settled c) (hs : c.state ≠ .unsatisfiable)
    (hpos : 0 < c.trail.level) (hd : Propagates f settled c (.conflict conflict) d) (counters : Counters) :
    Answers (do
      let learnt ← analyzeConflict conflict
      modify ({ · with pending := some learnt })) { d with counters } fun _ e =>
        Idle f (e.clear settled) e ∧ e.Thwarted ∧ Alike d e ∧ e.trail = d.trail := by
  have halike : Alike d { d with counters } := .of_eq rfl rfl rfl rfl rfl
  have hlevel : 0 < d.trail.level := hd.extended.trail_level ▸ hpos
  have hsound := halike.sound hd.sound rfl
  have hr : Refuted f _ conflict := Refuted.alike hd.verdict halike
  have hhere := (hd.here h.trailed.layered (h.fresh hpos)).alike halike
  obtain ⟨blamed, hblamed, -⟩ := id hhere
  rw [answers_bind]
  refine (answers_analyzeConflict hsound.toBase hsound.marks hr hhere hlevel).mono
    fun learnt e ⟨he, first, rest, hl⟩ => ?_
  rw [answers_modify]
  have hwait : Alike e { e with pending := some learnt } := .of_eq rfl rfl rfl rfl rfl
  have hstate : e.state ≠ .unsatisfiable := by
    rw [state_eq_of_course he.course]
    exact state_eq_of_course hd.extended.course ▸ hs
  have hanchored := halike.anchored hd.sound.trailed (h.anchored_after hd)
  have hquiet := (he.quiet hsound hd.head (hd.units.trans h.units) hanchored).alike hwait rfl rfl
  have hclash := (he.toAlike.trans hwait).clashing (hr.clashing hblamed hsound.trailed)
  refine ⟨⟨.of_quiet (hquiet.clear (he.level ▸ hlevel) hclash) hstate, fun p hp => ?_⟩, .inr ⟨learnt, rfl, ?_⟩,
    (halike.trans he.toAlike).trans hwait, he.trail⟩
  · cases hp
    exact ⟨hstate, first, rest, (hl.alike (he.toAlike.trans hwait)).awaited hquiet.trailed⟩
  · exact he.level ▸ hl.below

/-- A conflict at level zero shows that there is no model. -/
theorem answers_refutePending {conflict : Conflict} (h : Due f settled c) (hz : c.trail.level = 0)
    (hd : Propagates f settled c (.conflict conflict) d) (counters : Counters) :
    Answers (do
      let failed ← failedByConflict conflict
      modify fun c => { c with failed, state := .unsatisfiable, pending := none }) { d with counters } fun _ e =>
        Idle f (e.clear settled) e ∧ e.Thwarted ∧ Alike d e ∧ e.trail = d.trail := by
  have halike : Alike d { d with counters } := .of_eq rfl rfl rfl rfl rfl
  have hlevel : d.trail.level = 0 := hd.extended.trail_level.trans hz
  have hsound := halike.sound hd.sound rfl
  have hr : Refuted f _ conflict := Refuted.alike hd.verdict halike
  rw [answers_bind]
  refine (answers_failedByConflict hsound.toBase hsound.marks hr).mono fun failed e ⟨he, _⟩ => ?_
  rw [answers_modify]
  have hend : Alike e { e with failed, state := .unsatisfiable, pending := none } := .of_eq rfl rfl rfl rfl rfl
  have hsound' := (he.toAlike.trans hend).sound hsound (he.marks.trans hsound.marks.symm)
  have hbarren := hsound'.barren (hr.unsatisfiable hsound.trailed hsound.denotes hlevel) (he.level.trans hlevel)
    (he.head.trans (hd.head.trans he.size.symm)) (he.units.trans (hd.units.trans h.units))
  exact ⟨⟨.of_barren hbarren rfl, .of_none rfl⟩, .inl ⟨he.level.trans hlevel, rfl⟩,
    (halike.trans he.toAlike).trans hend, he.trail⟩

/-- **Propagating after a decision or an assertion answers**, and keeps what holds between calls.  A conflict leaves a clause
that may be learnt, or shows that there is no model. -/
theorem answers_propagateDecision (h : Due f settled c) (hp : c.pending = none) (hs : c.state ≠ .unsatisfiable) :
    Answers propagateDecision c (Resumed f settled c) := by
  obtain ⟨result, d, hran, hd⟩ := answers_propagate h.toSound h.current
  unfold propagateDecision
  rw [answers_bind]
  refine ⟨result, d, hran, ?_⟩
  cases result with
  | corrupt => exact hd.verdict.elim
  | complete =>
    have hidle := h.complete hp hs hd
    exact answers_pure.2 ⟨hidle.clear, fun _ => hidle, fun _ => state_eq_of_course hd.extended.course, nofun, _, d, hran, hd,
      .refl d, rfl, by simp⟩
  | conflict conflict =>
    have hlevel : d.trail.level = c.trail.level := hd.extended.trail_level
    have hend : ∀ e, Idle f (e.clear settled) e ∧ e.Thwarted ∧ Alike d e ∧ e.trail = d.trail →
        Resumed f settled c false e := fun e ⟨hidle, hthwarted, ha, ht⟩ =>
      ⟨hidle, nofun, nofun, fun _ => hthwarted, _, d, hran, hd, ha, ht, by simp⟩
    show Answers (count _ >>= _) _ _
    rw [answers_bind, answers_count, answers_bind, answers_get, answers_ite]
    refine ⟨fun hz => ?_, fun hne => ?_⟩
    · have h' := answers_refutePending h (hlevel.symm.trans hz) hd { d.counters with conflicts := d.counters.conflicts + 1 }
      rw [answers_bind] at h' ⊢
      refine h'.mono fun failed e he => ?_
      rw [answers_modify] at he
      rw [answers_bind, answers_modify, answers_pure]
      exact hend _ he
    · have h' := answers_analyzePending h hs (hlevel ▸ Nat.pos_of_ne_zero hne) hd
        { d.counters with conflicts := d.counters.conflicts + 1 }
      rw [answers_bind] at h' ⊢
      refine h'.mono fun learnt e he => ?_
      rw [answers_modify] at he
      rw [answers_bind, answers_modify, answers_pure]
      exact hend _ he

theorem answers_decideFree (h : Quiet f settled c) (hg : Gapless settled) (hl : l.atom < c.atoms.count)
    (hv : c.atoms.value l.atom = none) :
    Answers (do
      modify ({ · with pending := none })
      decideLiteral l) c fun _ d =>
        Due f settled d ∧ d.pending = none ∧ d.state = c.state ∧ Opened { c with pending := none } l d := by
  have halike : Alike c { c with pending := none } := .of_eq rfl rfl rfl rfl rfl
  have hquiet := h.alike halike rfl rfl
  rw [answers_bind, answers_modify]
  refine (answers_decideLiteral hquiet.toSound hquiet.current ((Unmoved.refl _).chosen hquiet.stocked hl hv)).mono
    fun _ d ⟨hd, ho⟩ => ⟨⟨hd, fun hk => ?_, fun _ => ?_, ho.units.trans h.units, ?_⟩, pending_eq_of_course ho.course,
      congrArg Course.state ho.course, ho⟩
  · rw [ho.level] at hk
    rw [show d.trail.head = c.trail.size from ho.head.trans h.head]
    exact ho.current (hquiet.current (hg.below _ hk))
  · exact .snoc ho.literals (ho.head.trans h.head) ho.first
  · exact ho.anchored hquiet.trailed hd.trailed hquiet.anchored

/-- A literal was decided, and what follows from it propagated. -/
def Decided (f : Formula) (settled : Nat → Prop) (c : Context) (l : Literal) (answer : Bool) (d : Context) : Prop :=
  ∃ e, (do
      modify ({ · with pending := none })
      decideLiteral l : Solver Unit) c = .ok () e ∧ Opened { c with pending := none } l e ∧ Resumed f settled e answer d

theorem answers_decideAndPropagate (h : Quiet f settled c) (hg : Gapless settled) (hs : c.state ≠ .unsatisfiable)
    (hl : l.atom < c.atoms.count) (hv : c.atoms.value l.atom = none) :
    Answers (do
      modify ({ · with pending := none })
      decideLiteral l
      propagateDecision) c (Decided f settled c l) := by
  show Answers (modify _ >>= fun _ => decideLiteral l >>= fun _ => propagateDecision) _ _
  obtain ⟨_, e, hrun, hd, hp, hstate, ho⟩ := answers_decideFree h hg hl hv
  rw [← bind_assoc, answers_bind]
  refine ⟨(), e, hrun, ?_⟩
  exact (answers_propagateDecision hd hp (hstate ▸ hs)).mono fun _ _ hr => ⟨e, hrun, ho, hr⟩

/-- **A literal of a known atom without a value may be decided**, unless it is known that there is no model. -/
theorem answers_decide (h : Quiet f settled c) (hg : Gapless settled) (hs : c.state ≠ .unsatisfiable)
    (hl : l.atom < c.atoms.count) (hv : c.atoms.value l.atom = none) :
    Answers (decide l) c (Decided f settled c l) := by
  unfold decide
  rw [answers_bind, answers_get, answers_ite]
  refine ⟨fun he => absurd he hs, fun _ => ?_⟩
  have hr := Array.getElem?_eq_getElem hl
  rw [answers_bind, answers_record]
  refine ⟨_, hr, ?_⟩
  rw [answers_ite, ← AtomTable.value_of_record hr, hv]
  exact ⟨fun hsome => absurd hsome Bool.false_ne_true, fun _ => answers_decideAndPropagate h hg hs hl hv⟩

/-- **A decision keeps what holds between calls**, and forgets the clause that waited. -/
theorem meets_decide (h : Resting f settled c) (hg : Gapless settled) :
    Meets (decide l) c (fun answer d => (Halted f settled d ∨ d = c ∧ Finished c) ∧
      (answer = true → Idle f settled d)) (fun _ => False) := by
  unfold decide
  rw [meets_bind, meets_get, meets_ite]
  constructor
  · intro hs
    exact ⟨.inr ⟨rfl, .inl (by unfold isUnsatisfiable; rw [hs]; rfl)⟩, nofun⟩
  intro hs
  rw [meets_bind, meets_record]
  intro r hr
  rw [meets_ite]
  refine ⟨fun _ => trivial, fun hnone => ?_⟩
  have hv : c.atoms.value l.atom = none := (AtomTable.value_of_record hr).trans (Option.not_isSome_iff_eq_none.1 hnone)
  exact (answers_decideAndPropagate (h.quiet hs) hg hs (Array.getElem?_eq_some_iff.1 hr).1 hv).meets.mono
    (fun _ _ ⟨_, _, _, hd⟩ => ⟨.inl hd.halted, hd.settles⟩) fun _ => id

/-- The clause that waited has been learnt, and its first literal has come to the trail. -/
structure Asserted (f : Formula) (settled : Nat → Prop) (c d : Context) : Prop extends Due f settled d where
  pending : d.pending = none
  state : d.state = c.state
  extended : Extends { c with pending := none } d
  size : c.trail.size < d.trail.size

theorem meets_learnPending {p : LearntClause} (h : Idle f settled c) (hl : c.atAssertionLevel = true)
    (hp : c.pending = some p) :
    Meets (do
      modify ({ · with pending := none })
      learn p.clause) c
      (fun _ d => Asserted f settled c d)
      (fun d => Quiet f settled d ∧ d.pending = none ∧ d.state = c.state) := by
  obtain ⟨hs, first, rest, ha⟩ := h.waiting p hp
  have hlevel : p.level = c.trail.level := by
    unfold atAssertionLevel at hl
    rw [hp] at hl
    exact beq_iff_eq.1 hl
  have halike : Alike c { c with pending := none } := .of_eq rfl rfl rfl rfl rfl
  have hquiet := (h.quiet hs).alike halike rfl rfl
  have hawaited : Awaited f { c with pending := none } p first rest :=
    ha.carry (fun _ => id) (Nat.le_refl _) (Nat.le_refl _) fun _ _ => rfl
  -- a unit is asserted at level zero
  have hlong : 0 < c.trail.level → rest ≠ [] := fun hpos hnil => by
    rw [← hlevel, ha.unit.1 hnil] at hpos
    exact absurd hpos (Nat.lt_irrefl 0)
  rw [meets_bind, meets_modify, ha.clause]
  have hasserting : Asserting f settled { c with pending := none } first rest :=
    hawaited.asserting hquiet.trailed hlevel
  refine (meets_learn hquiet.toSound hasserting).mono (fun _ d hd =>
    ⟨⟨hd.sound, fun hz => ?_, fun hpos => ?_, ?_, hd.anchored hasserting
      (hawaited.second_level hquiet.trailed hquiet.units hlevel) hquiet.trailed hquiet.anchored⟩,
    pending_eq_of_course hd.extended.course, congrArg Course.state hd.extended.course, hd.extended, ?_⟩) fun d ⟨hd, ht⟩ =>
    ⟨ht.quiet hquiet hd, pending_eq_of_course ht.course, congrArg Course.state ht.course⟩
  · rw [hd.extended.trail_level] at hz
    rw [hd.head, hquiet.head]
    exact hd.current (hquiet.current hz)
  · rw [hd.extended.trail_level] at hpos
    exact hd.fresh hquiet.trailed.layered hquiet.head (hlong hpos)
  · rcases hd.units with hsame | ⟨hnil, hpos, -⟩
    · exact hsame.trans hquiet.units
    · exact absurd hnil (hlong hpos)
  · show c.trail.literals.size < d.trail.literals.size
    rw [← Array.length_toList, ← Array.length_toList, hd.literals, List.length_append]
    exact Nat.lt_succ_self _

/-- **The clause that waits may be asserted** where it asserts. -/
theorem meets_assertPending (h : Idle f settled c) (hl : c.atAssertionLevel = true) :
    Meets assertPending c (fun answer d => ∃ e, Asserted f settled c e ∧ Resumed f settled e answer d)
      (fun d => Idle f settled d ∧ d.pending = none) := by
  unfold assertPending
  rw [meets_bind, meets_get]
  cases hp : c.pending with
  | none => exact ⟨h, hp⟩
  | some p =>
    dsimp only
    have hs := (h.waiting p hp).1
    show Meets (modify _ >>= fun _ => learn p.clause >>= fun _ => propagateDecision) _ _ _
    rw [← bind_assoc, meets_bind]
    refine (meets_learnPending h hl hp).mono (fun _ e he => ?_)
      fun d ⟨hd, hpend, hstate⟩ => ⟨⟨.of_quiet hd (hstate ▸ hs), .of_none hpend⟩, hpend⟩
    exact (answers_propagateDecision he.toDue he.pending (he.state ▸ hs)).meets.mono (fun _ _ hr => ⟨e, he, hr⟩) fun _ => id

theorem meets_assertHere (h : Idle f settled c) :
    Meets assertHere c (fun _ d => Idle f (d.clear settled) d) (Idle f settled) := by
  unfold assertHere
  rw [meets_bind, meets_get, meets_ite]
  exact ⟨fun hl => (meets_assertPending h hl).mono (fun _ _ ⟨_, _, hr⟩ => hr.idle) fun _ => And.left, fun _ => trivial⟩

/-- The clause that waits was asserted, if it asserts here. -/
def Reasserted (f : Formula) (settled : Nat → Prop) (c : Context) : Option Bool → Context → Prop
  | none, d => d = c ∧ ¬c.atAssertionLevel = true
  | some answer, d => ∃ e, Asserted f settled c e ∧ Resumed f settled e answer d

theorem Reasserted.halted {answer : Option Bool} (hr : Reasserted f settled c answer d) (h : Idle f settled c) :
    Halted f settled d := by
  cases answer with
  | none => exact hr.1 ▸ h.halted
  | some answer =>
    obtain ⟨_, _, hr⟩ := hr
    exact hr.halted

theorem Reasserted.settles (hr : Reasserted f settled c (some true) d) : Idle f settled d :=
  have ⟨_, _, hr⟩ := hr
  hr.settles rfl

theorem meets_assertIfHere (h : Idle f settled c) :
    Meets assertIfHere c (Reasserted f settled c) (Idle f settled) := by
  unfold assertIfHere
  rw [meets_bind, meets_get, meets_ite]
  refine ⟨fun hl => ?_, fun hl => ⟨rfl, hl⟩⟩
  rw [meets_bind]
  exact (meets_assertPending h hl).mono (fun answer d hd => hd) fun _ => And.left

/-! ## Undoing -/

theorem meets_backjump_course {target : Nat} :
    Meets (backjump target) c (fun _ d => d.course = c.course) (fun _ => False) := by
  unfold backjump
  rw [meets_bind, meets_get, meets_ite]
  refine ⟨fun _ => ?_, fun _ => rfl⟩
  dsimp only
  rw [meets_bind, meets_require]
  intro _
  rw [meets_bind]
  exact (meets_unassign_keeps (P := fun d => d.course = c.course) (fun _ _ _ hd => hd) _ rfl).mono (fun _ d hd => hd)
    fun _ => id

/-- A literal with a level stands on the trail, or its negation does. -/
theorem level_le_of_level? {level : Nat} (h : Base f settled c) (hl : c.atoms.level? l.atom = some level) :
    level ≤ c.trail.level := by
  obtain ⟨b, hb⟩ := h.leveled.exists_value hl
  have hlevel : c.atoms.levelOrZero l.atom = level := by
    rw [h.leveled.level?_eq hb] at hl
    exact Option.some.inj hl
  rw [← hlevel]
  by_cases hm : l ∈ c.trail.literals.toList
  · exact h.trailed.level_le_level hm
  by_cases hn : l.negate ∈ c.trail.literals.toList
  · rw [← Literal.atom_negate]
    exact h.trailed.level_le_level hn
  · rw [h.trailed.value_eq_none hm hn] at hb
    cases hb

/-- **Undoing a decision keeps what holds between calls**, at a lower level.  The clause that waits may wait on. -/
theorem meets_undo (h : Resting f settled c) :
    Meets (undo l) c (fun _ d => Resting f settled d ∧ (Waiting f c → Waiting f d) ∧
      (d.state ≠ .unsatisfiable → d.trail.level < c.trail.level) ∧ d.atoms.count = c.atoms.count) (fun _ => False) := by
  unfold undo
  rw [meets_bind, meets_record]
  intro r hrecord
  cases hr : r.level with
  | none => trivial
  | some level =>
    cases level with
    | zero => trivial
    | succ level =>
      dsimp only
      rw [meets_bind]
      by_cases hs : c.state = .unsatisfiable
      · -- where it is known that there is no model there is no level to undo
        have hbarren := h.barren hs
        have hsame : backjump level c = .ok () c := by
          unfold backjump
          rw [bind_of_ok (get_apply c), if_neg (by rw [hbarren.level]; exact Nat.not_lt_zero _)]
          rfl
        refine meets_of_cases (fun _ d hd => ?_) fun _ _ hd => ?_
        · rw [hsame] at hd
          cases hd
          have halike : Alike c { c with dirty := false } := .of_eq rfl rfl rfl rfl rfl
          exact ⟨.of_barren (hbarren.alike halike rfl rfl) hs, fun hw =>
            hw.still rfl id (Nat.le_refl _) rfl, fun hne => absurd hs hne, rfl⟩
        · rw [hsame] at hd
          cases hd
      · have hquiet := h.quiet hs
        have hlt : level < c.trail.level := level_le_of_level? hquiet.toBase (l := l) (by
          rw [AtomTable.level?, hrecord, Option.bind_some, hr])
        refine (meets_backjump hquiet.toSound).mono (fun _ d hback => ?_) fun _ => id
        obtain ⟨hd, -, hjump⟩ := hback
        rw [meets_modify]
        have halike : Alike d { d with dirty := false } := .of_eq rfl rfl rfl rfl rfl
        obtain ⟨hj, hcur⟩ := hjump hlt
        have hstate := state_eq_of_course hj.course
        have hquiet' : Quiet f settled d :=
          ⟨hd, hj.head, hj.units.trans hquiet.units, fun hk => hcur (hj.level ▸ hk),
            hj.anchored hquiet.trailed hd.trailed hquiet.anchored⟩
        have hlevel : d.trail.level < c.trail.level := hj.level ▸ hlt
        refine ⟨.of_quiet (hquiet'.alike halike rfl rfl) (hstate ▸ hs), fun hw => ?_, fun _ => hlevel, hj.count⟩
        exact hw.carry (fun _ => id) (pending_eq_of_course hj.course) (fun hs => hstate ▸ hs) (Nat.le_of_eq hj.count.symm)
          (Nat.le_of_lt hlevel) fun k hk => hj.upTo k (hj.level ▸ hk)

/-- The level that a decision opened is undone, whether or not a conflict was found there. -/
theorem meets_undo_clear (h : Idle f (c.clear settled) c) :
    Meets (undo l) c (fun _ d => Idle f settled d) (fun _ => False) := by
  refine (meets_undo h.toResting).mono (fun _ d ⟨hd, hw, hlt, _⟩ => ⟨?_, hw h.waiting⟩) fun _ => id
  by_cases hs : d.state = .unsatisfiable
  · exact .of_barren (hd.barren hs) hs
  · exact hd.below (hlt hs)

/-- A decision is undone, and what was learnt is asserted where it may be.  What goes on from there depends on whether that
has settled the level. -/
theorem meets_undoThen {α : Type} {next : Option Bool → Solver α} {Q : α → Context → Prop}
    (h : Idle f (c.clear settled) c)
    (hnone : ∀ d, Halted f settled d → Meets (next none) d Q (Idle f settled))
    (hno : ∀ d, Halted f settled d → Meets (next (some false)) d Q (Idle f settled))
    (hyes : ∀ d, Idle f settled d → Meets (next (some true)) d Q (Idle f settled)) :
    Meets (do
      undo l
      let answer ← assertIfHere
      next answer) c Q (Idle f settled) := by
  rw [meets_bind]
  refine (meets_undo_clear h).mono (fun _ d hd => ?_) fun _ => False.elim
  rw [meets_bind]
  refine (meets_assertIfHere hd).mono (fun answer e he => ?_) fun _ => id
  rcases answer with _ | _ | _
  · exact hnone e (he.halted hd)
  · exact hno e (he.halted hd)
  · exact hyes e he.settles

/-! ## Searches made of decisions -/

/-- **Looking for a model keeps what holds between calls.** -/
theorem meets_findModel (hg : Gapless settled) : ∀ (fuel : Nat) (c : Context), Resting f settled c →
    Meets (findModel fuel) c (fun _ d => Halted f settled d ∨ d = c ∧ Finished c) (Idle f settled)
  | 0, _, _ => trivial
  | fuel + 1, c, h => by
    have hagain : ∀ d, Idle f settled d →
        Meets (findModel fuel) d (fun _ e => Halted f settled e) (Idle f settled) := fun d hd =>
      (meets_findModel hg fuel d hd.toResting).mono (fun _ e he => he.elim id fun he => he.1 ▸ hd.halted) fun _ => id
    unfold findModel
    rw [meets_bind, meets_get, meets_ite]
    refine ⟨fun hu => .inr ⟨rfl, .inl hu⟩, fun hu => ?_⟩
    cases hfree : c.atoms.firstFree? with
    | none => exact .inr ⟨rfl, .inr hfree⟩
    | some a =>
      have hfinished := not_finished hu hfree
      have hback : ∀ d, Idle f settled d →
          Meets (findModel fuel) d (fun _ e => Halted f settled e ∨ e = c ∧ Finished c) (Idle f settled) :=
        fun d hd => (hagain d hd).mono (fun _ _ => .inl) fun _ => id
      dsimp only
      rw [meets_bind]
      refine (meets_decide h hg).mono (fun decided d hd => ?_) fun _ => False.elim
      have hhalted := hd.1.resolve_right fun hd => hfinished hd.2
      rw [meets_ite]
      constructor
      · intro he
        rw [meets_bind]
        refine (hagain d (hd.2 he)).mono (fun found e he => ?_) fun _ => id
        rw [meets_ite]
        exact ⟨fun _ => .inl he, fun _ => meets_undoThen he.toIdle (fun _ => .inl) (fun _ => .inl) hback⟩
      · exact fun _ => meets_undoThen hhalted.toIdle (fun _ => .inl) (fun _ => .inl) hback

theorem meets_countBranch {depth : Nat} (h : Resting f settled c) (hg : Gapless settled)
    (hf : ¬Finished c ∨ Idle f settled c)
    (hcount : ∀ d, Idle f settled d → Meets (countModelsFor depth) d (fun _ e => Idle f settled e) (Idle f settled)) :
    Meets (countModelsFor.countBranch depth l) c (fun _ d => Idle f settled d) (Idle f settled) := by
  have hrest : ∀ (n : Nat) (d : Context), Idle f (d.clear settled) d → Meets (do
      undo l
      pure n) d (fun _ e => Idle f settled e) (Idle f settled) := fun n d hd => by
    rw [meets_bind]
    exact (meets_undo_clear hd).mono (fun _ _ => id) fun _ => False.elim
  unfold countModelsFor.countBranch
  rw [meets_bind]
  refine (meets_decide h hg).mono (fun decided d ⟨hd, htrue⟩ => ?_) fun _ => False.elim
  have hd : Idle f (d.clear settled) d := by
    rcases hd with hd | ⟨rfl, hdone⟩
    · exact hd.toIdle
    · exact (hf.resolve_left fun hne => hne hdone).clear
  dsimp only
  rw [meets_ite]
  refine ⟨fun he => ?_, fun _ => hrest 0 d hd⟩
  rw [meets_bind]
  exact (hcount d (htrue he)).mono (fun n e he => hrest n e he.clear) fun _ => id

/-- **Counting models keeps what holds between calls.** -/
theorem meets_countModelsFor (hg : Gapless settled) : ∀ (depth : Nat) (c : Context),
    Resting f settled c →
    Meets (countModelsFor depth) c (fun _ d => Idle f settled d ∨ d = c ∧ Finished c) (Idle f settled)
  | 0, _, _ => by
    unfold countModelsFor
    trivial
  | depth + 1, c, h => by
    have hagain : ∀ d, Idle f settled d →
        Meets (countModelsFor depth) d (fun _ e => Idle f settled e) (Idle f settled) := fun d hd =>
      (meets_countModelsFor hg depth d hd.toResting).mono (fun _ e he => he.elim id fun he => he.1 ▸ hd) fun _ => id
    unfold countModelsFor
    rw [meets_bind, meets_get, meets_ite]
    refine ⟨fun hu => .inr ⟨rfl, .inl hu⟩, fun hu => ?_⟩
    cases hfree : c.atoms.firstFree? with
    | none => exact .inr ⟨rfl, .inr hfree⟩
    | some a =>
      have hfinished := not_finished hu hfree
      dsimp only
      rw [meets_bind]
      refine (meets_countBranch h hg (.inl hfinished) hagain).mono (fun positive d hd => ?_) fun _ => id
      rw [meets_bind]
      refine (meets_countBranch hd.toResting hg (.inr hd) hagain).mono (fun negative e he => ?_) fun _ => id
      rw [meets_bind, meets_require]
      exact fun _ => .inl he

end Solver
end Cdcl
