import Cdcl.Proofs.Calls
import Cdcl.Proofs.Closure
import Cdcl.Proofs.Soundness
/-!
# Gathering — a solve leaves level zero clean, and loses no unit it learnt

A unit learnt under assumptions is assigned high on the trail, and the way back to level zero takes it off again.  From where
it is told of it stands at level zero or among the pending units (`Gathers`): a search keeps that at every step, for what is
below is not touched, and nothing of what is pending is forgotten.  On the way back each pending unit is assigned, unless that
shows that there is no model (`Regained.held`).  So a solve that ends at level zero leaves there what there was, and every
unit it told of (`Session.solveGiven_gathers`).
-/
namespace Cdcl

namespace Trail

variable {t u : Trail}

theorem upTo_of_eq (hliterals : u.literals = t.literals) (hstarts : u.starts = t.starts) (k : Nat) :
    u.upTo k = t.upTo k := by
  simp only [upTo, before, start_succ, size, hliterals, hstarts]

theorem layered_of_eq (h : t.Layered) (hliterals : u.literals = t.literals) (hstarts : u.starts = t.starts)
    (hhead : t.head ≤ t.size → u.head ≤ u.size) : u.Layered := by
  refine ⟨hstarts ▸ h.sorted, fun i hi => ?_, hhead h.head⟩
  rw [hstarts] at hi
  simpa only [size, hliterals] using h.bounded i hi

theorem upTo_zero_push (h : t.Layered) (l : Literal) : t.upTo 0 <+: (t.push l).upTo 0 := by
  by_cases hz : t.level = 0
  · rw [upTo_of_level_le (Nat.le_of_eq hz), upTo_of_level_le (t := t.push l) (Nat.le_of_eq hz), literals_push]
    apply List.prefix_append
  · rw [h.upTo_push_of_lt (Nat.pos_of_ne_zero hz)]

end Trail

namespace Listeners

variable {s t u : Listeners} {l : Literal} {e : Event}

/-- More has been told, but nothing of a clause learnt. -/
def Hushed (s t : Listeners) : Prop :=
  ∃ news, t.events.toList = s.events.toList ++ news ∧ ∀ clause, .learnt clause ∉ news

theorem Hushed.refl (s : Listeners) : s.Hushed s := ⟨[], by simp, nofun⟩

theorem Hushed.trans (h : s.Hushed t) (h' : t.Hushed u) : s.Hushed u := by
  obtain ⟨news, hnews, hno⟩ := h
  obtain ⟨more, hmore, hno'⟩ := h'
  refine ⟨news ++ more, by rw [hmore, hnews, List.append_assoc], fun clause hc => ?_⟩
  exact (List.mem_append.1 hc).elim (hno clause) (hno' clause)

theorem hushed_record (h : ∀ clause, e ≠ .learnt clause) : s.Hushed (s.record e) :=
  ⟨[e], by simp [record], fun clause hc => h clause (List.mem_singleton.1 hc).symm⟩

theorem hushed_assigned : s.Hushed (s.assigned l) := by
  unfold assigned
  cases s.onAssign with
  | record => exact hushed_record nofun
  | _ => exact .refl s

theorem hushed_ask : s.Hushed s.ask.2 := by
  unfold ask
  cases s.stop with
  | none => exact .refl s
  | some rule => exact hushed_record nofun

theorem hushed_of_unassigned? (h : s.unassigned? l = some t) : s.Hushed t := by
  unfold unassigned? at h
  split at h
  · cases h
    exact .refl s
  · cases h
    exact hushed_record nofun
  · obtain ⟨tracker, -, rfl⟩ := Option.map_eq_some_iff.1 h
    exact .refl s

theorem events_learnt (clause : Clause) : ∃ news, (s.learnt clause).events.toList = s.events.toList ++ news ∧
    ∀ other, .learnt other ∈ news → other = clause := by
  unfold learnt
  split
  · exact ⟨[.learnt clause], by simp [record], fun other ho => by simpa using ho⟩
  · exact ⟨[], by simp, nofun⟩

end Listeners

namespace Context

variable {c d e : Context} {l : Literal}

/-- More has been told, but nothing of a clause learnt. -/
def Hushed (c d : Context) : Prop := c.listeners.Hushed d.listeners

/-- A literal stands at level zero, or waits to be assigned there. -/
def Gathered (c : Context) (l : Literal) : Prop := l ∈ c.trail.upTo 0 ∨ l ∈ c.pendingUnits.toList

/-- What was gathered for level zero has stayed, and what was told of as learnt, if it is a unit, is gathered. -/
structure Gathers (c d : Context) : Prop where
  layered : d.trail.Layered
  initial : c.trail.upTo 0 <+: d.trail.upTo 0
  units : c.pendingUnits.toList ⊆ d.pendingUnits.toList
  news : ∃ news, d.listeners.events.toList = c.listeners.events.toList ++ news ∧ ∀ l, .learnt [l] ∈ news → d.Gathered l

theorem Gathers.gathered (h : Gathers c d) (hl : c.Gathered l) : d.Gathered l :=
  hl.imp (fun hm => h.initial.subset hm) fun hm => h.units hm

theorem Gathers.trans (h : Gathers c d) (h' : Gathers d e) : Gathers c e := by
  obtain ⟨news, hnews, hgathered⟩ := h.news
  obtain ⟨more, hmore, hgathered'⟩ := h'.news
  refine ⟨h'.layered, h.initial.trans h'.initial, fun l hl => h'.units (h.units hl), news ++ more, ?_, fun l hl => ?_⟩
  · rw [hmore, hnews, List.append_assoc]
  · exact (List.mem_append.1 hl).elim (fun hl => h'.gathered (hgathered l hl)) (hgathered' l)

/-- What tells of no clause gathers what it keeps. -/
theorem Hushed.gathers (h : Hushed c d) (hlayered : d.trail.Layered) (hinitial : c.trail.upTo 0 <+: d.trail.upTo 0)
    (hunits : c.pendingUnits.toList ⊆ d.pendingUnits.toList) : Gathers c d := by
  obtain ⟨news, hnews, hno⟩ := h
  exact ⟨hlayered, hinitial, hunits, news, hnews, fun l hl => absurd hl (hno [l])⟩

theorem Hushed.of_eq (h : d.listeners = c.listeners) : Hushed c d := by
  unfold Hushed
  rw [h]
  exact .refl _

/-- A clause that is told of, and is gathered by the end if it is a unit. -/
theorem Gathers.of_told {clause : Clause} (h : Gathers { c with listeners := c.listeners.learnt clause } d)
    (hl : ∀ l, clause = [l] → d.Gathered l) : Gathers c d := by
  obtain ⟨first, hfirst, honly⟩ := c.listeners.events_learnt clause
  obtain ⟨news, hnews, hgathered⟩ := h.news
  refine ⟨h.layered, h.initial, h.units, first ++ news, ?_, fun l hm => ?_⟩
  · rw [hnews, hfirst, List.append_assoc]
  · exact (List.mem_append.1 hm).elim (fun hm => hl l (honly [l] hm).symm) (hgathered l)

/-- On a trail with its levels in order, what was gathered for level zero has stayed. -/
def Gathering (c d : Context) : Prop := c.trail.Layered → Gathers c d

theorem Hushed.gathering (h : Hushed c d) (hlayered : c.trail.Layered → d.trail.Layered)
    (hinitial : c.trail.Layered → c.trail.upTo 0 <+: d.trail.upTo 0)
    (hunits : c.pendingUnits.toList ⊆ d.pendingUnits.toList) : Gathering c d := fun hc =>
  h.gathers (hlayered hc) (hinitial hc) hunits

/-- What does not touch the trail, the units and the listeners gathers what there was. -/
theorem Gathering.of_eq (hlisteners : d.listeners = c.listeners) (hliterals : d.trail.literals = c.trail.literals)
    (hstarts : d.trail.starts = c.trail.starts) (hhead : c.trail.head ≤ c.trail.size → d.trail.head ≤ d.trail.size)
    (hunits : d.pendingUnits = c.pendingUnits) : Gathering c d :=
  (Hushed.of_eq hlisteners).gathering (fun h => Trail.layered_of_eq h hliterals hstarts hhead)
    (fun _ => Trail.upTo_of_eq hliterals hstarts 0 ▸ List.prefix_refl _) (hunits ▸ List.Subset.refl _)

/-- What a solve leaves: level zero as it was at least, and every unit that was told of, if there may be a model. -/
structure Returned (c d : Context) : Prop where
  level : d.trail.level = 0
  initial : c.trail.upTo 0 <+: d.trail.literals.toList
  news : ∃ news, d.listeners.events.toList = c.listeners.events.toList ++ news ∧
    ∀ l, .learnt [l] ∈ news → d.state ≠ .unsatisfiable → l ∈ d.trail.literals.toList

theorem Returned.carry (h : Returned c d) (htrail : e.trail = d.trail) (hlisteners : e.listeners = d.listeners)
    (hstate : d.state = .unsatisfiable → e.state = .unsatisfiable) : Returned c e := by
  obtain ⟨news, hnews, hheld⟩ := h.news
  refine ⟨htrail ▸ h.level, htrail ▸ h.initial, news, hlisteners ▸ hnews, fun l hl hs => ?_⟩
  rw [htrail]
  exact hheld l hl fun he => hs (hstate he)

/-- **On the way back no unit is lost** that was gathered. -/
theorem Gathers.returned {f : Formula} {matters : Prop} (h : Gathers c d) (hd : Regained f matters d e)
    (hh : Hushed d e) : Returned c e := by
  obtain ⟨news, hnews, hgathered⟩ := h.news
  obtain ⟨more, hmore, hno⟩ := hh
  refine ⟨hd.level, h.initial.trans hd.initial, news ++ more, ?_, fun l hl hs => ?_⟩
  · rw [hmore, hnews, List.append_assoc]
  · rcases List.mem_append.1 hl with hl | hl
    · rcases hgathered l hl with hroot | hpending
      · exact hd.initial.subset hroot
      · exact hd.held l hpending hs
    · exact absurd hl (hno [l])

end Context

namespace Solver

open Run Context

variable {f : Formula} {assumptions : List Literal} {c d : Context} {l : Literal}

/-! ## Steps that tell of no clause -/

instance : Chained Hushed where
  refl c := Listeners.Hushed.refl c.listeners
  trans h h' := Listeners.Hushed.trans h h'

instance : Stepped Hushed where
  unseen h := .of_eq h.listeners
  assigned _ _ _ := Listeners.hushed_assigned
  opened _ := .of_eq rfl
  unit _ _ := .of_eq rfl
  back _ := within_wayBack (fun _ _ => trivial) (fun _ => .of_eq rfl) (fun hl => Listeners.hushed_of_unassigned? hl)
    fun _ => .of_eq rfl

instance : Refutable Hushed where
  refuted _ := .of_eq rfl

theorem hushed_returnToRoot : Within Hushed returnToRoot :=
  within_returnToRoot (fun _ => .of_eq rfl) fun _ => .of_eq rfl

/-! ## Steps of a search -/

instance : Chained Gathering where
  refl c hc := ⟨hc, List.prefix_refl _, List.Subset.refl _, [], by simp, nofun⟩
  trans h h' hc := (h hc).trans (h' (h hc).layered)

instance : Stepped Gathering where
  unseen h := .of_eq h.listeners h.literals h.starts h.head h.units
  assigned c l reason := Hushed.gathering (Stepped.assigned (R := Hushed) c l reason) (fun hc => Trail.layered_push hc l)
    (fun hc => Trail.upTo_zero_push hc l) (List.Subset.refl _)
  opened c := Hushed.gathering (.of_eq rfl) Trail.layered_newLevel
    (fun _ => (Trail.upTo_newLevel_of_le (Nat.zero_le _)).symm ▸ List.prefix_refl _) (List.Subset.refl _)
  unit c l := by
    apply Hushed.gathering
    · exact .of_eq rfl
    · exact id
    · exact fun _ => List.prefix_refl _
    intro m hm
    dsimp only
    split
    · exact Array.toList_push ▸ List.mem_append_left _ hm
    · exact hm
  back target := within_wayBack (fun _ _ => trivial) (fun _ => .of_eq rfl rfl rfl id rfl)
    (fun hl => Hushed.gathering (Listeners.hushed_of_unassigned? hl) id (fun _ => List.prefix_refl _)
      (List.Subset.refl _)) fun c => Hushed.gathering (.of_eq rfl)
      (fun hc => Trail.layered_cut hc target) (fun hc => (hc.upTo_cut_of_le (Nat.zero_le _)).symm ▸ List.prefix_refl _)
      (List.Subset.refl _)

/-- **A unit that is learnt is gathered**: at level zero it stands there, and above it is pending. -/
theorem gathering_learnUnit (l : Literal) :
    Meets (learn [l]) c (fun _ d => Gathering c d ∧ d.Gathered l) fun _ => False := by
  refine ((within_learn (R := Gathering) [l] c).meets.and (D := fun _ => False) ?_).mono (fun _ _ => id) fun _ => And.right
  unfold learn assign
  rw [meets_bind, meets_bind, meets_get, meets_bind, meets_require]
  intro _
  rw [meets_modify, meets_bind]
  refine (gives_onAtoms AtomTable.Call.gives_setLevel).meets ?_
  rw [meets_modify]
  unfold Gathered
  by_cases hz : c.trail.level = 0
  · left
    rw [Trail.upTo_of_level_le (show (c.trail.push l).level ≤ 0 from Nat.le_of_eq hz), Trail.literals_push]
    simp
  · right
    dsimp only
    rw [if_pos (show (c.trail.push l).level > 0 from Nat.pos_of_ne_zero hz)]
    simp

/-- **From where a clause is told of to where it is learnt, what is gathered stays**, and a unit is gathered. -/
theorem gathering_tellAndLearn (clause : Clause) (target : Nat) : Within Gathering (tellAndLearn clause target) := by
  by_cases hunit : ∃ l, clause = [l]
  · obtain ⟨l, rfl⟩ := hunit
    refine fun c => ⟨?_, fun _ _ _ => trivial⟩
    unfold tellAndLearn
    rw [meets_bind, meets_modify, meets_bind]
    refine ((within_backjump (R := Gathering) _).meets.and meets_backjump_course).mono (fun _ d ⟨hd, _⟩ => ?_)
      fun _ hd => hd.2.elim
    refine (gathering_learnUnit l).mono (fun _ e ⟨he, hl⟩ => ?_) fun _ => False.elim
    intro hc
    exact Gathers.of_told (Chained.trans hd he hc) fun m hm => List.cons.inj hm |>.1 ▸ hl
  · refine within_tellAndLearn fun c hc => Gathers.of_told (Chained.refl (R := Gathering) _ hc) fun l hl => ?_
    exact absurd ⟨l, hl⟩ hunit

instance : Enduring Gathering where
  beside h := .of_eq h.listeners h.literals h.starts h.head h.units
  asked _ := Hushed.gathering Listeners.hushed_ask id (fun _ => List.prefix_refl _) (List.Subset.refl _)
  learns := gathering_tellAndLearn

/-! ## A solve -/

/-- **A solve from level zero leaves there what there was, and every unit it told of.** -/
theorem meets_solveGiven_returned {fuel : Nat} (h : Resting f (· = 0) c) (hl : c.trail.level = 0) :
    Meets (solveGiven fuel assumptions) c (fun _ d => Returned c d) (Returned c) := by
  unfold solveGiven
  rw [meets_bind, meets_modify, meets_bind, meets_get]
  generalize hb : ({ c with model := #[], failed := [], pending := none } : Context) = b
  have halike : Alike c b := hb ▸ .of_eq rfl rfl rfl rfl rfl
  have hgathering : Gathering c b := hb ▸ .of_eq rfl rfl rfl id rfl
  have hexit : Returned c b := by
    rw [← hb]
    exact ⟨hl, Trail.upTo_of_level_le (Nat.le_of_eq hl) ▸ List.prefix_refl _, [], by simp, nofun⟩
  rw [meets_ite]
  refine ⟨fun _ => hexit, fun hs => ?_⟩
  rw [meets_ite]
  refine ⟨fun _ => hexit, fun _ => ?_⟩
  have hquiet : Quiet f (· = 0) c := h.quiet fun he => hs (hb ▸ he)
  show Meets (backjump 0 >>= fun _ => setState .solving >>= _) _ _ _
  rw [← bind_assoc, meets_bind]
  have henter : Within Gathering (do
      backjump 0
      setState .solving) := within_bind within_backjump fun _ => within_modify fun _ => .of_eq rfl rfl rfl id rfl
  refine ((meets_enter (hquiet.alike halike (hb ▸ rfl) (hb ▸ rfl)) rfl).and (henter b).meets).mono
    (fun _ d ⟨⟨hd, hunits, hsolving, _, _⟩, hentered⟩ => ?_) fun _ hd => hd.1.elim
  rw [meets_bind]
  refine ((meets_attemptFromRoot hd hunits (hsolving ▸ nofun)).and (within_attempt (within_solveFromRoot (R := Gathering)) d).meets).mono
    (fun result e ⟨hstopped, hsolved⟩ => ?_) fun _ he => he.1.elim
  have hgathers : Gathers c e := Chained.trans hgathering (Chained.trans hentered hsolved) hquiet.trailed.layered
  rw [meets_bind]
  refine ((meets_returnToRoot hstopped).and (hushed_returnToRoot e).meets).mono (fun _ g ⟨hg, hh⟩ => ?_)
    fun _ hg => hg.1.elim
  have hreturned : Returned c g := hgathers.returned hg hh
  cases result with
  | error failure => exact hreturned
  | ok state =>
    unfold conclude
    rw [meets_bind, meets_modify, meets_bind, meets_get, meets_pure]
    apply hreturned.carry <;> dsimp only <;> split <;> split <;> simp_all

end Solver

namespace Session

open Run Context Solver

variable {s : Session} {fuel : Nat} {assumptions : List Literal}

/-- **A solve leaves level zero clean, and loses no unit it has learnt**, whatever it ends with.  At level zero afterwards, with
no unit pending, the trail begins with what it held before, and every literal of it has level zero and follows from the
accepted clauses.  Every unit that was told of as learnt is on the trail, and all is propagated, unless it was found that
there is no model.  The levels of the solve are to be counted. -/
theorem solveGiven_returned (h : s.Followed) (hl : s.context.level = 0)
    (_hlevels : assumptions.length + s.context.atoms.count < levelLimit) {r : Option Report} {d : Context}
    (hd : (Solver.solveGiven fuel assumptions).ended s.context = some (r, d)) :
    d.level = 0 ∧ d.trail.root = 0 ∧ d.pendingUnits = #[] ∧
      s.context.trail.literals.toList <+: d.trail.literals.toList ∧
      (∀ l ∈ d.trail.literals.toList, d.atoms.level? l.atom = some 0 ∧ s.formula.Entails [l]) ∧
      (∃ news, d.listeners.events.toList = s.context.listeners.events.toList ++ news ∧
        ∀ l, .learnt [l] ∈ news → d.state ≠ .unsatisfiable → l ∈ d.trail.literals.toList) ∧
      (d.state ≠ .unsatisfiable → d.trail.propagated = true ∧ ∀ clause, d.Live clause → d.Slack clause) := by
  have hall : Returned s.context d ∧ Resting s.formula (· = 0) d ∧ d.trail.root = 0 :=
    Meets.of_ended (P := fun _ d => Returned s.context d ∧ Resting s.formula (· = 0) d ∧ d.trail.root = 0)
      (((meets_solveGiven_returned h.held.toResting hl).and ((meets_solveGiven h.held.toResting rfl).and
        (meets_solveGiven_root h.root))).mono (fun _ _ ⟨hc, hr, hz⟩ => ⟨hc, hr.resting, hz⟩)
        fun _ ⟨hc, hr, hz⟩ => ⟨hc, hr.1, hz⟩) hd
  obtain ⟨hreturned, hresting, hroot⟩ := hall
  obtain ⟨g, _, hsound, hunits, hpart⟩ := hresting.exists_sound
  refine ⟨hreturned.level, hroot, hunits, ?_, fun l hmem => ?_, hreturned.news, fun hs => ⟨?_, fun clause hlive => ?_⟩⟩
  · have hinitial := hreturned.initial
    rwa [Trail.upTo_of_level_le (Nat.le_of_eq hl)] at hinitial
  · have hz : d.atoms.levelOrZero l.atom = 0 :=
      Nat.le_zero.1 (hreturned.level ▸ hsound.trailed.level_le_level hmem)
    rw [hsound.leveled.level?_eq ((hsound.trailed.value l).2 hmem), hz]
    exact ⟨rfl, fun v hv => hsound.trailed.entails_of_level_zero hsound.denotes hmem hz v (hpart v hv)⟩
  · rw [Trail.propagated, decide_eq_true_iff]
    exact Nat.le_of_eq (hresting.quiet hs).head.symm
  · exact hsound.slack ((hresting.quiet hs).current hreturned.level) hlive

theorem normal_negate_or : Clause.normal [x₀.negate, x₁] = [x₀.negate, x₁] := Clause.normal_of_pairwise (by decide)

theorem normal_negate_or_negate : Clause.normal [x₀.negate, x₁.negate] = [x₀.negate, x₁.negate] :=
  Clause.normal_of_pairwise (by decide)

/-- With two clauses that the first atom cannot make true, and the third one assumed: the unit that is learnt above the
assumption stands on the trail after the solve, without the assumption. -/
theorem solveGiven_returned_unit : ∃ (s : Session) (r : Option Report) (d : Context), s.Followed ∧ s.context.level = 0 ∧
    [x₂].length + s.context.atoms.count < levelLimit ∧
    s.formula = [[x₀.negate, x₁], [x₀.negate, x₁.negate]] ∧ s.context.trail.literals.toList = [] ∧
    (Solver.solveGiven 20 [x₂]).ended s.context = some (r, d) ∧
    d.listeners.events.toList = [.learnt [x₀.negate]] ∧ d.trail.literals.toList = [x₀.negate] ∧
    (d.level = 0 ∧ d.trail.root = 0 ∧ d.pendingUnits = #[] ∧
      s.context.trail.literals.toList <+: d.trail.literals.toList ∧
      (∀ l ∈ d.trail.literals.toList, d.atoms.level? l.atom = some 0 ∧ s.formula.Entails [l]) ∧
      (∃ news, d.listeners.events.toList = s.context.listeners.events.toList ++ news ∧
        ∀ l, .learnt [l] ∈ news → d.state ≠ .unsatisfiable → l ∈ d.trail.literals.toList) ∧
      (d.state ≠ .unsatisfiable → d.trail.propagated = true ∧ ∀ clause, d.Live clause → d.Slack clause)) := by
  have h : ((start {} .default).run [.freshAtom, .freshAtom, .freshAtom, .addClause [x₀.negate, x₁],
      .addClause [x₀.negate, x₁.negate]]).bind (fun s => ((Solver.solveGiven 20 [x₂]).ended
        { s.context with listeners := { onLearnt := true } }).map fun r => (s.context.level, s.formula,
          s.context.trail.literals.toList, r.2.listeners.events.toList, r.2.trail.literals.toList)) =
      some (0, [[x₀.negate, x₁], [x₀.negate, x₁.negate]], [], [.learnt [x₀.negate]], [x₀.negate]) := by
    simp only [Session.run, Session.call, Session.after, Solver.addClause, normal_negate_or, normal_negate_or_negate]
    decide +kernel
  obtain ⟨s, hs, h⟩ := Option.bind_eq_some_iff.1 h
  obtain ⟨⟨r, d⟩, hd, hview⟩ := Option.map_eq_some_iff.1 h
  simp only [Prod.mk.injEq] at hview
  obtain ⟨hlevel, hformula, hbefore, hevents, hafter⟩ := hview
  have hfollowed : (s.goTo { s.context with listeners := { onLearnt := true } }).Followed :=
    (Followed.run _ (.start {} .default) hs).equip s.context.options { onLearnt := true }
  have hlevels : [x₂].length + s.context.atoms.count < levelLimit := hfollowed.held.lt_levelLimit (by decide)
  exact ⟨_, r, d, hfollowed, hlevel, hlevels, hformula, hbefore, hd, hevents, hafter,
    solveGiven_returned hfollowed hlevel hlevels hd⟩

end Session
end Cdcl
