import Cdcl.Proofs.Search
/-!
# Solve — what a solve tells is so, and it ends at level zero

Wherever the work of a solve stops, with an answer or a failure, the way back to level zero keeps the invariant, assigns
the units that were learnt on the way, and may find that there is no model (`meets_returnToRoot`).  So a solve ends with
the invariant of a context between calls, and with an answer that is so (`meets_solveGiven`).
-/
namespace Cdcl
namespace Context

variable {f : Formula} {assumptions : List Literal} {settled : Nat → Prop} {matters : Prop} {c d e : Context} {l : Literal}

/-! ## On the way back -/

theorem Sound.withoutUnits (h : Sound f settled c) (hl : c.trail.level = 0) :
    Sound f settled { c with pendingUnits := #[] } where
  trailed := ⟨h.trailed.layered, h.trailed.nodup, h.trailed.value, fun i l hi =>
    (h.trailed.caused i l hi).of_eq rfl rfl rfl id
      (fun _ => .inl (Nat.le_zero.1 (hl ▸ Trail.levelAt_le_level c.trail i)))
      fun _ rest _ hk => ⟨rest, hk, fun _ => id⟩⟩
  shaped := ⟨h.shaped.binarySize, h.shaped.longSize, h.shaped.long, h.shaped.binary, h.shaped.symmetric,
    h.shaped.bounded⟩
  slotted := h.slotted
  denotes := ⟨h.denotes.known, h.denotes.binary, h.denotes.long, nofun, h.denotes.complete⟩
  stocked := h.stocked
  leveled := h.leveled
  below k hk hlt a b hab := h.below k hk hlt a b (hab.carry (fun _ => rfl) fun _ _ => id)
  listed := h.listed
  marks := h.marks

/-- What is told of a solve stays, but that it may be found that there is no model. -/
structure Told (f : Formula) (c d : Context) : Prop where
  state : d.state = c.state ∨ d.state = .unsatisfiable ∧ ¬f.Satisfiable
  model : d.model = c.model
  failed : d.failed = c.failed
  pending : d.pending = c.pending
  count : d.atoms.count = c.atoms.count

theorem Told.refl (c : Context) : Told f c c := ⟨.inl rfl, rfl, rfl, rfl, rfl⟩

theorem Told.carry (h : Told f c d) (hcourse : e.course = d.course) (hcount : e.atoms.count = d.atoms.count) :
    Told f c e where
  state := by
    rw [state_eq_of_course hcourse]
    exact h.state
  model := (congrArg Course.model hcourse).trans h.model
  failed := (congrArg Course.failed hcourse).trans h.failed
  pending := (pending_eq_of_course hcourse).trans h.pending
  count := hcount.trans h.count

theorem Told.refute (h : Told f c d) (hf : ¬f.Satisfiable) : Told f c { d with state := .unsatisfiable } :=
  ⟨.inr ⟨rfl, hf⟩, h.model, h.failed, h.pending, h.count⟩

/-- The invariant on the way back, at level zero. -/
structure Regaining (f : Formula) (matters : Prop) (c d : Context) : Prop
    extends Sound f (fun k => k = 0 ∧ matters) d, Told f c d where
  level : d.trail.level = 0
  initial : c.trail.upTo 0 <+: d.trail.literals.toList
  current : matters → d.Current d.trail.head

/-- Units have been assigned one after the other; one that could not be shows that there is no model. -/
structure Regathered (list : List Literal) (d e : Context) : Prop where
  units : e.pendingUnits = d.pendingUnits
  initial : d.trail.literals.toList <+: e.trail.literals.toList
  refuted : d.state = .unsatisfiable → e.state = .unsatisfiable
  held : ∀ l ∈ list, e.state ≠ .unsatisfiable → l ∈ e.trail.literals.toList

/-- What is known back at level zero, with the units learnt on the way assigned and all propagated. -/
structure Regained (f : Formula) (matters : Prop) (c d : Context) : Prop
    extends Sound f (fun k => k = 0 ∧ matters) d, Told f c d where
  level : d.trail.level = 0
  initial : c.trail.upTo 0 <+: d.trail.literals.toList
  held : ∀ l ∈ c.pendingUnits.toList, d.state ≠ .unsatisfiable → l ∈ d.trail.literals.toList
  head : d.trail.head = d.trail.size
  units : d.pendingUnits = #[]
  current : d.state ≠ .unsatisfiable → matters → d.Current d.trail.size

theorem Regathered.nil (d : Context) : Regathered [] d d := ⟨rfl, List.prefix_refl _, id, nofun⟩

theorem Regathered.cons {list : List Literal} (h : Regathered list d e)
    (hl : e.state ≠ .unsatisfiable → l ∈ e.trail.literals.toList) : Regathered (l :: list) d e :=
  { h with held := List.forall_mem_cons.2 ⟨hl, h.held⟩ }

theorem Regaining.refute (h : Regaining f matters c d) (hf : ¬f.Satisfiable) :
    Regaining f matters c { d with state := .unsatisfiable } := by
  have halike : Alike d { d with state := .unsatisfiable } := .of_eq rfl rfl rfl rfl rfl
  exact ⟨halike.sound h.toSound rfl, h.toTold.refute hf, h.level, h.initial,
    fun hm => halike.current (h.current hm)⟩

theorem Regaining.push (h : Regaining f matters c d) (hp : Pushed d l d.trail.level none e)
    (hu : e.pendingUnits = d.pendingUnits) (hv : d.atoms.value l.atom = none) (he : f.Entails [l]) :
    Regaining f matters c e := by
  rw [h.level] at hp
  have hsound := h.toSound.push hp hv (hp.caused_zero h.trailed.layered he (.inl h.level)) (hu ▸ h.denotes.units)
  have hlevel : e.trail.level = d.trail.level := by rw [hp.trail, Trail.level_push]
  have hhead : e.trail.head = d.trail.head := by rw [hp.trail]; rfl
  exact ⟨hsound, h.toTold.carry hp.course hp.count, hlevel.trans h.level,
    h.initial.trans (hp.literals ▸ List.prefix_append ..), fun hm =>
      hhead ▸ hp.current h.trailed.layered.head (h.current hm)⟩

theorem Rooted.assuming (h : Rooted f (fun _ => True) c) (hu : c.pendingUnits = #[]) : Assuming f [] c where
  units := hu
  toSound := h.toSound
  supposed := by
    refine ⟨nofun, fun l hl _ hz => ?_⟩
    rw [h.levelOrZero_eq (Trail.upTo_subset_literals hl)] at hz
    exact absurd hz (Nat.lt_irrefl 0)
  current := h.current
  head := h.head

/-- The invariant where a solve sets out to make assumptions. -/
structure Outset (f : Formula) (root : Nat) (c : Context) : Prop extends Rooted f (fun _ => True) c where
  units : c.pendingUnits = #[]
  consistent : c.state ≠ .unsatisfiable
  ends : c.trail.root = root

theorem Assuming.poised {root : Nat} (h : Assuming f assumptions c) (hs : c.state ≠ .unsatisfiable)
    (hl : c.trail.level = root) (hr : c.trail.root = root) : Poised f assumptions root c :=
  Searching.poised ⟨h.toSound.weaken fun _ _ _ => trivial, hs, hr, Nat.le_of_eq hl.symm, hl ▸ h.supposed,
    .of_none h.units, .of_level_le h.trailed (Nat.le_of_eq hl)⟩ hl (h.head ▸ h.current)

/-! ## The end -/

/-- What is known after a solve. -/
structure Concluded (f : Formula) (settled : Nat → Prop) (assumptions : List Literal) (c : Context) (report : Report)
    (d : Context) : Prop where
  resting : Resting f settled d
  reported : report = d.report
  satisfiable : d.state = .satisfiable → Models f assumptions d.model ∧ d.model.size = d.atoms.count
  failed : d.state = .failedAssumptions → Core f assumptions d.failed
  pending : d.pending = none
  count : d.atoms.count = c.atoms.count

theorem Answered.carry {state : SolveState} (h : Answered f assumptions c state) (ht : Told f c d) :
    Answered f assumptions d state := by
  cases state with
  | satisfiable =>
    show Models f assumptions d.model ∧ d.model.size = d.atoms.count
    rw [ht.model, ht.count]
    exact h
  | failedAssumptions =>
    show Core f assumptions d.failed
    rw [ht.failed]
    exact h
  | _ => exact h

theorem Regained.resting (h : Regained f matters c d) (hs : c.state ≠ .unsatisfiable) (hm : matters) :
    Resting f settled d := by
  rcases h.state with hstate | ⟨hstate, hf⟩
  · have hne : d.state ≠ .unsatisfiable := hstate ▸ hs
    have hrooted : Rooted f _ d := ⟨h.toSound, h.level, h.current hne hm, h.head⟩
    exact .of_quiet (hrooted.quiet h.units) hne
  · exact .of_barren (h.toSound.barren hf h.level h.head h.units) hstate

end Context

namespace Solver

open Run Context

variable {f : Formula} {assumptions : List Literal} {settled : Nat → Prop} {matters : Prop} {c d : Context}

/-- **Units that follow from the formula may be assigned at level zero**; where one is false, there is no model. -/
theorem meets_assignUnits : ∀ (units : List Literal) (d : Context), Regaining f matters c d →
    (∀ l ∈ units, f.Entails [l]) →
    Meets (assignUnits units) d (fun _ e => Regaining f matters c e ∧ Regathered units d e) (fun _ => False)
  | [], d, h, _ => ⟨h, .nil d⟩
  | l :: rest, d, h, hu => by
    have hl := hu l List.mem_cons_self
    have hrest : ∀ m ∈ rest, f.Entails [m] := fun m hm => hu m (List.mem_cons_of_mem _ hm)
    unfold assignUnits enqueue
    rw [meets_bind, meets_bind, meets_get]
    cases hstanding : d.atoms.standing l with
    | unknown => trivial
    | holds =>
      have hmem : l ∈ d.trail.literals.toList := h.trailed.standing_holds_iff.1 hstanding
      exact (meets_assignUnits rest d h hrest).mono
        (fun _ g hg => ⟨hg.1, hg.2.cons fun _ => hg.2.initial.subset hmem⟩) fun _ => id
    | free =>
      dsimp only
      rw [meets_bind]
      refine meets_assign fun e hp hpu _ => ?_
      have he : e.trail.literals.toList = d.trail.literals.toList ++ [l] := hp.literals
      have hstate : e.state = d.state := state_eq_of_course hp.course
      refine (meets_assignUnits rest e (h.push hp hpu (AtomTable.standing_eq_free_iff.1 hstanding).2 hl) hrest).mono
        (fun _ g hg => ⟨hg.1, ?_⟩) fun _ => id
      refine Regathered.cons ⟨hg.2.units.trans hpu, ?_, fun hs => hg.2.refuted (hstate.trans hs), hg.2.held⟩ fun _ => ?_
      · exact (he ▸ List.prefix_append ..).trans hg.2.initial
      · exact hg.2.initial.subset (he ▸ List.mem_append_right _ List.mem_cons_self)
    | fails =>
      show Meets (setState _ >>= _) _ _ _
      rw [meets_bind, meets_setState]
      refine (meets_assignUnits rest _ (h.refute fun ⟨v, hv⟩ => ?_) hrest).mono (fun _ g hg => ⟨hg.1, ?_⟩) fun _ => id
      · -- the unit and its negation follow from the formula
        have hn := h.trailed.standing_fails_iff.1 hstanding
        have hz := Nat.le_zero.1 (h.level ▸ h.trailed.level_le_level hn)
        obtain ⟨m, hm, hmv⟩ := h.trailed.entails_of_level_zero h.denotes hn hz v hv
        obtain ⟨k, hk, hkv⟩ := hl v hv
        rw [List.mem_singleton.1 hm, Literal.holds_negate] at hmv
        exact hmv (List.mem_singleton.1 hk ▸ hkv)
      · have hunsat : g.state = .unsatisfiable := hg.2.refuted rfl
        exact Regathered.cons ⟨hg.2.units, hg.2.initial, fun _ => hunsat, hg.2.held⟩ fun hne => absurd hunsat hne

theorem meets_assignNoted (h : Regaining f matters c d) :
    Meets (do
      let units ← modifyGet fun c => (c.pendingUnits.toList, { c with pendingUnits := #[] })
      assignUnits units) d
      (fun _ e => Regaining f matters c e ∧ Regathered d.pendingUnits.toList { d with pendingUnits := #[] } e)
      (fun _ => False) := by
  have hcurrent : matters → ({ d with pendingUnits := #[] } : Context).Current d.trail.head := fun hm a b hab =>
    h.current hm a b (hab.carry (fun _ => rfl) fun _ _ => id)
  have hcleared : Regaining f matters c { d with pendingUnits := #[] } :=
    ⟨h.toSound.withoutUnits h.level, h.toTold.carry rfl rfl, h.level, h.initial, hcurrent⟩
  rw [meets_bind, meets_modifyGet]
  exact meets_assignUnits _ _ hcleared h.denotes.units

theorem meets_assignPendingUnits (h : Regaining f matters c d) (hpend : d.pendingUnits = c.pendingUnits) :
    Meets assignPendingUnits d (fun _ e => Regained f matters c e) (fun _ => False) := by
  unfold assignPendingUnits
  rw [← bind_assoc, meets_bind]
  refine (meets_assignNoted h).mono (fun _ e ⟨he, hgathered⟩ => ?_) fun _ => id
  rw [meets_bind]
  refine (meets_propagate he.toSound fun hs => he.current hs.2).mono (fun result g hg => ?_) fun _ => id
  have htold := he.toTold.carry hg.extended.course hg.extended.count
  have hlevel : g.trail.level = 0 := hg.extended.trail_level.trans he.level
  have hinitial := he.initial.trans hg.extended.literals
  have hunits : g.pendingUnits = #[] := hg.units.trans hgathered.units
  have hheld : ∀ l ∈ c.pendingUnits.toList, g.state ≠ .unsatisfiable → l ∈ g.trail.literals.toList := fun l hl hne =>
    hg.extended.mem (hgathered.held l (hpend ▸ hl) (state_eq_of_course hg.extended.course ▸ hne))
  cases result with
  | corrupt => exact hg.verdict.elim
  | complete =>
    exact ⟨hg.sound, htold, hlevel, hinitial, hheld, hg.head, hunits, fun _ hm => hg.verdict ⟨hlevel, hm⟩⟩
  | conflict conflict =>
    have halike : Alike g { g with state := .unsatisfiable } := .of_eq rfl rfl rfl rfl rfl
    have hunsat := Refuted.unsatisfiable hg.verdict hg.sound.trailed hg.sound.denotes hlevel
    exact ⟨halike.sound hg.sound rfl, htold.refute hunsat, hlevel, hinitial, fun _ _ hne => absurd rfl hne, hg.head,
      hunits, fun hne => absurd rfl hne⟩

theorem meets_backToRoot (h : Stopped f matters c) :
    Meets (do
      backjump 0
      modify fun c => { c with trail := { c.trail with root := 0 } }) c
      (fun _ d => Regaining f matters c d ∧ d.pendingUnits = c.pendingUnits) (fun _ => False) := by
  have hsound : Sound f (fun k => k = 0 ∧ matters) c := h.toSound.weaken fun _ hk _ => hk.1
  rw [meets_bind]
  refine (meets_backjump hsound).mono (fun _ d ⟨hs, hsame, hjump⟩ => ?_) fun _ => id
  have hback : d.trail.level = 0 ∧ c.trail.upTo 0 <+: d.trail.literals.toList ∧ (matters → d.Current d.trail.head) ∧
      d.course = c.course ∧ d.atoms.count = c.atoms.count ∧ d.pendingUnits = c.pendingUnits := by
    by_cases hlt : 0 < c.trail.level
    · obtain ⟨hj, hcur⟩ := hjump hlt
      exact ⟨hj.level, hj.literals ▸ List.prefix_refl _, fun hm => hj.head ▸ hcur ⟨rfl, hm⟩, hj.course, hj.count, hj.units⟩
    · have hz := Nat.eq_zero_of_not_pos hlt
      rw [hsame (Nat.le_of_eq hz)]
      exact ⟨hz, Trail.before_of_size_le (Nat.le_refl _) ▸ Trail.before_initial (h.trailed.layered.start_le_size _),
        fun hm => h.current hm hz, rfl, rfl, rfl⟩
  obtain ⟨hlevel, hinitial, hcur, hcourse, hcount, hunits⟩ := hback
  rw [meets_modify]
  have halike : Alike d { d with trail := { d.trail with root := 0 } } :=
    ⟨rfl, rfl, fun ht => ⟨ht.sorted, ht.bounded, ht.head⟩, rfl, id, .refl _, rfl, rfl⟩
  have htold : Told f c d := (Told.refl c).carry hcourse hcount
  exact ⟨⟨halike.sound hs rfl, ⟨htold.state, htold.model, htold.failed, htold.pending, htold.count⟩, hlevel, hinitial,
    fun hm => halike.current (hcur hm)⟩, hunits⟩

/-- **Back at level zero the invariant holds**, and what was told of the solve stays, unless there is no model. -/
theorem meets_returnToRoot (h : Stopped f matters c) :
    Meets returnToRoot c (fun _ d => Regained f matters c d) (fun _ => False) := by
  unfold returnToRoot
  rw [← bind_assoc, meets_bind]
  exact (meets_backToRoot h).mono (fun _ d hd => meets_assignPendingUnits hd.1 hd.2) fun _ => id

/-! ## The way there -/

theorem meets_prepare (h : Rooted f settled c) :
    Meets prepare c (fun _ d => Sound f settled d ∧ Trimmed c d) (fun d => Sound f settled d ∧ Trimmed c d) := by
  unfold prepare
  rw [meets_bind, meets_get, meets_ite]
  refine ⟨fun _ => meets_simplify h, fun _ => ?_⟩
  rw [meets_bind]
  exact (answers_propagate_rest h.head ⟨h.toSound, .refl c⟩).meets

theorem meets_nextBudget {luby : Luby} {conflictsBefore : Nat} :
    Meets (nextBudget luby conflictsBefore) c (fun _ d => d = c) (fun _ => False) := by
  unfold nextBudget
  rw [meets_bind, meets_get]
  dsimp only
  rw [meets_ite]
  refine ⟨fun _ => rfl, fun _ => ?_⟩
  rw [meets_bind, meets_require]
  intro _
  rw [meets_ite]
  exact ⟨fun _ => rfl, fun _ => rfl⟩

theorem meets_askStop {Q : Bool → Context → Prop} {E : Context → Prop} (h : ∀ stop listeners, Q stop { c with listeners }) :
    Meets askStop c Q E := h _ _

/-- **Searches follow each other until one has an answer.** -/
theorem meets_searchAll {root conflictsBefore : Nat} : ∀ (fuel : Nat) (luby : Luby) (c : Context),
    Poised f assumptions root c →
    Meets (searchAll conflictsBefore fuel luby) c (fun state d => Steady c d ∧ Ended f assumptions root state d)
      (fun d => Steady c d ∧ Stopped f True d)
  | 0, _, _, _ => trivial
  | fuel + 1, luby, c, h => by
    have hunknown : ∀ d, Poised f assumptions root d → Ended f assumptions root .unknown d :=
      fun d hd => ⟨hd.stopped hd.current _, trivial, fun _ => hd⟩
    unfold searchAll
    rw [meets_bind]
    refine meets_nextBudget.mono (fun next d hd => ?_) fun _ => False.elim
    subst hd
    cases next with
    | none => exact ⟨.refl d, hunknown d h⟩
    | some next =>
      obtain ⟨budget, luby⟩ := next
      dsimp only
      rw [meets_bind]
      refine (meets_search h).mono (fun state e ⟨hs, he⟩ => ?_) fun _ => id
      by_cases hstate : state = .unknown
      · have hagain := he.again hstate
        subst hstate
        dsimp only
        rw [meets_bind, meets_count, meets_bind]
        refine meets_askStop fun stop listeners => ?_
        have halike : Alike e { e with
            counters := { e.counters with restarts := e.counters.restarts + 1 }, listeners } := .of_eq rfl rfl rfl rfl rfl
        have hagain := hagain.alike halike rfl rfl rfl
        rw [meets_ite]
        refine ⟨fun _ => ⟨⟨hs.state, hs.pending, hs.count⟩, hunknown _ hagain⟩, fun _ => ?_⟩
        exact (meets_searchAll fuel luby _ hagain).mono
          (fun _ g hg => ⟨hs.trans ⟨hg.1.state, hg.1.pending, hg.1.count⟩, hg.2⟩)
          fun g hg => ⟨hs.trans ⟨hg.1.state, hg.1.pending, hg.1.count⟩, hg.2⟩
      · cases state with
        | unknown => exact absurd rfl hstate
        | _ => exact ⟨hs, he⟩

theorem meets_startSchedule {Q : Unit → Context → Prop} {E : Context → Prop} (h : ∀ schedule, Q () { c with schedule }) :
    Meets startSchedule c Q E := h _

theorem meets_setOut {root : Nat} (h : Rooted f (fun _ => True) c) (hu : c.pendingUnits = #[])
    (hs : c.state ≠ .unsatisfiable) :
    Meets (do
      startSchedule
      modify fun c => { c with trail := { c.trail with root } }) c
      (fun _ d => Steady c d ∧ Outset f root d) (fun _ => False) := by
  rw [meets_bind]
  refine meets_startSchedule fun schedule => ?_
  rw [meets_modify]
  have halike : Alike c { c with schedule, trail := { c.trail with root } } :=
    ⟨rfl, rfl, fun ht => ⟨ht.sorted, ht.bounded, ht.head⟩, rfl, id, .refl _, rfl, rfl⟩
  exact ⟨⟨rfl, rfl, rfl⟩, ⟨halike.sound h.toSound rfl, h.level, halike.current h.current, h.head⟩, hu, hs, rfl⟩

theorem meets_makeAssumptions (h : Outset f assumptions.length c) :
    Meets (assumeEach assumptions) c (fun failed d => Steady c d ∧
      (failed = true → Stopped f True d ∧ Core f assumptions d.failed) ∧
      (failed = false → Poised f assumptions assumptions.length d)) (fun _ => False) := by
  refine (meets_assumeEach assumptions [] c (h.toRooted.assuming h.units) fun hn => ?_).mono
    (fun failed d ⟨hs, htrue, hfalse⟩ => ⟨hs, htrue, fun hf => ?_⟩) fun _ => id
  · rw [h.ends]
    exact fun hz => hn (List.eq_nil_of_length_eq_zero hz)
  · obtain ⟨hd, hlevel, hroot⟩ := hfalse hf
    rw [h.level, Nat.zero_add] at hlevel
    exact hd.poised (hs.state ▸ h.consistent) hlevel (hroot.trans h.ends)

/-- **A solve from level zero stops with an answer that is so.** -/
theorem meets_solveFromRoot {fuel : Nat} (h : Rooted f settled c) (hunits : c.pendingUnits = #[])
    (hstate : c.state ≠ .unsatisfiable) :
    Meets (solveFromRoot fuel assumptions) c
      (fun state d => Steady c d ∧ Stopped f (state ≠ .unsatisfiable) d ∧ Answered f assumptions d state)
      (fun d => Steady c d ∧ Stopped f True d) := by
  have hall : Rooted f (fun _ => True) c := h.anywhere
  unfold solveFromRoot
  rw [meets_bind]
  refine (meets_prepare hall).mono (fun _ d ⟨hs, ht⟩ => ?_) fun d ⟨hs, ht⟩ => ?_
  · have hd : Rooted f (fun _ => True) d := hall.trimmed hs ht
    rw [meets_bind, meets_get, meets_ite]
    refine ⟨fun he => absurd ((state_eq_of_course ht.course).symm.trans he) hstate, fun hne => ?_⟩
    show Meets (startSchedule >>= fun _ => modify _ >>= fun _ => assumeEach assumptions >>= _) _ _ _
    rw [← bind_assoc, meets_bind]
    refine (meets_setOut hd (ht.units.trans hunits) hne).mono (fun _ e ⟨hse, he⟩ => ?_) fun _ => False.elim
    have hsteady : Steady c e := (Steady.of_course ht.course (by rw [ht.atoms])).trans hse
    rw [meets_bind]
    refine (meets_makeAssumptions he).mono (fun failed g ⟨hsg, htrue, hfalse⟩ => ?_) fun _ => False.elim
    cases failed with
    | true =>
      obtain ⟨hstopped, hcore⟩ := htrue rfl
      exact ⟨hsteady.trans hsg, ⟨hstopped.toSound, fun _ => hstopped.current trivial, hstopped.noted⟩, hcore⟩
    | false =>
      rw [if_neg nofun, meets_bind, meets_get]
      exact (meets_searchAll fuel _ g (hfalse rfl)).mono
        (fun state k hk => ⟨(hsteady.trans hsg).trans hk.1, hk.2.toStopped, hk.2.answered⟩)
        fun k hk => ⟨(hsteady.trans hsg).trans hk.1, hk.2⟩
  · refine ⟨.of_course ht.course (by rw [ht.atoms]), hs.weaken fun _ _ _ => trivial, fun _ _ => ?_,
      0, .of_none (ht.units.trans hunits)⟩
    rw [ht.trail, h.head]
    exact ht.current h.current

/-- Wherever the work of a solve stops, the way back may begin. -/
theorem meets_attemptFromRoot {fuel : Nat} (h : Rooted f settled c) (hunits : c.pendingUnits = #[])
    (hstate : c.state ≠ .unsatisfiable) :
    Meets (Run.attempt (solveFromRoot fuel assumptions)) c (fun _ d => Stopped f False d) (fun _ => False) :=
  meets_attempt ((meets_solveFromRoot h hunits hstate).mono
    (fun _ _ hd => ⟨hd.2.1.toSound, nofun, hd.2.1.noted⟩) fun _ hd _ => ⟨hd.2.toSound, nofun, hd.2.noted⟩)

theorem meets_conclude {state : SolveState} {b : Context} (h : Regained f (state ≠ .unsatisfiable) c d)
    (hs : c.state ≠ .unsatisfiable) (ha : Answered f assumptions c state) (hp : c.pending = none)
    (hn : c.atoms.count = b.atoms.count) :
    Meets (conclude state) d (Concluded f settled assumptions b) (fun _ => False) := by
  have hd := ha.carry h.toTold
  have hpending : d.pending = none := h.pending.trans hp
  have hcount : d.atoms.count = b.atoms.count := h.count.trans hn
  unfold conclude
  rw [meets_bind, meets_modify, meets_bind, meets_get, meets_pure]
  dsimp only
  by_cases hun : d.state = .unsatisfiable
  · have hf : ¬f.Satisfiable := (h.state.resolve_left fun he => hs (he.symm.trans hun)).2
    have hother : ∀ {state : SolveState}, state ≠ .unsatisfiable → d.state ≠ state := fun hne he => hne (he.symm.trans hun)
    rw [if_pos hun, if_neg (show d.state ≠ .failedAssumptions from hother nofun)]
    have halike : Alike d { d with failed := [] } := .of_eq rfl rfl rfl rfl rfl
    exact ⟨.of_barren ((halike.sound h.toSound rfl).barren hf h.level h.head h.units) hun, rfl,
      fun he => absurd he (hother nofun), fun he => absurd he (hother nofun), hpending, hcount⟩
  · rw [if_neg hun]
    have hresting : ∀ failed, Resting f settled { d with state, failed } := fun failed => by
      have halike : Alike d { d with state, failed } := .of_eq rfl rfl rfl rfl rfl
      by_cases hstate : state = .unsatisfiable
      · subst hstate
        exact .of_barren ((halike.sound h.toSound rfl).barren hd h.level h.head h.units) rfl
      · have hquiet : Quiet f settled d := (h.resting hs hstate).quiet hun
        exact .of_quiet (hquiet.alike halike rfl rfl) hstate
    split
    · rename_i hfailed
      have hfailed : state = .failedAssumptions := hfailed
      subst hfailed
      exact ⟨hresting d.failed, rfl, nofun, fun _ => hd, hpending, hcount⟩
    · rename_i hother
      refine ⟨hresting [], rfl, fun he => ?_, fun he => absurd he hother, hpending, hcount⟩
      have he : state = .satisfiable := he
      subst he
      exact hd

theorem meets_enter (h : Quiet f settled c) (hz : settled 0) :
    Meets (do
      backjump 0
      setState .solving) c
      (fun _ d => Rooted f settled d ∧ d.pendingUnits = #[] ∧ d.state = .solving ∧ d.pending = c.pending ∧
        d.atoms.count = c.atoms.count) (fun _ => False) := by
  have hsolving : ∀ d, Rooted f settled d → Rooted f settled { d with state := .solving } := fun d hd =>
    have halike : Alike d { d with state := .solving } := .of_eq rfl rfl rfl rfl rfl
    ⟨halike.sound hd.toSound rfl, hd.level, halike.current hd.current, hd.head⟩
  rw [meets_bind]
  refine (meets_backjump h.toSound).mono (fun _ d ⟨hd, hsame, hjump⟩ => ?_) fun _ => id
  rw [meets_setState]
  by_cases hlt : 0 < c.trail.level
  · obtain ⟨hj, hcur⟩ := hjump hlt
    exact ⟨hsolving d ⟨hd, hj.level, hcur hz, hj.head⟩, hj.units.trans h.units, rfl,
      (pending_eq_of_course hj.course : d.pending = c.pending), hj.count⟩
  · have hlevel := Nat.eq_zero_of_not_pos hlt
    rw [hsame (Nat.le_of_eq hlevel)]
    exact ⟨hsolving c (h.rooted hz hlevel), h.units, rfl, rfl, rfl⟩

/-- **A solve keeps the invariant, and what it tells is so.** -/
theorem meets_solveGiven {fuel : Nat} (h : Resting f settled c) (hz : settled 0) :
    Meets (solveGiven fuel assumptions) c (Concluded f settled assumptions c)
      (fun d => Resting f settled d ∧ d.pending = none ∧ d.atoms.count = c.atoms.count ∧
        (d.state = .satisfiable → d.model = #[])) := by
  unfold solveGiven
  rw [meets_bind, meets_modify, meets_bind, meets_get]
  generalize hb : ({ c with model := #[], failed := [], pending := none } : Context) = b
  have halike : Alike c b := hb ▸ .of_eq rfl rfl rfl rfl rfl
  have hstate : b.state = c.state := hb ▸ rfl
  have hpending : b.pending = none := hb ▸ rfl
  have hmodel : b.model = #[] := hb ▸ rfl
  rw [meets_ite]
  constructor
  · intro hs
    have hunsat : ∀ {state : SolveState}, state ≠ .unsatisfiable → b.state ≠ state := fun hne he => hne (he.symm.trans hs)
    exact ⟨.of_barren ((h.barren (hstate.symm.trans hs)).alike halike (hb ▸ rfl) (hb ▸ rfl)) hs,
      (congrArg SolveState.report hs).symm,
      fun he => absurd he (hunsat nofun), fun he => absurd he (hunsat nofun), hpending, halike.count⟩
  intro hs
  have hb' : Quiet f settled b := (h.quiet (hstate ▸ hs)).alike halike (hb ▸ rfl) (hb ▸ rfl)
  rw [meets_ite]
  refine ⟨fun _ => ⟨.of_quiet hb' hs, hpending, halike.count, fun _ => hmodel⟩, fun _ => ?_⟩
  show Meets (backjump 0 >>= fun _ => setState .solving >>= _) _ _ _
  rw [← bind_assoc, meets_bind]
  refine (meets_enter hb' hz).mono (fun _ d ⟨hd, hunits, hsolving, hpend, hcount⟩ => ?_) fun _ => False.elim
  have hpending' : d.pending = none := hpend.trans hpending
  have hcount' : d.atoms.count = c.atoms.count := hcount.trans halike.count
  rw [meets_bind]
  refine meets_attempt ((meets_solveFromRoot hd hunits (hsolving ▸ nofun)).mono
    (fun state e ⟨hsteady, hstopped, ha⟩ => ?_) fun e ⟨hsteady, hstopped⟩ failure => ?_)
  · have hne : e.state ≠ .unsatisfiable := hsteady.state ▸ hsolving ▸ nofun
    rw [meets_bind]
    refine (meets_returnToRoot hstopped).mono (fun _ g hg => ?_) fun _ => False.elim
    exact (meets_conclude hg hne ha (hsteady.pending.trans hpending') (hsteady.count.trans hcount')).mono
      (fun _ _ => id) fun _ => False.elim
  · have hne : e.state ≠ .unsatisfiable := hsteady.state ▸ hsolving ▸ nofun
    rw [meets_bind]
    refine (meets_returnToRoot hstopped).mono (fun _ g hg => ?_) fun _ => False.elim
    refine ⟨hg.resting hne trivial, hg.pending.trans (hsteady.pending.trans hpending'),
      hg.count.trans (hsteady.count.trans hcount'), fun he => ?_⟩
    have hstate : e.state = .solving := hsteady.state.trans hsolving
    rcases hg.state with hsame | ⟨hunsat, -⟩
    · rw [hsame, hstate] at he
      cases he
    · rw [hunsat] at he
      cases he

end Solver
end Cdcl
