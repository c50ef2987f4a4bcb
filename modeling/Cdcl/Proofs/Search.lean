import Cdcl.Proofs.Assumptions
import Cdcl.Proofs.Learning
import Cdcl.Proofs.Reduction
import Cdcl.Proofs.Simplification
/-!
# Search — what a search answers is so

A search stays above the assumptions, and keeps every level from the root level on settled (`Searching`).  When all is
propagated and every atom has a value, the values are a model (`models_currentModel`); a conflict at level zero shows that
there is none; one at the root level gives a core.  What a search ends with is said by `Ended`.
-/
namespace Cdcl

/-- An array of values makes a formula true, and some assumptions. -/
structure Models (f : Formula) (assumptions : List Literal) (model : Array Bool) : Prop where
  clauses : ∀ clause ∈ f, clause.satisfiedBy model = true
  assumptions : ∀ l ∈ assumptions, model[l.atom]? = some l.positive

namespace Context

/-- What an answer says. -/
def Answered (f : Formula) (assumptions : List Literal) (c : Context) : SolveState → Prop
  | .satisfiable => Models f assumptions c.model ∧ c.model.size = c.atoms.count
  | .unsatisfiable => ¬f.Satisfiable
  | .failedAssumptions => Core f assumptions c.failed
  | _ => True

/-- The invariant of a search.  The assumptions are on the levels up to the root level. -/
structure Searching (f : Formula) (assumptions : List Literal) (root : Nat) (c : Context) : Prop
    extends Sound f (fun k => k = 0 ∨ root ≤ k) c where
  consistent : c.state ≠ .unsatisfiable
  ends : c.trail.root = root
  level : root ≤ c.trail.level
  supposed : Supposed assumptions root c
  noted : Noted root c
  anchored : c.Anchored root

/-- All is propagated. -/
structure Complete (f : Formula) (assumptions : List Literal) (root : Nat) (c : Context) : Prop
    extends Searching f assumptions root c where
  current : c.Current c.trail.size
  head : c.trail.head = c.trail.size

/-- A search that is about to propagate.  Above the root level, what is yet to be propagated is of the current level. -/
structure Poised (f : Formula) (assumptions : List Literal) (root : Nat) (c : Context) : Prop
    extends Searching f assumptions root c where
  current : c.Current c.trail.head
  fresh : root < c.trail.level → c.Fresh

/-- What is known where a search ends.  If it may be taken up again it is where it can be. -/
structure Ended (f : Formula) (assumptions : List Literal) (root : Nat) (state : SolveState) (c : Context) : Prop
    extends Stopped f (state ≠ .unsatisfiable) c where
  answered : Answered f assumptions c state
  again : state = .unknown → Poised f assumptions root c

/-- The values of the atoms.  An atom without one counts as false. -/
def currentValuation (c : Context) : Valuation := fun a => (c.atoms.value a).getD false

/-- What is known after a step of a search: it has ended, or may go on. -/
def Searched (f : Formula) (assumptions : List Literal) (root : Nat) (c : Context) : Option SolveState → Context → Prop
  | some state, d => Steady c d ∧ Ended f assumptions root state d
  | none, d => Steady c d ∧ Poised f assumptions root d

variable {f : Formula} {assumptions : List Literal} {settled : Nat → Prop} {root : Nat} {c d e : Context} {l : Literal}

/-! ## The model -/

theorem getElem?_currentModel (c : Context) (a : Nat) :
    (Solver.currentModel c)[a]? = (c.atoms.records[a]?).map fun r => r.value.getD false := by
  unfold Solver.currentModel
  rw [Array.getElem?_map]

theorem Trailed.getElem?_currentModel (h : Trailed f c) (hl : l ∈ c.trail.literals.toList) :
    (Solver.currentModel c)[l.atom]? = some l.positive := by
  rw [Context.getElem?_currentModel]
  have hv := (h.value l).2 hl
  rw [AtomTable.value_eq] at hv
  cases hr : c.atoms.records[l.atom]? with
  | none =>
    rw [hr] at hv
    cases hv
  | some r =>
    rw [hr] at hv
    show some (r.value.getD false) = _
    rw [show r.value = some l.positive from hv]
    rfl

theorem Trailed.holds_currentValuation_iff (h : Trailed f c) (hv : c.atoms.value l.atom ≠ none) :
    l.Holds c.currentValuation ↔ l ∈ c.trail.literals.toList := by
  rw [← h.value]
  show (c.atoms.value l.atom).getD false = _ ↔ _
  cases hb : c.atoms.value l.atom with
  | none => exact absurd hb hv
  | some b => simp

theorem Trailed.holds_currentValuation (h : Trailed f c) (hl : l ∈ c.trail.literals.toList) :
    l.Holds c.currentValuation :=
  (h.holds_currentValuation_iff (by rw [(h.value l).2 hl]; nofun)).2 hl

/-- **When all is propagated and every atom has a value, the formula holds under the values.** -/
theorem Sound.holds_currentValuation (h : Sound f settled c) (hc : c.Current c.trail.size)
    (hall : ∀ a < c.atoms.count, c.atoms.value a ≠ none) : f.Holds c.currentValuation := by
  rw [Current, Trail.before_of_size_le (Nat.le_refl _)] at hc
  -- where the first of two partners is false, the second is true
  have hpair : ∀ a b, c.Partners a b → a.atom < c.atoms.count →
      a.Holds c.currentValuation ∨ b.Holds c.currentValuation := fun a b hab hk => by
    by_cases hav : a.Holds c.currentValuation
    · exact .inl hav
    · have hk' : a.negate.atom < c.atoms.count := by rwa [Literal.atom_negate]
      rw [← Literal.holds_negate, h.trailed.holds_currentValuation_iff (hall _ hk')] at hav
      exact .inr (h.trailed.holds_currentValuation (hc a b hab hav))
  refine h.denotes.complete _ (fun a b hb => ?_) (fun key ls _ hk => ?_) fun l hl =>
    h.trailed.holds_currentValuation (Trail.upTo_subset_literals hl)
  · have := hpair a b (.binary hb) (h.shaped.binary a b hb).2.1
    simpa using this
  · obtain ⟨-, -, hknown⟩ := h.shaped.long key ls hk
    obtain ⟨a, b, rest, rfl⟩ := h.shaped.exists_watched hk
    rcases hpair a b (.first hk) (hknown a List.mem_cons_self) with hx | hx
    · exact ⟨a, by simp, hx⟩
    · exact ⟨b, by simp, hx⟩

/-- **When all is propagated and every atom has a value, the values are a model.** -/
theorem models_currentModel (h : Sound f settled c) (hc : c.Current c.trail.size)
    (hall : ∀ a < c.atoms.count, c.atoms.value a ≠ none) (ha : ∀ l ∈ assumptions, l ∈ c.trail.literals.toList) :
    Models f assumptions (Solver.currentModel c) := by
  refine ⟨fun clause hclause => ?_, fun l hl => h.trailed.getElem?_currentModel (ha l hl)⟩
  obtain ⟨l, hl, hlv⟩ := h.holds_currentValuation hc hall clause hclause
  have hv := hall _ (h.denotes.known clause hclause l hl)
  exact Clause.satisfiedBy_iff.2 ⟨l, hl, h.trailed.getElem?_currentModel ((h.trailed.holds_currentValuation_iff hv).1 hlv)⟩

/-! ## Steps that keep the invariant -/

theorem Searching.carry (h : Searching f assumptions root c) (hs : Sound f (fun k => k = 0 ∨ root ≤ k) d)
    (hstate : d.state = c.state) (hroot : d.trail.root = c.trail.root) (hlevel : root ≤ d.trail.level)
    (hu : Upholds root c d) (hn : Noted root d) (ha : d.Anchored root) : Searching f assumptions root d :=
  ⟨hs, fun he => h.consistent (hstate.symm.trans he), hroot.trans h.ends, hlevel, h.supposed.carry hu, hn, ha⟩

theorem Searching.extend (h : Searching f assumptions root c) (hs : Sound f (fun k => k = 0 ∨ root ≤ k) d)
    (he : Extends c d) (hn : d.pendingUnits = c.pendingUnits) (ha : d.Anchored root) : Searching f assumptions root d :=
  have hu := he.upholds h.trailed hs.trailed root
  h.carry hs (state_eq_of_course he.course) (root_eq_of_course he.course) (he.trail_level ▸ h.level) hu
    (h.noted.carry hu hn) ha

theorem Searching.trimmed (h : Searching f assumptions root c) (hs : Sound f (fun k => k = 0 ∨ root ≤ k) d)
    (ht : Trimmed c d) : Searching f assumptions root d :=
  h.extend hs ht.toExtends ht.units (ht.anchored h.trailed hs.trailed h.anchored)

/-- **What propagation comes to is of the current level**, or of the levels of the assumptions. -/
theorem Poised.propagated {result : Propagated} (h : Poised f assumptions root c)
    (hd : Propagates f (fun k => k = 0 ∨ root ≤ k) c result d) : Searching f assumptions root d := by
  refine h.extend hd.sound hd.extended hd.units ?_
  rcases Nat.lt_or_ge root c.trail.level with hlt | hle
  · exact hd.anchored h.trailed h.anchored (h.fresh hlt)
  · exact .of_level_le hd.sound.trailed (hd.extended.trail_level ▸ hle)

theorem Poised.complete (h : Poised f assumptions root c)
    (hd : Propagates f (fun k => k = 0 ∨ root ≤ k) c .complete d) : Complete f assumptions root d :=
  have hsearch := h.propagated hd
  ⟨hsearch, hd.verdict (.inr hsearch.level), hd.head⟩

/-- Above the root level, the conflict that a search propagates to is one of the current level. -/
theorem Poised.here {conflict : Conflict} (h : Poised f assumptions root c)
    (hd : Propagates f (fun k => k = 0 ∨ root ≤ k) c (.conflict conflict) d) (hlt : root < d.trail.level) :
    d.Here conflict :=
  Propagates.here hd h.trailed.layered (h.fresh (hd.extended.trail_level ▸ hlt))

theorem Searching.alike (h : Searching f assumptions root c) (ha : Alike c d) (hm : d.marks = c.marks)
    (hcourse : d.course = c.course) : Searching f assumptions root d :=
  h.carry (ha.sound h.toSound hm) (state_eq_of_course hcourse) (root_eq_of_course hcourse) (ha.level ▸ h.level)
    (ha.upholds root) (h.noted.carry (ha.upholds root) ha.units) (ha.anchored h.trailed h.anchored)

theorem Searching.jump {target : Nat} (h : Searching f assumptions root c)
    (hs : Sound f (fun k => k = 0 ∨ root ≤ k) d) (hj : Jumped c target d) (ht : root ≤ target) :
    Searching f assumptions root d :=
  h.carry hs (state_eq_of_course hj.course) (root_eq_of_course hj.course) (hj.level.symm ▸ ht) (hj.upholds ht)
    (h.noted.carry (hj.upholds ht) hj.units) (hj.anchored h.trailed hs.trailed h.anchored)

/-- A learnt clause leaves a pending unit, if a unit, at the root level alone. -/
theorem Searching.learnt {first : Literal} {rest : Clause} (h : Searching f assumptions root c)
    (hl : Learnt f (fun k => k = 0 ∨ root ≤ k) c first rest d) (hr : rest = [] → c.trail.level = root)
    (ha : d.Anchored root) : Searching f assumptions root d := by
  have he := hl.extended
  have hu := he.upholds h.trailed hl.sound.trailed root
  refine h.carry hl.sound (state_eq_of_course he.course) (root_eq_of_course he.course) (he.trail_level ▸ h.level) hu ?_ ha
  rcases hl.units with hsame | ⟨hnil, -, hpush, hz⟩
  · exact h.noted.carry hu hsame
  · intro l hmem
    rw [hpush, Array.toList_push, List.mem_append, List.mem_singleton] at hmem
    rcases hmem with hmem | rfl
    · exact h.noted.upheld hu hmem
    · refine ⟨?_, hz⟩
      rw [Trail.upTo_of_level_le (Nat.le_of_eq (he.trail_level.trans (hr hnil))), hl.literals]
      simp

theorem Searching.stopped (h : Searching f assumptions root c) (hc : c.Current c.trail.head) (matters : Prop) :
    Stopped f matters c :=
  ⟨h.toSound.weaken fun _ hk _ => .inl hk, fun _ _ => hc, root, h.noted⟩

theorem Poised.alike (h : Poised f assumptions root c) (ha : Alike c d) (hm : d.marks = c.marks)
    (hcourse : d.course = c.course) (hh : d.trail.head = c.trail.head) : Poised f assumptions root d where
  toSearching := h.toSearching.alike ha hm hcourse
  current := hh ▸ ha.current h.current
  fresh hlt i l hi hl := by
    rw [ha.levelOrZero, ha.level]
    rw [ha.level] at hlt
    exact h.fresh hlt i l (hh ▸ hi) (ha.literals ▸ hl)

theorem Searching.poised (h : Searching f assumptions root c) (hl : c.trail.level = root)
    (hc : c.Current c.trail.head) : Poised f assumptions root c :=
  ⟨h, hc, fun hlt => absurd hl (Nat.ne_of_gt hlt)⟩

theorem Searched.of_steady {answer : Option SolveState} (h : Searched f assumptions root d answer e) (hs : Steady c d) :
    Searched f assumptions root c answer e := by
  cases answer with
  | none => exact ⟨hs.trans h.1, h.2⟩
  | some state => exact ⟨hs.trans h.1, h.2⟩

theorem Complete.current_head (h : Complete f assumptions root c) : c.Current c.trail.head := h.head ▸ h.current

theorem Complete.poised (h : Complete f assumptions root c) : Poised f assumptions root c :=
  ⟨h.toSearching, h.current_head, fun _ => .of_head h.head⟩

theorem Complete.trimmed (h : Complete f assumptions root c) (hs : Sound f (fun k => k = 0 ∨ root ≤ k) d)
    (ht : Trimmed c d) : Complete f assumptions root d where
  toSearching := h.toSearching.trimmed hs ht
  current := by
    rw [ht.trail]
    exact ht.current h.current
  head := by
    rw [ht.trail]
    exact h.head

end Context

namespace Solver

open Run Context

variable {f : Formula} {assumptions : List Literal} {root : Nat} {c d : Context}

theorem meets_steady {m : Solver (Option SolveState)} (hs : Steady c d)
    (h : Meets m d (Searched f assumptions root d) (fun e => Steady d e ∧ Stopped f True e)) :
    Meets m d (Searched f assumptions root c) (fun e => Steady c e ∧ Stopped f True e) :=
  h.mono (fun _ _ he => he.of_steady hs) fun _ he => ⟨hs.trans he.1, he.2⟩

theorem meets_backjumpRoot (h : Complete f assumptions root c) :
    Meets (backjump root) c (fun _ d => d.course = c.course ∧ d.atoms.count = c.atoms.count ∧
      Poised f assumptions root d) (fun _ => False) := by
  refine (meets_backjump h.toSound).mono (fun _ d ⟨hs, hsame, hjump⟩ => ?_) fun _ => id
  by_cases hlt : root < c.trail.level
  · obtain ⟨hj, hcur⟩ := hjump hlt
    exact ⟨hj.course, hj.count,
      (h.jump hs hj (Nat.le_refl _)).poised hj.level (hj.head ▸ hcur (.inr (Nat.le_refl _)))⟩
  · rw [hsame (Nat.le_of_not_lt hlt)]
    exact ⟨rfl, rfl, h.poised⟩

theorem meets_countdown {Q : Unit → Context → Prop} {E : Context → Prop} (h : ∀ schedule, Q () { c with schedule }) :
    Meets countdown c Q E := by
  unfold countdown
  rw [meets_bind, meets_get, meets_bind, meets_require]
  intro _
  rw [meets_ite]
  exact ⟨fun _ => h _, fun _ => h _⟩

/-- **Above the root level, a conflict is learnt from.** -/
theorem meets_learnFrom {conflict : Conflict} (h : Searching f assumptions root c) (hr : Refuted f c conflict)
    (hh : c.Here conflict) (hlevel : root < c.trail.level) :
    Meets (do
      let learnt ← analyzeConflict conflict
      backjump (max learnt.level root)
      learn learnt.clause
      modify fun c => { c with clauses := c.clauses.decay }
      countdown
      pure none) c (Searched f assumptions root c) (fun d => Steady c d ∧ Stopped f True d) := by
  have hpos : 0 < c.trail.level := Nat.zero_lt_of_lt hlevel
  rw [meets_bind]
  refine (answers_analyzeConflict h.toBase h.marks hr hh hpos).meets.mono (fun learnt d ⟨hd, first, rest, hl⟩ => ?_)
    fun _ => False.elim
  have hsearch := h.alike hd.toAlike (hd.marks.trans h.marks.symm) hd.course
  have hlt : max learnt.level root < d.trail.level := by
    have := hl.below
    have := hd.level
    omega
  rw [meets_bind]
  refine (meets_backjump hsearch.toSound).mono (fun _ e ⟨hse, _, hjump⟩ => ?_) fun _ => False.elim
  obtain ⟨hj, hcur⟩ := hjump hlt
  have hcur := hcur (.inr (Nat.le_max_right ..))
  have hsearch' := hsearch.jump hse hj (Nat.le_max_right ..)
  have hasserting : Asserting f (fun k => k = 0 ∨ root ≤ k) e first rest :=
    (hl.alike hd.toAlike).asserting_jumped hsearch.trailed hj hse.trailed (Nat.le_max_left ..) hlt
      fun k hk hkt => by omega
  have hsteady : Steady c e := .of_course (hj.course.trans hd.course) (hj.count.trans hd.count)
  rw [hl.clause, meets_bind]
  refine (meets_learn hse hasserting).mono (fun _ g hg => ?_) fun g ⟨hsg, ht⟩ => ?_
  · rw [meets_bind, meets_modify, meets_bind]
    refine meets_countdown fun schedule => ?_
    have halike : Alike g { g with clauses := g.clauses.decay, schedule } :=
      ⟨rfl, rfl, id, rfl, id, ClauseStore.alike_decay _, rfl, rfl⟩
    have hpoised : Poised f assumptions root g := by
      refine ⟨hsearch'.learnt hg (fun hnil => ?_) ?_, ?_, fun hroot => ?_⟩
      · rw [hj.level, hl.unit hnil, Nat.zero_max]
      · refine hg.anchored hasserting (fun hroot => ?_) hse.trailed hsearch'.anchored
        rw [hj.level] at hroot
        exact (hl.alike hd.toAlike).second_level_jumped hsearch.trailed hj (by omega) (by omega)
      · rw [hg.head, hj.head]
        exact hg.current hcur
      · -- a unit is learnt at the root level
        refine hg.fresh hse.trailed.layered hj.head fun hnil => ?_
        rw [hg.extended.trail_level, hj.level, hl.unit hnil] at hroot
        omega
    exact ⟨hsteady.trans (.of_course hg.extended.course hg.extended.count), hpoised.alike halike rfl rfl rfl⟩
  · refine ⟨hsteady.trans (.of_course ht.course (by rw [ht.atoms])), ?_⟩
    refine (hsearch'.trimmed hsg ht).stopped ?_ True
    rw [ht.trail, hj.head]
    exact ht.current hcur

/-- **A conflict ends a search, or a clause is learnt.** -/
theorem meets_atConflict {conflict : Conflict} (h : Searching f assumptions root c) (hr : Refuted f c conflict)
    (hh : root < c.trail.level → c.Here conflict) :
    Meets (atConflict conflict) c (Searched f assumptions root c) (fun d => Steady c d ∧ Stopped f True d) := by
  unfold atConflict
  rw [meets_bind, meets_count, meets_bind, meets_get]
  dsimp only
  generalize hd : ({ c with counters := _ } : Context) = d
  have halike : Alike c d := hd ▸ .of_eq rfl rfl rfl rfl rfl
  have hcourse : d.course = c.course := hd ▸ rfl
  have hsearch := h.alike halike (hd ▸ rfl) hcourse
  have hsteady : Steady c d := .of_course hcourse halike.count
  rw [show c.trail = d.trail from hd ▸ rfl, meets_ite]
  constructor
  · intro hz
    refine ⟨hsteady, ⟨hsearch.toSound.weaken fun _ hk _ => .inl hk, fun hne => absurd rfl hne, root, hsearch.noted⟩, ?_, nofun⟩
    exact (hr.alike halike).unsatisfiable hsearch.trailed hsearch.denotes hz
  intro hpos
  rw [meets_ite]
  constructor
  · intro hle
    have hroot : d.trail.level = root := Nat.le_antisymm (hsearch.ends ▸ hle) hsearch.level
    rw [meets_bind]
    refine (meets_blame hsearch.toSound (hroot ▸ hsearch.supposed) (hr.alike halike) (by omega)).mono
      (fun failed e ⟨he, hcore⟩ => ?_) fun _ => False.elim
    rw [meets_bind, meets_modify, meets_pure]
    exact ⟨hsteady.trans (he.steady failed), ⟨he.stopped hsearch.toSound hsearch.noted (.inl rfl)
      (fun hz => absurd hz hpos) _ failed,
      hcore, nofun⟩⟩
  · intro hlt
    rw [hsearch.ends] at hlt ⊢
    have hlt := Nat.lt_of_not_le hlt
    exact meets_steady hsteady (meets_learnFrom hsearch (hr.alike halike) ((hh (halike.level ▸ hlt)).alike halike) hlt)

/-- **A literal is decided, or the values of the atoms are a model.** -/
theorem meets_decideNext (h : Complete f assumptions root c) :
    Meets decideNext c (Searched f assumptions root c) (fun _ => False) := by
  unfold decideNext
  rw [meets_bind]
  refine (meets_chooseDecision h.stocked h.shaped.bounded).mono (fun choice d hd => ?_) fun _ => id
  rcases hd with ⟨l, rfl, hl⟩ | ⟨rfl, hd, hall⟩
  · dsimp only
    rw [meets_bind]
    refine (answers_decideLiteral h.toSound (fun _ => h.current) hl).meets.mono (fun _ e ⟨he, ho⟩ => ?_) fun _ => id
    refine ⟨.of_course ho.course ho.count, h.carry he (state_eq_of_course ho.course) (root_eq_of_course ho.course) ?_
      (ho.upholds h.level) (h.noted.carry (ho.upholds h.level) ho.units) (ho.anchored h.trailed he.trailed h.anchored), ?_,
      fun _ => .snoc ho.literals (ho.head.trans h.head) ho.first⟩
    · have := h.level
      have := ho.level
      omega
    · rw [ho.head, h.head]
      exact ho.current h.current
  · dsimp only
    rw [meets_bind, meets_modify, meets_bind, meets_get]
    have halike : Alike c { d with model := currentModel d } := hd.toAlike.trans (.of_eq rfl rfl rfl rfl rfl)
    have hsteady : Steady c { d with model := currentModel d } :=
      (Steady.of_course hd.course hd.count).trans ⟨rfl, rfl, rfl⟩
    have hroot : d.trail.root = c.trail.root := root_eq_of_course hd.course
    have hsearch : Searching f assumptions root { d with model := currentModel d } :=
      h.carry (halike.sound h.toSound hd.marks) hsteady.state hroot (halike.level ▸ h.level) (halike.upholds root)
        (h.noted.carry (halike.upholds root) halike.units) (halike.anchored h.trailed h.anchored)
    have hcurrent := halike.current h.current
    rw [← halike.size] at hcurrent
    rw [hsearch.ends, meets_bind]
    refine (meets_backjumpRoot ⟨hsearch, hcurrent, (hd.head.trans h.head).trans halike.size.symm⟩).mono
      (fun _ e ⟨hcourse, hcount, he⟩ => ?_) fun _ => id
    rw [meets_pure]
    have hmodel : e.model = currentModel d := congrArg Course.model hcourse
    refine ⟨hsteady.trans (.of_course hcourse hcount), he.stopped he.current _, ⟨?_, ?_⟩, nofun⟩
    · rw [hmodel]
      have hcurrent' : d.Current d.trail.size := hd.size ▸ hd.current h.current
      refine models_currentModel (hd.sound h.toSound hd.marks) hcurrent' (fun a ha => ?_) fun l hl => ?_
      · rw [hd.value]
        exact hall a (hd.count ▸ ha)
      · rw [hd.literals]
        exact Trail.upTo_subset_literals (h.supposed.made l hl)
    · rw [hmodel, hcount]
      exact Array.size_map

/-- At level zero a simplification finds no conflict, for all is propagated. -/
theorem meets_simplifyAtRoot (h : Complete f assumptions root c) :
    Meets simplifyAtRoot c (fun stop d => stop = false ∧ Steady c d ∧ Complete f assumptions root d)
      (fun d => Steady c d ∧ Stopped f True d) := by
  unfold simplifyAtRoot
  rw [meets_bind, meets_get, meets_ite]
  refine ⟨fun hz => ?_, fun _ => ⟨rfl, .refl c, h⟩⟩
  rw [Bool.and_eq_true] at hz
  have hsimplified : ∀ d, Sound f (fun k => k = 0 ∨ root ≤ k) d → Trimmed c d →
      Steady c d ∧ Complete f assumptions root d := fun d hs ht =>
    ⟨.of_course ht.course (by rw [ht.atoms]), h.trimmed hs ht⟩
  rw [meets_bind]
  refine (meets_simplify ⟨h.toSound, of_decide_eq_true hz.1, h.current, h.head⟩).mono (fun _ d ⟨hs, ht⟩ => ?_)
    fun d ⟨hs, ht⟩ => ?_
  · obtain ⟨hsteady, hd⟩ := hsimplified d hs ht
    rw [meets_bind, meets_get, meets_pure]
    refine ⟨?_, hsteady, hd⟩
    unfold isUnsatisfiable
    simpa using hd.consistent
  · obtain ⟨hsteady, hd⟩ := hsimplified d hs ht
    exact ⟨hsteady, hd.stopped hd.current_head True⟩

theorem meets_atRest {budget : Option Nat} (h : Complete f assumptions root c) :
    Meets (atRest budget) c (Searched f assumptions root c) (fun d => Steady c d ∧ Stopped f True d) := by
  unfold atRest
  rw [meets_bind, meets_get, meets_ite]
  constructor
  · intro _
    rw [meets_bind, h.ends]
    refine (meets_backjumpRoot h).mono (fun _ d ⟨hcourse, hcount, hd⟩ => ?_) fun _ => False.elim
    exact ⟨.of_course hcourse hcount, ⟨hd.stopped hd.current _, trivial, fun _ => hd⟩⟩
  · intro _
    rw [meets_bind]
    refine (meets_simplifyAtRoot h).mono (fun stop d ⟨hstop, hsteady, hd⟩ => ?_) fun _ => id
    subst hstop
    rw [if_neg nofun, meets_bind, meets_get]
    have hnext : ∀ e, Steady c e → Complete f assumptions root e →
        Meets decideNext e (Searched f assumptions root c) (fun e => Steady c e ∧ Stopped f True e) := fun e hs he =>
      meets_steady hs ((meets_decideNext he).mono (fun _ _ => id) fun _ => False.elim)
    dsimp only
    rw [meets_ite]
    refine ⟨fun _ => ?_, fun _ => hnext d hsteady hd⟩
    rw [meets_bind]
    refine (meets_reduce hd.toSound).mono (fun _ e ⟨hs, ht⟩ => ?_) fun e ⟨hs, ht⟩ => ?_
    · exact hnext e (hsteady.trans (.of_course ht.course (by rw [ht.atoms]))) (hd.trimmed hs ht)
    · have he := hd.trimmed hs ht
      exact ⟨hsteady.trans (.of_course ht.course (by rw [ht.atoms])), he.stopped he.current_head True⟩

theorem meets_afterStep {m : Solver SolveState} {answer : Option SolveState} (h : Searched f assumptions root c answer d)
    (hm : Poised f assumptions root d →
      Meets m d (fun state e => Steady d e ∧ Ended f assumptions root state e) (fun e => Steady d e ∧ Stopped f True e)) :
    Meets (match answer with
      | some state => pure state
      | none => m) d (fun state e => Steady c e ∧ Ended f assumptions root state e)
      (fun e => Steady c e ∧ Stopped f True e) := by
  cases answer with
  | some state => exact h
  | none => exact (hm h.2).mono (fun _ _ he => ⟨h.1.trans he.1, he.2⟩) fun _ he => ⟨h.1.trans he.1, he.2⟩

/-- **A search ends with an answer that is so.** -/
theorem meets_searchFor {budget : Option Nat} : ∀ (fuel : Nat) (c : Context), Poised f assumptions root c →
    Meets (searchFor budget fuel) c (fun state d => Steady c d ∧ Ended f assumptions root state d)
      (fun d => Steady c d ∧ Stopped f True d)
  | 0, _, _ => trivial
  | fuel + 1, c, h => by
    unfold searchFor
    rw [meets_bind]
    refine (meets_propagate h.toSound fun _ => h.current).mono (fun result d hd => ?_) fun _ => False.elim
    have hsteady : Steady c d := .of_course hd.extended.course hd.extended.count
    have hsearch := h.propagated hd
    cases result with
    | corrupt => exact hd.verdict.elim
    | conflict conflict =>
      dsimp only
      rw [meets_bind]
      exact (meets_steady hsteady (meets_atConflict hsearch hd.verdict (h.here hd))).mono
        (fun _ e he => meets_afterStep he (meets_searchFor fuel e)) fun _ => id
    | complete =>
      dsimp only
      rw [meets_bind]
      exact (meets_steady hsteady (meets_atRest (h.complete hd))).mono
        (fun _ e he => meets_afterStep he (meets_searchFor fuel e)) fun _ => id

theorem meets_search {fuel : Nat} {budget : Option Nat} (h : Poised f assumptions root c) :
    Meets (search fuel budget) c (fun state d => Steady c d ∧ Ended f assumptions root state d)
      (fun d => Steady c d ∧ Stopped f True d) := by
  unfold search
  rw [meets_bind, meets_count]
  have halike : Alike c { c with counters := { c.counters with freshConflicts := 0 } } := .of_eq rfl rfl rfl rfl rfl
  exact (meets_searchFor fuel _ (h.alike halike rfl rfl rfl)).mono
    (fun _ d hd => ⟨⟨hd.1.state, hd.1.pending, hd.1.count⟩, hd.2⟩) fun d hd => ⟨⟨hd.1.state, hd.1.pending, hd.1.count⟩, hd.2⟩

end Solver
end Cdcl
