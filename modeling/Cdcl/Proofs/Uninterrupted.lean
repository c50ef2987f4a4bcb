import Cdcl.Proofs.Admission
import Cdcl.Proofs.Ascent
import Cdcl.Proofs.Overtaking
import Cdcl.Proofs.Stopping
/-!
# Uninterrupted — a call stops only where there is no room for a clause

Wherever a program of a context is at work the invariant holds, and what it needs besides, so no clause, list or literal that
it looks up is missing, no count goes below zero, and no analysis comes to an end without an asserting clause.  What is left
to stop a call is a store without room for a further clause, and the fuel of a solve.

A search does not run out of fuel if there is as much as its steps have to climb (`Supplied`).
-/
namespace Cdcl

open Run Context Trail

variable {why : Interrupt → Prop} {f : Formula} {settled : Nat → Prop} {assumptions : List Literal} {root : Nat}
  {c d : Context} {l : Literal}

namespace Context

/-- Fuel may run out, or there is as much as a search may need from here. -/
def Supplied (why : Interrupt → Prop) (root fuel : Nat) (c : Context) : Prop :=
  why .exhausted ∨ c.trail.Steep root ∧ summit root c.atoms.count ≤ c.ascent root + fuel

theorem Supplied.extend {fuel : Nat} (h : Supplied why root fuel c) (he : Extends c d) : Supplied why root fuel d :=
  h.imp_right fun ⟨hsteep, hfuel⟩ => by
    refine ⟨he.steep hsteep, ?_⟩
    have : c.ascent root ≤ d.ascent root := he.ascent_le
    rw [he.count]
    omega

/-- **A step takes one unit of fuel**, and has climbed for it. -/
theorem Supplied.climb {fuel : Nat} (h : Supplied why root (fuel + 1) c) (hclimbs : Climbs root c.trail d.trail)
    (hc : Trailed f c) (hd : Trailed f d) (hcount : d.atoms.count = c.atoms.count) : Supplied why root fuel d :=
  h.imp_right fun ⟨hsteep, hfuel⟩ => by
    refine ⟨hclimbs.steep hsteep, ?_⟩
    have := ascent_lt_of_climbs hclimbs hc hd hcount hsteep
    rw [hcount]
    omega

/-- Where the searches of a solve start. -/
structure Launched (f : Formula) (assumptions : List Literal) (c d : Context) : Prop
    extends Poised f assumptions assumptions.length d where
  kept : Kept c d
  fit : Fit d
  paced : d.Paced
  count : d.atoms.count = c.atoms.count
  made : d.trail.level = assumptions.length

end Context

namespace Solver

/-- **What failed can be told** where a conflict has been counted. -/
theorem stops_blame {conflict : Conflict} (h : Sound f settled c) (hr : Refuted f c conflict) (counters : Counters) :
    Stops (failedByConflict conflict) { c with counters } why := by
  have halike : Alike c { c with counters } := .of_eq rfl rfl rfl rfl rfl
  have hsound := halike.sound h rfl
  exact (answers_failedByConflict hsound.toBase hsound.marks (hr.alike halike)).stops

/-! ## Searches -/

theorem stops_backjump {target : Nat} (h : Base f settled c) (hf : Fit c) : Stops (backjump target) c why :=
  (answers_backjump h hf.heard).stops

theorem stops_learnFrom {conflict : Conflict} (hfull : why .full) (h : Searching f assumptions root c) (hf : Fit c)
    (hp : c.Paced) (hr : Refuted f c conflict) (hh : c.Here conflict) (hlevel : root < c.trail.level) :
    Stops (do
      let learnt ← analyzeConflict conflict
      backjump (max learnt.level root)
      learn learnt.clause
      modify fun c => { c with clauses := c.clauses.decay }
      countdown
      pure none : Solver (Option SolveState)) c why := by
  have hanalysis := answers_analyzeConflict h.toBase h.marks hr hh (Nat.zero_lt_of_lt hlevel)
  refine hanalysis.stops.bind ((hanalysis.meets (E := fun _ => False)).and (still_analyzeConflict conflict c).meets)
    fun learnt d ⟨⟨hd, first, rest, hl⟩, hs⟩ => ?_
  have hsound := hd.toAlike.sound h.toSound (hd.marks.trans h.marks.symm)
  refine (stops_backjump hsound.toBase (hs.kept.fit hf)).bind ((meets_backjump hsound).and (within_backjump (R := Still) d).meets) fun _ e ⟨he, hs'⟩ => ?_
  rw [hl.clause]
  have hknown : ∀ l ∈ first :: rest, l.atom < e.atoms.count := fun l hl' =>
    (hs'.count.trans hs.count).symm ▸ hl.known h.trailed l hl'
  refine (stops_learn hfull he.1.shaped hknown).bind (within_learn (R := Still) _ e).meets fun _ g hs'' => ?_
  rw [stops_bind_modify]
  have hpaced := hs''.going.paced (hs'.options.trans hs.options ▸ hf.declared)
    (hs'.going.paced (hs.options ▸ hf.declared) (hs.going.paced hf.declared hp))
  exact (stops_countdown (c := { g with clauses := g.clauses.decay }) ⟨hpaced.adjustIn, hpaced.adjustEvery⟩).andThen
    fun _ _ => stops_pure

theorem stops_atConflict {conflict : Conflict} (hfull : why .full) (h : Searching f assumptions root c) (hf : Fit c)
    (hp : c.Paced) (hr : Refuted f c conflict) (hh : root < c.trail.level → c.Here conflict) :
    Stops (atConflict conflict) c why := by
  unfold atConflict
  show Stops (modify _ >>= _) _ _
  rw [stops_bind_modify, stops_bind_get]
  dsimp only
  generalize hd : ({ c with counters := _ } : Context) = d
  have halike : Alike c d := hd ▸ .of_eq rfl rfl rfl rfl rfl
  have hsearch := h.alike halike (hd ▸ rfl) (hd ▸ rfl)
  have hfit : Fit d := hd ▸ ⟨hf.tallied, hf.heard, hf.declared⟩
  have hpaced : d.Paced := hd ▸ ⟨hp.adjustIn, hp.adjustEvery⟩
  have hrefuted := hr.alike halike
  rw [show c.trail = d.trail from hd ▸ rfl]
  refine stops_ite (fun _ => stops_pure) fun _ => stops_ite (fun _ => ?_) fun hlt => ?_
  · exact (answers_failedByConflict hsearch.toBase hsearch.marks hrefuted).stops.andThen fun _ _ =>
      stops_bind_modify.2 stops_pure
  · rw [hsearch.ends] at hlt ⊢
    have hlt := Nat.lt_of_not_le hlt
    exact stops_learnFrom hfull hsearch hfit hpaced hrefuted ((hh (halike.level ▸ hlt)).alike halike) hlt

theorem stops_decideNext (h : Complete f assumptions root c) (hf : Fit c) : Stops decideNext c why := by
  unfold decideNext
  refine (stops_chooseDecision h.stocked h.shaped.bounded hf.declared).bind
    ((meets_chooseDecision h.stocked h.shaped.bounded).and (within_chooseDecision (R := Still) c).meets) fun choice d ⟨hd, hs⟩ => ?_
  rcases hd with ⟨l, rfl, hl⟩ | ⟨rfl, hd, -⟩
  · exact (answers_decideLiteral h.toSound (fun _ => h.current) hl).stops.andThen fun _ _ => stops_pure
  · dsimp only
    rw [stops_bind_modify, stops_bind_get]
    have hfit := hs.kept.fit hf
    have hsound := (hd.toAlike.trans (.of_eq rfl rfl rfl rfl rfl) : Alike c { d with model := currentModel d }).sound
      h.toSound hd.marks
    exact (stops_backjump hsound.toBase ⟨hfit.tallied, hfit.heard, hfit.declared⟩).andThen fun _ _ => stops_pure

theorem stops_simplifyAtRoot (h : Complete f assumptions root c) (hf : Fit c) : Stops simplifyAtRoot c why := by
  unfold simplifyAtRoot
  rw [stops_bind_get]
  refine stops_ite (fun hz => ?_) fun _ => stops_pure
  rw [Bool.and_eq_true] at hz
  have hlevel := of_decide_eq_true hz.1
  exact (stops_simplify hlevel (fun _ => ⟨h.toSound, hlevel, h.current, h.head⟩) hf.tallied).andThen fun _ _ =>
    stops_bind_get.2 stops_pure

theorem stops_atRest {budget : Option Nat} (h : Complete f assumptions root c) (hf : Fit c) :
    Stops (atRest budget) c why := by
  unfold atRest
  rw [stops_bind_get]
  refine stops_ite (fun _ => (stops_backjump h.toBase hf).andThen fun _ _ => stops_pure) fun _ => ?_
  refine (stops_simplifyAtRoot h hf).bind ((meets_simplifyAtRoot h).and (within_simplifyAtRoot (R := Going) c).meets)
    fun stop d ⟨⟨hstop, _, hd⟩, hg⟩ => ?_
  subst hstop
  rw [if_neg nofun, stops_bind_get]
  have hfit := hg.fit hf
  dsimp only
  refine stops_ite (fun _ => ?_) fun _ => stops_decideNext hd hfit
  refine (stops_reduce hd.toSound hfit.tallied).bind ((meets_reduce hd.toSound).and (within_reduce (R := Still) d).meets)
    fun _ e ⟨⟨hs, ht⟩, hs'⟩ => ?_
  exact stops_decideNext (hd.trimmed hs ht) (hs'.kept.fit hfit)

/-- Where a step of a search gives no answer the search goes on. -/
theorem stops_orNext {m : Solver (Option SolveState)} {next : Solver SolveState}
    {Q : Option SolveState → Context → Prop} {E : Context → Prop} (hm : Stops m c why) (hq : Meets m c Q E)
    (hnext : ∀ d, Q none d → Stops next d why) :
    Stops (m >>= fun answer => match answer with
      | some state => pure state
      | none => next) c why := by
  refine hm.bind hq fun answer d hd => ?_
  cases answer with
  | some state => exact stops_pure
  | none => exact hnext d hd

/-- **A search stops only where there is no room for a clause**, or the fuel is out. -/
theorem stops_searchFor {budget : Option Nat} (hfull : why .full) :
    ∀ (fuel : Nat) (c : Context), Poised f assumptions root c → Fit c → c.Paced → Supplied why root fuel c →
      Stops (searchFor budget fuel) c why
  | 0, c, h, _, _, hs => fun _ _ he => by
    cases he
    refine hs.resolve_right fun ⟨_, hfuel⟩ => ?_
    have : c.ascent root < summit root c.atoms.count := ascent_lt_summit h.trailed
    omega
  | fuel + 1, c, h, hf, hp, hs => by
    have hprop := answers_propagate h.toSound fun _ => h.current
    unfold searchFor
    refine hprop.stops.bind ((hprop.meets (E := fun _ => False)).and (within_propagate (R := Still) c).meets) fun result d hpropagated => ?_
    obtain ⟨hd, hstill⟩ := hpropagated
    have hsearch := h.propagated hd
    have hfit := hstill.kept.fit hf
    have hpaced := hstill.going.paced hf.declared hp
    have hsupplied := hs.extend hd.extended
    -- from where a step leads that gave no answer the search goes on, with the fuel that the step has climbed for
    have hnext : ∀ e, (Searched f assumptions root d none e ∧ Going d e) ∧ Climbing root d none e →
        Stops (searchFor budget fuel) e why := fun e he => by
      obtain ⟨⟨he, hge⟩, hclimbs⟩ := he
      exact stops_searchFor hfull fuel e he.2 (hge.fit hfit) (hge.paced hfit.declared hpaced)
        (hsupplied.climb (hclimbs rfl) hsearch.trailed he.2.trailed he.1.count)
    cases result with
    | corrupt => exact hd.verdict.elim
    | conflict conflict =>
      have hhere := h.here hd
      exact stops_orNext (stops_atConflict hfull hsearch hfit hpaced hd.verdict hhere)
        (((meets_atConflict hsearch hd.verdict hhere).and (within_atConflict (R := Going) conflict d).meets).and
          (climbs_atConflict hsearch hd.verdict hhere)) hnext
    | complete =>
      have hcomplete := h.complete hd
      exact stops_orNext (stops_atRest hcomplete hfit)
        (((meets_atRest hcomplete).and (within_atRest (R := Going) budget d).meets).and (climbs_atRest hcomplete)) hnext

theorem stops_search {fuel : Nat} {budget : Option Nat} (hfull : why .full) (h : Poised f assumptions root c) (hf : Fit c)
    (hp : c.Paced) (hs : Supplied why root fuel c) : Stops (search fuel budget) c why := by
  unfold search
  show Stops (modify _ >>= _) _ _
  rw [stops_bind_modify]
  exact stops_searchFor hfull fuel _ (h.alike (.of_eq rfl rfl rfl rfl rfl) rfl rfl rfl)
    ⟨hf.tallied, hf.heard, hf.declared⟩ ⟨hp.adjustIn, hp.adjustEvery⟩ hs

/-- A search leaves what the next one needs, and forgets no conflict. -/
theorem meets_search_fit {fuel : Nat} {budget : Option Nat} (hf : Fit c) (hp : c.Paced) :
    Meets (search fuel budget) c (fun _ d => (Fit d ∧ d.Paced) ∧ c.counters.conflicts ≤ d.counters.conflicts)
      fun _ => True :=
  going_search.mono (fun _ _ hd => ⟨⟨hd.fit ⟨hf.tallied, hf.heard, hf.declared⟩,
    hd.paced hf.declared ⟨hp.adjustIn, hp.adjustEvery⟩⟩, hd.conflicts⟩) fun _ _ => trivial

/-! ## Solves -/

/-- **Known assumptions may be made.** -/
theorem stops_assumeEach : ∀ (rest made : List Literal) (c : Context), Assuming f made c →
    (∀ l ∈ rest, l.atom < c.atoms.count) → Stops (assumeEach rest) c why
  | [], _, _, _, _ => stops_pure
  | l :: rest, made, c, h, hknown => by
    have hl := hknown l List.mem_cons_self
    have hrest : ∀ m ∈ rest, m.atom < c.atoms.count := fun m hm => hknown m (List.mem_cons_of_mem _ hm)
    have hfailed : ∀ (failed : List Literal) (d : Context), Stops (do
        modify ({ · with failed })
        pure true : Solver Bool) d why := fun _ _ => stops_bind_modify.2 stops_pure
    unfold assumeEach
    rw [stops_bind_get]
    cases hstanding : c.atoms.standing l with
    | unknown => exact absurd (AtomTable.standing_eq_unknown_iff.1 hstanding) (Nat.not_le_of_lt hl)
    | holds =>
      show Stops (modify _ >>= _) _ _
      rw [stops_bind_modify]
      exact stops_assumeEach rest _ _ (h.hold (h.trailed.standing_holds_iff.1 hstanding)) hrest
    | fails =>
      have hblame := answers_failedByAssumption h.toBase h.marks (h.trailed.standing_fails_iff.1 hstanding)
      exact hblame.stops.andThen hfailed
    | free =>
      show Stops (modify _ >>= fun _ => assign l none >>= _) _ _
      rw [← bind_assoc]
      refine Stops.bind (stops_bind_modify.2 (stops_assign hl))
        (meets_assume h (AtomTable.standing_eq_free_iff.1 hstanding).2) fun _ d hassumed => ?_
      obtain ⟨hd, ho⟩ := hassumed
      refine (answers_propagate hd fun _ => h.current_opened ho).stops_bind fun result e he => ?_
      cases result with
      | corrupt => exact he.verdict.elim
      | complete =>
        exact stops_assumeEach rest _ e (h.propagated hd ho he) fun m hm =>
          (he.extended.count.trans ho.count).symm ▸ hrest m hm
      | conflict conflict =>
        show Stops (modify _ >>= _) _ _
        rw [stops_bind_modify]
        exact (stops_blame he.sound he.verdict _).andThen hfailed

/-- The conflicts since a solve started can be told, for none is forgotten. -/
theorem stops_nextBudget {luby : Luby} {conflictsBefore : Nat} (hbefore : conflictsBefore ≤ c.counters.conflicts) :
    Stops (nextBudget luby conflictsBefore) c why := by
  unfold nextBudget
  rw [stops_bind_get]
  exact stops_ite (fun _ => stops_pure) fun _ => (stops_require (decide_eq_true hbefore)).andThen fun _ _ =>
    stops_ite (fun _ => stops_pure) fun _ => stops_pure

theorem stops_askStop : Stops askStop c why := (answers_modifyGet (Q := fun _ _ => True).2 trivial).stops

/-- **Searches one after another stop only where there is no room for a clause**, or the fuel is out. -/
theorem stops_searchAll {conflictsBefore : Nat} (hfull : why .full) (hout : why .exhausted) :
    ∀ (fuel : Nat) (luby : Luby) (c : Context), Poised f assumptions root c → Fit c → c.Paced →
      conflictsBefore ≤ c.counters.conflicts → Stops (searchAll conflictsBefore fuel luby) c why
  | 0, _, _, _, _, _, _ => fun _ _ he => by
    cases he
    exact hout
  | fuel + 1, luby, c, h, hf, hp, hbefore => by
    unfold searchAll
    refine (stops_nextBudget hbefore).bind meets_nextBudget fun next d hd => ?_
    subst hd
    cases next with
    | none => exact stops_pure
    | some next =>
      refine (stops_search hfull h hf hp (.inl hout)).bind ((meets_search h).and (meets_search_fit hf hp))
        fun state e hsearched => ?_
      obtain ⟨⟨_, he⟩, ⟨hfe, hpe⟩, hconflicts⟩ := hsearched
      cases state with
      | unknown =>
        show Stops (modify _ >>= fun _ => askStop >>= _) _ _
        rw [stops_bind_modify]
        refine stops_askStop.bind (Q := fun _ g => Poised f assumptions root g ∧ (Fit g ∧ g.Paced) ∧
          conflictsBefore ≤ g.counters.conflicts) (E := fun _ => True) ?_ fun stop g hasked => ?_
        · exact ⟨(he.again rfl).alike (.of_eq rfl rfl rfl rfl rfl) rfl rfl rfl,
            ⟨⟨hfe.tallied, Listeners.onUnassign_ask.trans_ne hfe.heard, hfe.declared⟩, ⟨hpe.adjustIn, hpe.adjustEvery⟩⟩,
            Nat.le_trans hbefore hconflicts⟩
        · obtain ⟨hg, ⟨hfg, hpg⟩, hbefore⟩ := hasked
          exact stops_ite (fun _ => stops_pure) fun _ => stops_searchAll hfull hout fuel next.2 g hg hfg hpg hbefore
      | _ => exact stops_pure

/-- **A schedule starts with a countdown that does not end below zero.** -/
theorem meets_startSchedule_paced (h : c.options.Declared) : Meets startSchedule c (fun _ d => d.Paced) fun _ => False := by
  have hevery := FloatSigns.not_lt_zero_of_one_le h.clauses.adjustStart.le_value
  exact ⟨wholePart_nonneg hevery, hevery⟩

theorem stops_prepare (h : Rooted f settled c) (ht : c.clauses.Tallied) : Stops prepare c why := by
  unfold prepare
  rw [stops_bind_get]
  refine stops_ite (fun _ => stops_simplify h.level (fun _ => h) ht) fun _ => ?_
  exact (answers_propagate_rest (Q := fun _ _ => True) h.head trivial).stops.andThen fun r d => by
    split
    · exact stops_modify
    · exact stops_pure

/-- **A solve from level zero stops where its searches do.** -/
theorem stops_solveFromRoot {fuel : Nat} (h : Rooted f settled c) (hu : c.pendingUnits = #[]) (hf : Fit c)
    (hknown : ∀ l ∈ assumptions, l.atom < c.atoms.count)
    (hsearch : ∀ d, Launched f assumptions c d →
      Stops (searchAll d.counters.conflicts fuel { base := d.options.restartBase.value }) d why) :
    Stops (solveFromRoot fuel assumptions) c why := by
  have hall : Rooted f (fun _ => True) c := h.anywhere
  unfold solveFromRoot
  refine (stops_prepare hall hf.tallied).bind ((meets_prepare hall).and (within_prepare (R := Kept) c).meets) fun _ d ⟨⟨hs, ht⟩, hk⟩ => ?_
  have hd : Rooted f (fun _ => True) d := hall.trimmed hs ht
  have hfd := hk.fit hf
  rw [stops_bind_get]
  refine stops_ite (fun _ => stops_pure) fun hne => ?_
  show Stops (startSchedule >>= fun _ => modify _ >>= fun _ => assumeEach assumptions >>= _) _ _
  rw [← bind_assoc]
  have hset : Meets (do
      startSchedule
      modify fun c => { c with trail := { c.trail with root := assumptions.length } }) d
      (fun _ e => Kept d e ∧ e.Paced ∧ e.atoms = d.atoms) fun _ => False :=
    have hp := meets_startSchedule_paced hfd.declared
    ⟨⟨rfl, rfl, Nat.le_refl _, id⟩, ⟨(hp.of_ok rfl).adjustIn, (hp.of_ok rfl).adjustEvery⟩, rfl⟩
  refine Stops.bind (stops_bind_modify.2 stops_modify) ((meets_setOut hd (ht.units.trans hu) hne).and hset)
    fun _ e ⟨⟨_, he⟩, hke, hpe, hatoms⟩ => ?_
  have hcount : e.atoms.count = c.atoms.count := congrArg AtomTable.count (hatoms.trans ht.atoms)
  have hassuming := he.toRooted.assuming he.units
  have hroot : assumptions ≠ [] → e.trail.root ≠ 0 := fun hn hz =>
    hn (List.eq_nil_of_length_eq_zero (he.ends.symm.trans hz))
  refine (stops_assumeEach assumptions [] e hassuming fun l hl => hcount ▸ hknown l hl).bind
    (((meets_makeAssumptions he).and (meets_assumeEach assumptions [] e hassuming hroot)).and
      ((within_assumeEach (R := Kept) assumptions e).meets.and (within_assumeEach (R := Unhurried) assumptions e).meets))
    fun failed g ⟨⟨⟨hsteady, _, hpoised⟩, _, _, hmade⟩, hkg, hug⟩ => ?_
  refine stops_ite (fun _ => stops_pure) fun hfailed => ?_
  have hfailed : failed = false := by simpa using hfailed
  have hkept : Kept c g := Chained.trans (Chained.trans hk hke) hkg
  rw [stops_bind_get]
  refine hsearch g ⟨hpoised hfailed, hkept, hkept.fit hf, hug.paced hpe, hsteady.count.trans hcount, ?_⟩
  rw [(hmade hfailed).2.1, he.level, Nat.zero_add]

/-! ## The way back -/

theorem stops_assignUnits : ∀ (units : List Literal) (c : Context), (∀ l ∈ units, l.atom < c.atoms.count) →
    Stops (assignUnits units) c why
  | [], _, _ => stops_pure
  | l :: rest, c, h => by
    have hl := h l List.mem_cons_self
    have hrest : ∀ d, Still c d → ∀ m ∈ rest, m.atom < d.atoms.count := fun d hd m hm =>
      hd.count.symm ▸ h m (List.mem_cons_of_mem _ hm)
    have henqueue : Stops (enqueue l none) c why := by
      unfold enqueue
      rw [stops_bind_get]
      cases hstanding : c.atoms.standing l with
      | unknown => exact absurd (AtomTable.standing_eq_unknown_iff.1 hstanding) (Nat.not_le_of_lt hl)
      | free => exact (stops_assign hl).andThen fun _ _ => stops_pure
      | _ => exact stops_pure
    unfold assignUnits
    refine henqueue.bind (within_enqueue (R := Still) c).meets fun done d hd => stops_ite (fun _ => ?_) fun _ => ?_
    · show Stops (modify _ >>= _) _ _
      rw [stops_bind_modify]
      exact stops_assignUnits rest _ (hrest d hd)
    · exact stops_assignUnits rest d (hrest d hd)

/-- **The way back to level zero never stops.** -/
theorem stops_returnToRoot {matters : Prop} (h : Stopped f matters c) (hf : Fit c) : Stops returnToRoot c why := by
  have hknown : ∀ l ∈ c.pendingUnits.toList, l.atom < c.atoms.count := fun l hl =>
    have ⟨_, hn⟩ := h.noted
    h.trailed.mem_known (Trail.upTo_subset_literals (hn l hl).1)
  have hback : Stops (do
      backjump 0
      modify fun c => { c with trail := { c.trail with root := 0 } }) c why :=
    (stops_backjump h.toBase hf).andThen fun _ _ => stops_modify
  unfold returnToRoot
  rw [← bind_assoc]
  refine hback.bind (meets_backToRoot h) fun _ d ⟨hd, hunits⟩ => ?_
  have hknown : ∀ l ∈ d.pendingUnits.toList, l.atom < d.atoms.count := by
    rw [hunits, hd.count]
    exact hknown
  unfold assignPendingUnits
  rw [← bind_assoc]
  refine Stops.bind ?_ (meets_assignNoted hd) fun _ e ⟨he, _⟩ => ?_
  · exact (answers_modifyGet (Q := fun units e => units = d.pendingUnits.toList ∧ e.atoms = d.atoms).2
      ⟨rfl, rfl⟩).stops_bind fun units e ⟨hu, ha⟩ => stops_assignUnits units e (by rw [hu, ha]; exact hknown)
  · refine Stops.andThen (answers_propagate he.toSound fun hs => he.current hs.2).stops fun result g => ?_
    split
    · exact stops_modify
    · exact stops_pure

/-- **A solve stops where its searches do.** -/
theorem stops_solveGiven_of {fuel : Nat} (h : Resting f (· = 0) c) (hf : Fit c)
    (hknown : ∀ l ∈ assumptions, l.atom < c.atoms.count)
    (hsearch : ∀ d, Launched f assumptions c d →
      Stops (searchAll d.counters.conflicts fuel { base := d.options.restartBase.value }) d why) :
    Stops (solveGiven fuel assumptions) c why := by
  unfold solveGiven
  rw [stops_bind_modify, stops_bind_get]
  generalize hb : ({ c with model := #[], failed := [], pending := none } : Context) = b
  have hfb : Fit b := hb ▸ ⟨hf.tallied, hf.heard, hf.declared⟩
  have hatoms : b.atoms = c.atoms := hb ▸ rfl
  refine stops_ite (fun _ => stops_pure) fun hs => stops_ite (fun hany => ?_) fun _ => ?_
  · obtain ⟨l, hl, hno⟩ := List.any_eq_true.1 hany
    rw [hatoms, AtomTable.knows_iff.2 (hknown l hl)] at hno
    cases hno
  have hquiet : Quiet f (· = 0) b :=
    (h.quiet fun he => hs (hb ▸ he)).alike (hb ▸ .of_eq rfl rfl rfl rfl rfl) (hb ▸ rfl) (hb ▸ rfl)
  show Stops (backjump 0 >>= fun _ => setState .solving >>= _) _ _
  rw [← bind_assoc]
  have hkept : Within Kept (do
      backjump 0
      setState .solving) := within_bind within_backjump fun _ =>
    within_modify fun _ => ⟨rfl, rfl, Nat.le_refl _, id⟩
  refine Stops.bind ((stops_backjump hquiet.toBase hfb).andThen fun _ _ => stops_modify) ((meets_enter hquiet rfl).and (hkept b).meets)
    fun _ d ⟨⟨hd, hunits, hsolving, _, hcount⟩, hk⟩ => ?_
  have hfd := hk.fit hfb
  have hcount : d.atoms.count = c.atoms.count := hcount.trans (congrArg AtomTable.count hatoms)
  have hkc : Kept c d := Chained.trans (hb ▸ ⟨rfl, rfl, Nat.le_refl _, id⟩) hk
  have hroot : Stops (solveFromRoot fuel assumptions) d why :=
    stops_solveFromRoot hd hunits hfd (fun l hl => hcount.symm ▸ hknown l hl) fun e he =>
      hsearch e ⟨he.toPoised, Chained.trans hkc he.kept, he.fit, he.paced, he.count.trans hcount, he.made⟩
  refine hroot.attempt.bind (((meets_attemptFromRoot hd hunits (hsolving ▸ nofun)).and
    (within_attempt (within_solveFromRoot (R := Kept)) d).meets).and (hroot.meets_attempt (E := fun _ => True)))
    fun result e ⟨⟨he, hke⟩, hwhy⟩ => ?_
  refine (stops_returnToRoot he (hke.fit hfd)).andThen fun _ g => ?_
  cases result with
  | ok state => exact stops_bind_modify.2 (stops_bind_get.2 stops_pure)
  | error failure => exact stops_fail (hwhy failure rfl)

/-- **A solve stops only where there is no room for a clause**, or the fuel is out. -/
theorem stops_solveGiven {fuel : Nat} (hfull : why .full) (hout : why .exhausted) (h : Resting f (· = 0) c)
    (hf : Fit c) (hknown : ∀ l ∈ assumptions, l.atom < c.atoms.count) : Stops (solveGiven fuel assumptions) c why :=
  stops_solveGiven_of h hf hknown fun d hd =>
    stops_searchAll hfull hout fuel _ d hd.toPoised hd.fit hd.paced (Nat.le_refl _)

/-! ## Decisions from outside -/

/-- **A literal of a known atom without a value may be decided**, and it may be known that there is no model. -/
theorem stops_decide (h : Resting f (· = 0) c) (hl : l.atom < c.atoms.count) (hv : c.atoms.value l.atom = none) :
    Stops (decide l) c why := by
  by_cases hs : c.state = .unsatisfiable
  · unfold decide
    rw [stops_bind_get, if_pos hs]
    exact stops_pure
  · exact (answers_decide (h.quiet hs) gapless_zero hs hl hv).stops

/-- **There may be no room for the clause that waits**, where it asserts. -/
theorem stops_assertPending (hfull : why .full) (h : Idle f settled c) (hl : c.atAssertionLevel = true) :
    Stops assertPending c why := by
  obtain ⟨p, hp, -⟩ := exists_pending hl
  obtain ⟨hs, first, rest, ha⟩ := h.waiting p hp
  unfold assertPending
  rw [stops_bind_get, hp]
  show Stops (modify _ >>= fun _ => learn p.clause >>= fun _ => propagateDecision) _ _
  rw [← bind_assoc]
  refine Stops.bind (stops_bind_modify.2 ?_) (meets_learnPending h hl hp) fun _ d hd =>
    (answers_propagateDecision hd.toDue hd.pending (hd.state ▸ hs)).stops
  have hquiet : Quiet f settled { c with pending := none } := (h.quiet hs).alike (.of_eq rfl rfl rfl rfl rfl) rfl rfl
  rw [ha.clause]
  exact stops_learn hfull hquiet.shaped ha.known

theorem stops_assertHere (hfull : why .full) (h : Idle f settled c) (hl : c.atAssertionLevel = true) :
    Stops assertHere c why := by
  unfold assertHere
  rw [stops_bind_get, if_pos hl]
  exact stops_assertPending hfull h hl

/-- **The clause that waits is asserted where it may be**, unless there is no room for it. -/
theorem yields_assertIfHere (hfull : why .full) (h : Idle f settled c) :
    Yields assertIfHere c (Reasserted f settled c) why := by
  refine ⟨(meets_assertIfHere h).mono (fun _ _ => id) fun _ _ => trivial, ?_⟩
  unfold assertIfHere
  rw [stops_bind_get]
  exact stops_ite (fun hl => (stops_assertPending hfull h hl).andThen fun _ _ => stops_pure) fun _ => stops_pure

/-! ## Adding clauses -/

/-- **There may be no room for a clause that is added** at level zero, if every slot is in use. -/
theorem stops_addClause_of_full {clause : Clause} (hfull : slotLimit ≤ c.clauses.input.size → why .full)
    (h : Resting f (· = 0) c) (hl : c.trail.level = 0) (hknown : ∀ l ∈ clause, l.atom < c.atoms.count) :
    Stops (addClause clause) c why := by
  by_cases hs : c.state = .unsatisfiable
  · unfold addClause
    rw [stops_bind_get, if_pos hs]
    exact stops_pure
  · have hquiet := h.quiet hs
    rcases addClause_admission (hquiet.rooted rfl hl) hquiet.units hs fun l hl => AtomTable.knows_iff.2 (hknown l hl) with
      hanswers | ⟨hover, hstops⟩
    · exact hanswers.stops
    · intro e d he
      cases hstops.symm.trans he
      exact hfull hover.full

theorem stops_addClause {clause : Clause} (hfull : why .full) (h : Resting f (· = 0) c) (hl : c.trail.level = 0)
    (hknown : ∀ l ∈ clause, l.atom < c.atoms.count) : Stops (addClause clause) c why :=
  stops_addClause_of_full (fun _ => hfull) h hl hknown

end Solver
end Cdcl
