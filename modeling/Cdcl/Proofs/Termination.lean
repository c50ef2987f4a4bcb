import Cdcl.Proofs.Reliability
/-!
# Termination — without restarts every solve ends

With fuel for as many steps as there are to climb a search ends by itself, whatever clauses are given up on the way.  Without
restarts a solve makes one search, and a second one only if the limit on conflicts is reached, which then ends it at once.
So a solve ends (`solve_terminates`), and it ends undecided for the limit only.
-/
namespace Cdcl
namespace Context

/-- A search that has not decided anything has spent its budget. -/
def Budgeted (budget : Option Nat) (state : SolveState) (c : Context) : Prop :=
  state.report = .unknown → ∃ b, budget = some b ∧ b ≤ c.counters.freshConflicts

/-- A solve that has not decided anything has reached its limit on conflicts. -/
def Limited (limit before : Nat) (report : Report) (c : Context) : Prop :=
  report = .unknown → limit ≠ 0 ∧ before + limit ≤ c.counters.conflicts

/-- What a solve without restarts does next. -/
def Planned (limit spent : Nat) : Option (Option Nat × Luby) → Prop
  | none => limit ≠ 0 ∧ limit ≤ spent
  | some (budget, _) => limit = 0 ∧ budget = none ∨ spent < limit ∧ budget = some (limit - spent)

theorem Budgeted.limited {next : Option Nat × Luby} {limit before conflicts : Nat} {state : SolveState} {c : Context}
    (h : Budgeted next.1 state c) (hn : Planned limit (conflicts - before) (some next)) (hle : before ≤ conflicts)
    (hfresh : c.counters.conflicts = conflicts + c.counters.freshConflicts) : Limited limit before state.report c :=
  fun hu => by
    obtain ⟨b, hb, hle⟩ := h hu
    rcases hn with ⟨_, hn⟩ | ⟨hlt, hn⟩
    · rw [hb] at hn
      cases hn
    · rw [hb, Option.some.injEq] at hn
      omega

theorem Limited.of_le {limit before conflicts : Nat} {report : Report} {c : Context} (h : Limited limit conflicts report c)
    (hle : before ≤ conflicts) : Limited limit before report c := fun hu => by
  have := h hu
  omega

/-- Above the root level there is no level yet. -/
theorem Launched.steep {f : Formula} {assumptions : List Literal} {c d : Context} (h : Launched f assumptions c d) :
    d.trail.Steep assumptions.length := fun k hk => by
  rw [h.made] at hk
  exact Nat.le_add_right_of_le hk

end Context

namespace Solver

open Run Context Trail

variable {why : Interrupt → Prop} {f : Formula} {assumptions : List Literal} {c d : Context} {budget : Option Nat}

/-! ## What a search answers -/

/-- At a conflict a search decides, or goes on. -/
theorem meets_atConflict_decided {conflict : Conflict} :
    Meets (atConflict conflict) c (fun answer _ => ∀ state ∈ answer, state.report ≠ .unknown) fun _ => True := by
  unfold atConflict
  refine meets_bind_any fun _ d => ?_
  rw [meets_bind, meets_get]
  dsimp only
  rw [meets_ite]
  refine ⟨fun _ _ he => by cases he; exact nofun, fun _ => ?_⟩
  rw [meets_ite]
  exact ⟨fun _ => meets_bind_any fun _ _ => meets_bind_any fun _ _ _ he => by cases he; exact nofun,
    fun _ => meets_bind_any fun _ _ => meets_bind_any fun _ _ => meets_bind_any fun _ _ => meets_bind_any fun _ _ =>
      meets_bind_any fun _ _ => nofun⟩

/-- A search at rest is given up for its budget only, and then it is back at its root level. -/
theorem meets_atRest_undecided :
    Meets (atRest budget) c (fun answer d => ∀ state ∈ answer, Budgeted budget state d ∧
      (state.report = .unknown → d.trail.level ≤ c.trail.root)) fun _ => True := by
  have hnext : ∀ e, Meets decideNext e (fun answer d => ∀ state ∈ answer, Budgeted budget state d ∧
      (state.report = .unknown → d.trail.level ≤ c.trail.root)) fun _ => True :=
    fun e => by
      unfold decideNext
      refine meets_bind_any fun choice d => ?_
      cases choice with
      | some l => exact meets_bind_any fun _ _ => nofun
      | none =>
        exact meets_bind_any fun _ _ => meets_bind_any fun _ _ => meets_bind_any fun _ _ _ he => by
          cases he
          exact ⟨nofun, nofun⟩
  unfold atRest
  rw [meets_bind, meets_get, meets_ite]
  constructor
  · intro hspent
    rw [meets_bind]
    refine ((within_backjump (R := Still) c).meets.and meets_backjump_le).mono (fun _ d ⟨hd, hlevel⟩ => ?_) fun _ _ => trivial
    rw [meets_pure]
    refine fun _ _ => ⟨fun _ => ?_, fun _ => hlevel⟩
    cases budget with
    | none => cases hspent
    | some b => exact ⟨b, rfl, hd.freshConflicts.symm ▸ of_decide_eq_true hspent⟩
  intro _
  refine meets_bind_any fun stop d => ?_
  rw [meets_ite]
  refine ⟨fun _ _ he => by cases he; exact ⟨nofun, nofun⟩, fun _ => ?_⟩
  rw [meets_bind, meets_get]
  dsimp only
  rw [meets_ite]
  exact ⟨fun _ => meets_bind_any fun _ e => hnext e, fun _ => hnext d⟩

/-- Where a step of a search gives no answer the next one may. -/
theorem meets_orNext {m : Solver (Option SolveState)} {next : Solver SolveState} {Q : SolveState → Context → Prop}
    (hm : Meets m c (fun answer d => ∀ state ∈ answer, Q state d) fun _ => True)
    (hnext : ∀ d, Meets next d Q fun _ => True) :
    Meets (m >>= fun answer => match answer with
      | some state => pure state
      | none => next) c Q fun _ => True := by
  rw [meets_bind]
  refine hm.mono (fun answer d hd => ?_) fun _ => id
  cases answer with
  | some state => exact hd state rfl
  | none => exact hnext d

/-- **A search is undecided only where its budget is spent.** -/
theorem meets_searchFor_budgeted : ∀ (fuel : Nat) (c : Context),
    Meets (searchFor budget fuel) c (Budgeted budget) fun _ => True
  | 0, _ => trivial
  | fuel + 1, c => by
    unfold searchFor
    refine meets_bind_any fun result d => ?_
    cases result with
    | conflict conflict =>
      exact meets_orNext (meets_atConflict_decided.mono (fun _ _ hanswer state hs hu => absurd hu (hanswer state hs))
        fun _ => id) (meets_searchFor_budgeted fuel)
    | corrupt => trivial
    | complete =>
      exact meets_orNext (meets_atRest_undecided.mono (fun _ _ hanswer state hs => (hanswer state hs).1) fun _ => id)
        (meets_searchFor_budgeted fuel)

theorem meets_search_budgeted {fuel : Nat} : Meets (search fuel budget) c (Budgeted budget) fun _ => True :=
  meets_searchFor_budgeted fuel _

/-! ## Without restarts -/

theorem meets_nextBudget_planned {luby : Luby} {conflictsBefore : Nat} (hr : c.options.restart.value = false) :
    Meets (nextBudget luby conflictsBefore) c (fun next d => d = c ∧
      Planned c.options.conflictLimit.value (c.counters.conflicts - conflictsBefore) next) fun _ => False := by
  unfold nextBudget
  rw [meets_bind, meets_get]
  simp only [hr, Bool.false_eq_true, if_false]
  rw [meets_ite]
  refine ⟨fun hz => ⟨rfl, .inl ⟨hz, rfl⟩⟩, fun hz => ?_⟩
  rw [meets_bind, meets_require]
  intro _
  rw [meets_ite]
  exact ⟨fun hle => ⟨rfl, hz, hle⟩, fun hlt => ⟨rfl, .inr ⟨Nat.lt_of_not_le hlt, rfl⟩⟩⟩

/-- **Without restarts searches end undecided only at the limit on conflicts.** -/
theorem meets_searchAll_limited {conflictsBefore : Nat} : ∀ (fuel : Nat) (luby : Luby) (c : Context),
    c.options.restart.value = false → conflictsBefore ≤ c.counters.conflicts →
    Meets (searchAll conflictsBefore fuel luby) c
      (fun state d => Limited c.options.conflictLimit.value conflictsBefore state.report d) fun _ => True
  | 0, _, _, _, _ => trivial
  | fuel + 1, luby, c, hr, hle => by
    unfold searchAll
    rw [meets_bind]
    refine (meets_nextBudget_planned hr).mono (fun next d hplanned => ?_) fun _ => False.elim
    obtain ⟨rfl, hn⟩ := hplanned
    cases next with
    | none => exact fun _ => ⟨hn.1, by have := hn.2; omega⟩
    | some next =>
      rw [meets_bind]
      refine (meets_search_budgeted.and going_search).mono (fun state e hsearched => ?_) fun _ _ => trivial
      obtain ⟨he, hg⟩ := hsearched
      have ho : e.options = d.options := hg.options
      cases state with
      | unknown =>
        dsimp only
        rw [meets_bind, meets_count, meets_bind]
        refine meets_askStop fun stop listeners => ?_
        rw [meets_ite]
        refine ⟨fun _ => he.limited hn hle hg.fresh, fun _ => ?_⟩
        rw [← ho]
        exact meets_searchAll_limited fuel next.2 _ (ho ▸ hr) (Nat.le_trans hle hg.conflicts)
      | _ => exact he.limited hn hle hg.fresh

/-- **Without restarts searches do not run out of fuel**, if there is some for each step there is to climb. -/
theorem stops_searchAll_unbroken {root fuel : Nat} {luby : Luby} (hfull : why .full)
    (hr : c.options.restart.value = false) (h : Poised f assumptions root c) (hf : Fit c) (hp : c.Paced)
    (hsteep : c.trail.Steep root) (hfuel : summit root c.atoms.count ≤ fuel) :
    Stops (searchAll c.counters.conflicts (fuel + 2) luby) c why := by
  unfold searchAll
  refine (stops_nextBudget (Nat.le_refl _)).bind (meets_nextBudget_planned hr) fun next d hplanned => ?_
  obtain ⟨rfl, hn⟩ := hplanned
  cases next with
  | none => exact stops_pure
  | some next =>
    refine (stops_search hfull h hf hp (.inr ⟨hsteep, by omega⟩)).bind
      (meets_search_budgeted.and going_search) fun state e hsearched => ?_
    obtain ⟨he, hg⟩ := hsearched
    cases state with
    | unknown =>
      obtain ⟨hz, hle⟩ := he.limited hn (Nat.le_refl _) hg.fresh rfl
      show Stops (modify _ >>= fun _ => askStop >>= _) _ _
      rw [stops_bind_modify]
      refine stops_askStop.bind (E := fun _ => True)
        (Q := fun _ g => g.options = d.options ∧ g.counters.conflicts = e.counters.conflicts)
        ⟨hg.options, rfl⟩ fun stop g hasked => stops_ite (fun _ => stops_pure) fun _ => ?_
      obtain ⟨ho, hc⟩ := hasked
      -- the limit is reached, so there is no other search
      unfold searchAll
      refine (stops_nextBudget (hc ▸ hg.conflicts)).bind (meets_nextBudget_planned (ho ▸ hr)) fun next k hplanned => ?_
      obtain ⟨-, hn⟩ := hplanned
      rw [ho, hc] at hn
      cases next with
      | none => exact stops_pure
      | some next =>
        rcases hn with ⟨hn, _⟩ | ⟨hlt, _⟩
        · exact absurd hn hz
        · omega
    | _ => exact stops_pure

/-! ## Solves without restarts -/

/-- **Without restarts a solve stops only where there is no room for a clause**, with fuel for its steps. -/
theorem stops_solveGiven_unbroken {fuel : Nat} (hfull : why .full) (hr : c.options.restart.value = false)
    (h : Resting f (· = 0) c) (hf : Fit c) (hknown : ∀ l ∈ assumptions, l.atom < c.atoms.count)
    (hfuel : summit assumptions.length c.atoms.count + 2 ≤ fuel) : Stops (solveGiven fuel assumptions) c why := by
  obtain ⟨n, rfl⟩ := Nat.exists_eq_add_of_le' (Nat.le_trans (Nat.le_add_left 2 _) hfuel)
  refine stops_solveGiven_of h hf hknown fun d hd => ?_
  exact stops_searchAll_unbroken hfull (hd.kept.options ▸ hr) hd.toPoised hd.fit hd.paced hd.steep
    (hd.count ▸ Nat.le_of_add_le_add_right hfuel)

theorem meets_solveFromRoot_limited {fuel : Nat} (hr : c.options.restart.value = false) :
    Meets (solveFromRoot fuel assumptions) c
      (fun state d => Limited c.options.conflictLimit.value c.counters.conflicts state.report d) fun _ => True := by
  unfold solveFromRoot
  rw [meets_bind]
  refine (within_prepare (R := Kept) c).meets.mono (fun _ d hd => ?_) fun _ _ => trivial
  rw [meets_bind, meets_get, meets_ite]
  refine ⟨fun _ => nofun, fun _ => ?_⟩
  rw [meets_bind]
  refine (within_startSchedule (R := Kept) d).meets.mono (fun _ e he => ?_) fun _ _ => trivial
  rw [meets_bind, meets_modify, meets_bind]
  refine (within_assumeEach (R := Kept) assumptions _).meets.mono (fun failed g hg => ?_) fun _ _ => trivial
  have hkept : Kept c g := Chained.trans (Chained.trans hd he) ⟨hg.options, hg.onUnassign, hg.conflicts, hg.tallied⟩
  rw [meets_ite]
  refine ⟨fun _ => nofun, fun _ => ?_⟩
  rw [meets_bind, meets_get]
  exact (meets_searchAll_limited fuel _ g (hkept.options ▸ hr) (Nat.le_refl _)).mono
    (fun state k hk => (hkept.options ▸ hk : Limited _ _ _ _).of_le hkept.conflicts) fun _ => id

/-- What is concluded is not decided only if it was not decided before. -/
theorem meets_conclude_limited {state : SolveState} {limit before : Nat}
    (h : Limited limit before state.report c) : Meets (conclude state) c (Limited limit before) fun _ => True := by
  unfold conclude
  rw [meets_bind, meets_modify, meets_bind, meets_get, meets_pure]
  dsimp only
  by_cases hs : c.state = .unsatisfiable
  · rw [if_pos hs]
    split <;> exact fun hu => by rw [report, hs] at hu; cases hu
  · rw [if_neg hs]
    split <;> exact h

/-- **Without restarts a solve ends undecided only at the limit on conflicts.** -/
theorem meets_solveGiven_limited {fuel : Nat} (hr : c.options.restart.value = false) :
    Meets (solveGiven fuel assumptions) c (Limited c.options.conflictLimit.value c.counters.conflicts) fun _ => True := by
  unfold solveGiven
  rw [meets_bind, meets_modify, meets_bind, meets_get, meets_ite]
  refine ⟨fun _ => nofun, fun _ => ?_⟩
  rw [meets_ite]
  refine ⟨fun _ => trivial, fun _ => ?_⟩
  rw [meets_bind]
  refine (within_backjump (R := Still) _).meets.mono (fun _ d hd => ?_) fun _ _ => trivial
  rw [meets_bind, meets_setState, meets_bind]
  have hoptions : d.options = c.options := hd.options
  have hconflicts : d.counters.conflicts = c.counters.conflicts := hd.conflicts
  refine meets_attempt ((meets_solveFromRoot_limited (c := { d with state := .solving }) (hoptions ▸ hr)).mono
    (fun state e he => ?_) fun e _ failure => ?_)
  · rw [show ({ d with state := .solving } : Context).options = c.options from hoptions,
      show ({ d with state := .solving } : Context).counters.conflicts = c.counters.conflicts from hconflicts] at he
    rw [meets_bind]
    have hreturn : Within Kept returnToRoot :=
      within_returnToRoot (fun _ => ⟨rfl, rfl, Nat.le_refl _, id⟩) fun _ => ⟨rfl, rfl, Nat.le_refl _, id⟩
    exact (hreturn e).meets.mono (fun _ g hg => meets_conclude_limited fun hu =>
      ⟨(he hu).1, Nat.le_trans (he hu).2 hg.conflicts⟩) fun _ _ => trivial
  · exact meets_bind_any fun _ _ => trivial

end Solver

namespace Session

open Run Context Solver

variable {s : Session} {assumptions : List Literal}

/-- **Without restarts every solve ends**, whatever is drawn and whoever is told of it, if nobody told objects: with an
answer, or where there is no room for a clause.  It takes no more fuel than there are steps to climb.  Where the answer is that
nothing was decided there is a limit on conflicts, and as many were found.  The levels are to be counted. -/
theorem solve_terminates (h : s.Orderly) (ho : s.context.options.Declared)
    (hr : s.context.options.restart.value = false) (hknown : ∀ l ∈ assumptions, l.atom < s.context.atoms.count)
    (_hlevels : assumptions.length + s.context.atoms.count < levelLimit) (random : Chance) (listeners : Listeners)
    (hheard : listeners.onUnassign ≠ .track) (fuel : Nat) (hfuel : summit assumptions.length s.context.atoms.count + 2 ≤ fuel) :
    (∃ report d, Solver.solveGiven fuel assumptions { s.context with random, listeners } = .ok report d ∧
      (report = .unknown → s.context.options.conflictLimit.value ≠ 0 ∧
        s.context.counters.conflicts + s.context.options.conflictLimit.value ≤ d.counters.conflicts)) ∨
    ∃ d, Solver.solveGiven fuel assumptions { s.context with random, listeners } = .error .full d := by
  have hresting : Resting s.formula (· = 0) { s.context with random, listeners } := by
    have halike : Alike s.context { s.context with random, listeners } := .of_eq rfl rfl rfl rfl rfl
    exact ⟨fun hs => (h.held.barren hs).alike halike rfl rfl, fun hs => (h.held.quiet hs).alike halike rfl rfl⟩
  have hstops : Stops (Solver.solveGiven fuel assumptions) { s.context with random, listeners } (· = .full) :=
    stops_solveGiven_unbroken rfl hr hresting ⟨h.counted.tallied, hheard, ho⟩ hknown hfuel
  cases hrun : Solver.solveGiven fuel assumptions { s.context with random, listeners } with
  | ok report d =>
    exact .inl ⟨report, d, rfl, (meets_solveGiven_limited (c := { s.context with random, listeners }) hr).of_ok hrun⟩
  | error e d =>
    obtain rfl := hstops e d hrun
    exact .inr ⟨d, rfl⟩

/-- No restarts, and a limit of one conflict. -/
def unbroken : Options := (({} : Options).setD (.restart false)).setD (.conflictLimit 1)

theorem declared_unbroken : unbroken.Declared := (Options.declared_default.setD _).setD _

/-- With two clauses that leave the first atom no choice, and the assumption against it. -/
theorem solve_terminates_or : ∃ s : Session, s.Orderly ∧ s.context.options.Declared ∧
    s.context.options.restart.value = false ∧ s.context.options.conflictLimit.value = 1 ∧
    (∀ l ∈ [x₀.negate], l.atom < s.context.atoms.count) ∧ [x₀.negate].length + s.context.atoms.count < levelLimit ∧
    ∀ fuel, summit 1 2 + 2 ≤ fuel →
    (∃ report d, Solver.solveGiven fuel [x₀.negate] { s.context with random := .default, listeners := {} } = .ok report d ∧
      (report = .unknown → s.context.options.conflictLimit.value ≠ 0 ∧
        s.context.counters.conflicts + s.context.options.conflictLimit.value ≤ d.counters.conflicts)) ∨
    ∃ d, Solver.solveGiven fuel [x₀.negate] { s.context with random := .default, listeners := {} } = .error .full d := by
  have h : ((start {} .default).run [.freshAtom, .freshAtom, .addClause [x₀, x₁], .addClause [x₀, x₁.negate]]).map
      (fun s => s.context.atoms.count) = some 2 := by
    simp only [Session.run, Session.call, Session.after, Solver.addClause, normal_or, normal_or_negate]
    decide +kernel
  obtain ⟨s, hs, hcount⟩ := reachable_of_run h
  have horderly : Orderly (s.goTo { s.context with options := unbroken }) := hs.orderly.configure unbroken
  have hr : unbroken.restart.value = false := by decide +kernel
  have hlimit : unbroken.conflictLimit.value = 1 := by decide +kernel
  have hknown : ∀ l ∈ [x₀.negate], l.atom < s.context.atoms.count := by
    rw [hcount]
    decide
  have hlevels : [x₀.negate].length + s.context.atoms.count < levelLimit := hs.held.lt_levelLimit (by decide)
  refine ⟨_, horderly, declared_unbroken, hr, hlimit, hknown, hlevels, fun fuel hfuel => ?_⟩
  exact solve_terminates horderly declared_unbroken hr hknown hlevels .default {} (by decide) fuel (by
    show summit 1 s.context.atoms.count + 2 ≤ fuel
    rwa [hcount])

end Session
end Cdcl
