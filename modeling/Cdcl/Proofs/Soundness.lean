import Cdcl.Proofs.Permanence
/-!
# Soundness — what a context tells of its formula is so

After any calls on a context just made, whatever the options and the source of randomness, and for solves that can count
their levels:

* a solve that finds a model finds one of all accepted clauses, and of the assumptions (`satisfiable_sound`);
* a solve that finds none shows that there is none, and that the formula alone has none is never forgotten
  (`unsatisfiable_sound`);
* at level zero the context admits the models of the accepted clauses, and no other valuation (`admits_iff_holds`);
* the literals told of failed assumptions negate assumptions, and the formula entails that one of them is true, unless
  one of two opposite assumptions is told alone (`failed_entailed_iff`).
-/
namespace Cdcl
namespace Session

open Run Context Solver

variable {s t : Session} {d : Context} {fuel : Nat} {assumptions : List Literal} {report : Report}

/-- Some calls lead here from a context just made. -/
def Reachable (s : Session) : Prop := ∃ options random calls, (start options random).run calls = some s

theorem Reachable.held (h : Reachable s) : Held (· = 0) s := by
  obtain ⟨options, random, calls, hs⟩ := h
  exact Held.run calls (held_start options random) hs

theorem Reachable.concluded (h : Reachable s) (hd : solveGiven fuel assumptions s.context = .ok report d) :
    Concluded s.formula (· = 0) assumptions s.context report d := (meets_solveGiven h.held.toResting rfl).of_ok hd

/-! ## Sessions on fixed inputs -/

/-- A solve after some calls, with the default options. -/
def trial (calls : List Call) (fuel : Nat) (assumptions : List Literal) : Option (Session × Report × Context) :=
  ((start {} .default).run calls).bind fun s =>
    ((solveGiven fuel assumptions).ended s.context).bind fun r => r.1.map fun report => (s, report, r.2)

theorem reachable_of_run {α : Type} {a : α} {calls : List Call} {view : Session → α}
    (h : ((start {} .default).run calls).map view = some a) : ∃ s : Session, s.Reachable ∧ view s = a := by
  obtain ⟨s, hs, ha⟩ := Option.map_eq_some_iff.1 h
  exact ⟨s, ⟨{}, .default, calls, hs⟩, ha⟩

theorem reachable_of_trial {α : Type} {a : α} {calls : List Call} {view : Session × Report × Context → α}
    (h : (trial calls fuel assumptions).map view = some a) :
    ∃ (s : Session) (report : Report) (d : Context), s.Reachable ∧
      solveGiven fuel assumptions s.context = .ok report d ∧ view (s, report, d) = a := by
  obtain ⟨⟨s, report, d⟩, h, ha⟩ := Option.map_eq_some_iff.1 h
  obtain ⟨u, hu, h⟩ := Option.bind_eq_some_iff.1 h
  obtain ⟨⟨answer, e⟩, he, h⟩ := Option.bind_eq_some_iff.1 h
  obtain ⟨report', rfl, h⟩ := Option.map_eq_some_iff.1 h
  cases h
  exact ⟨_, _, _, ⟨{}, .default, calls, hu⟩, ended_eq_answer he, ha⟩

def x₀ : Literal := .ofAtom 0 true

def x₁ : Literal := .ofAtom 1 true

def x₂ : Literal := .ofAtom 2 true

def x₃ : Literal := .ofAtom 3 true

def x₄ : Literal := .ofAtom 4 true

def x₅ : Literal := .ofAtom 5 true

theorem normal_or : Clause.normal [x₀, x₁] = [x₀, x₁] := Clause.normal_of_pairwise (by decide)

theorem normal_or_negate : Clause.normal [x₀, x₁.negate] = [x₀, x₁.negate] := Clause.normal_of_pairwise (by decide)

theorem normal_not_both : Clause.normal [x₀.negate, x₁, x₃.negate] = [x₀.negate, x₁, x₃.negate] :=
  Clause.normal_of_pairwise (by decide)

theorem normal_not_both_negate : Clause.normal [x₀.negate, x₁.negate, x₃.negate] = [x₀.negate, x₁.negate, x₃.negate] :=
  Clause.normal_of_pairwise (by decide)

theorem normal_or_three : Clause.normal [x₀, x₁, x₂] = [x₀, x₁, x₂] := Clause.normal_of_pairwise (by decide)

/-! ## Models -/

/-- **Satisfiable answers are sound.**  A solve that finds a model leaves one with a value for each atom, in which every
clause ever accepted holds, and every assumption. -/
theorem satisfiable_sound (h : s.Reachable) (_hlevels : assumptions.length + s.context.atoms.count < levelLimit)
    (hd : solveGiven fuel assumptions s.context = .ok .satisfiable d) :
    ∃ model, d.model? = .ok model ∧ model.size = d.atoms.count ∧
      (∀ clause ∈ s.formula, clause.satisfiedBy model = true) ∧
      ∀ l ∈ assumptions, model[l.atom]? = some l.positive := by
  have hc := h.concluded hd
  have hstate : d.state = .satisfiable := by
    have hreport : SolveState.report d.state = .satisfiable := hc.reported.symm
    cases he : d.state <;> rw [he] at hreport <;> first | rfl | cases hreport
  obtain ⟨hmodel, hsize⟩ := hc.satisfiable hstate
  refine ⟨d.model, ?_, hsize, hmodel.clauses, hmodel.assumptions⟩
  unfold model?
  rw [if_pos hstate]

/-- With one of two atoms to hold, and the first assumed not to. -/
theorem satisfiable_sound_or : ∃ (s : Session) (d : Context), s.Reachable ∧ s.formula = [[x₀, x₁]] ∧
    [x₀.negate].length + s.context.atoms.count < levelLimit ∧
    solveGiven 10 [x₀.negate] s.context = .ok .satisfiable d ∧
    ∃ model, d.model? = .ok model ∧ model.size = d.atoms.count ∧
      (∀ clause ∈ s.formula, clause.satisfiedBy model = true) ∧
      ∀ l ∈ [x₀.negate], model[l.atom]? = some l.positive := by
  have h : (trial [.freshAtom, .freshAtom, .addClause [x₀, x₁], .solve 10, .simplify] 10 [x₀.negate]).map
      (fun r => (r.1.formula, r.2.1)) = some ([[x₀, x₁]], .satisfiable) := by
    simp only [trial, Session.run, Session.call, Session.after, addClause, normal_or]
    decide +kernel
  obtain ⟨s, report, d, hs, hd, hview⟩ := reachable_of_trial h
  obtain ⟨hf, rfl⟩ := Prod.mk.inj hview
  have hlevels : [x₀.negate].length + s.context.atoms.count < levelLimit := hs.held.lt_levelLimit (by decide)
  exact ⟨s, d, hs, hf, hlevels, hd, satisfiable_sound hs hlevels hd⟩

/-! ## No model -/

/-- **Unsatisfiable answers are sound and permanent.**  Where a solve finds no model, none of the accepted clauses agrees
with the assumptions; and once it is known that the accepted clauses alone have none, they have none, and every later
solve answers so. -/
theorem unsatisfiable_sound (h : s.Reachable) :
    (∀ fuel assumptions d, assumptions.length + s.context.atoms.count < levelLimit →
      solveGiven fuel assumptions s.context = .ok .unsatisfiable d → ∀ v, s.formula.Holds v → ¬∀ l ∈ assumptions, l.Holds v) ∧
    (s.context.state = .unsatisfiable → ¬s.formula.Satisfiable ∧
      ∀ calls t, s.run calls = some t → t.context.state = .unsatisfiable ∧
        ∀ fuel assumptions, ∃ d, solveGiven fuel assumptions t.context = .ok .unsatisfiable d) := by
  constructor
  · intro fuel assumptions d _ hd v hv
    have hc := h.concluded hd
    have hreport : SolveState.report d.state = .unsatisfiable := hc.reported.symm
    -- such an answer is given in two states
    cases hs : d.state with
    | unsatisfiable => exact absurd ⟨v, hv⟩ (hc.resting.unsatisfiable hs)
    | failedAssumptions => exact (hc.failed hs).not_holds hv
    | _ =>
      rw [hs] at hreport
      cases hreport
  · intro hs
    refine ⟨h.held.unsatisfiable hs, fun calls t ht => ?_⟩
    have hstate := h.held.run_unsatisfiable calls hs ht
    exact ⟨hstate, fun fuel assumptions => ⟨_, solveGiven_unsatisfiable hstate fuel assumptions⟩⟩

/-- With one of two atoms to hold and neither assumed to; and with three clauses, two of which leave the first atom only one
value, and a third against that. -/
theorem unsatisfiable_sound_or_three :
    (∃ (s : Session) (d : Context), s.Reachable ∧ s.formula = [[x₀, x₁]] ∧
      [x₀.negate, x₁.negate].length + s.context.atoms.count < levelLimit ∧
      solveGiven 10 [x₀.negate, x₁.negate] s.context = .ok .unsatisfiable d ∧
      ∀ v, s.formula.Holds v → ¬∀ l ∈ [x₀.negate, x₁.negate], l.Holds v) ∧
    ∃ s : Session, s.Reachable ∧ s.formula = [[x₀, x₁], [x₀, x₁.negate], [x₀.negate]] ∧
      s.context.state = .unsatisfiable ∧ ¬s.formula.Satisfiable ∧
      ∀ calls t, s.run calls = some t → t.context.state = .unsatisfiable ∧
        ∀ fuel assumptions, ∃ d, solveGiven fuel assumptions t.context = .ok .unsatisfiable d := by
  constructor
  · have h : (trial [.freshAtom, .freshAtom, .addClause [x₀, x₁]] 10 [x₀.negate, x₁.negate]).map
        (fun r => (r.1.formula, r.2.1)) = some ([[x₀, x₁]], .unsatisfiable) := by
      simp only [trial, Session.run, Session.call, Session.after, addClause, normal_or]
      decide +kernel
    obtain ⟨s, report, d, hs, hd, hview⟩ := reachable_of_trial h
    obtain ⟨hf, rfl⟩ := Prod.mk.inj hview
    have hlevels : [x₀.negate, x₁.negate].length + s.context.atoms.count < levelLimit :=
      hs.held.lt_levelLimit (by decide)
    exact ⟨s, d, hs, hf, hlevels, hd, (unsatisfiable_sound hs).1 10 [x₀.negate, x₁.negate] d hlevels hd⟩
  · have h : ((start {} .default).run [.freshAtom, .freshAtom, .addClause [x₀, x₁], .addClause [x₀, x₁.negate],
        .addClause [x₀.negate], .solve 10]).map (fun s => (s.formula, s.context.state)) =
        some ([[x₀, x₁], [x₀, x₁.negate], [x₀.negate]], .unsatisfiable) := by
      simp only [Session.run, Session.call, Session.after, addClause, normal_or, normal_or_negate]
      decide +kernel
    obtain ⟨s, hs, hview⟩ := reachable_of_run h
    obtain ⟨hf, hstate⟩ := Prod.mk.inj hview
    exact ⟨s, hs, hf, hstate, (unsatisfiable_sound hs).2 hstate⟩

/-! ## What a context admits -/

/-- **At level zero a context denotes its formula.**  Whatever was simplified, learnt, reduced, decided and undone, the
valuations it admits are the models of the accepted clauses. -/
theorem admits_iff_holds (h : s.Reachable) (hl : s.context.level = 0) (v : Valuation) :
    s.context.Admits v ↔ s.formula.Holds v := by
  by_cases hs : s.context.state = .unsatisfiable
  · exact ⟨fun ha => absurd hs ha.consistent, fun hv => absurd ⟨v, hv⟩ (h.held.unsatisfiable hs)⟩
  have hroot := (h.held.quiet hs).rooted rfl hl
  have hdenotes := hroot.denotes
  constructor
  · intro ha
    refine hdenotes.complete v (fun a b hb => ?_) (fun key ls _ hls => ?_) fun l hmem => ?_
    · exact ha.clauses _ (.binary (Array.mem_toList_iff.1 hb))
    · obtain ⟨stored, hfind, rfl⟩ := ClauseStore.literals?_eq_some_iff.1 hls
      exact ha.clauses _ (.long hfind)
    · rw [hroot.upTo_zero] at hmem
      exact ha.literals l (Array.mem_toList_iff.1 hmem)
  · intro hv
    refine ⟨hs, fun d hd => ?_, fun l hmem => ?_⟩
    · cases hd with
      | binary hb => exact hdenotes.binary _ _ (Array.mem_toList_iff.2 hb) v hv
      | long hfind => exact hdenotes.long _ _ (ClauseStore.literals?_eq_some_iff.2 ⟨_, hfind, rfl⟩) v hv
    · have hzero : l ∈ s.context.trail.upTo 0 := by
        rw [hroot.upTo_zero]
        exact Array.mem_toList_iff.2 hmem
      obtain ⟨m, hm, hmv⟩ := hroot.trailed.entails_of_mem_upTo_zero hdenotes hzero v hv
      exact List.mem_singleton.1 hm ▸ hmv

/-- After a decision that two clauses refute: the literal learnt of it is on the trail. -/
theorem admits_iff_holds_learnt : ∃ s : Session, s.Reachable ∧ s.formula = [[x₀, x₁], [x₀, x₁.negate]] ∧
    s.context.trail.literals = #[x₀] ∧ s.context.level = 0 ∧ ∀ v, s.context.Admits v ↔ s.formula.Holds v := by
  have h : ((start {} .default).run [.freshAtom, .freshAtom, .addClause [x₀, x₁], .addClause [x₀, x₁.negate],
      .decide x₀.negate, .undo x₀.negate, .assertHere]).map
      (fun s => (s.formula, s.context.trail.literals, s.context.level)) =
      some ([[x₀, x₁], [x₀, x₁.negate]], #[x₀], 0) := by
    simp only [Session.run, Session.call, Session.after, addClause, normal_or, normal_or_negate]
    decide +kernel
  obtain ⟨s, hs, hview⟩ := reachable_of_run h
  obtain ⟨hf, hview⟩ := Prod.mk.inj hview
  obtain ⟨htrail, hl⟩ := Prod.mk.inj hview
  exact ⟨s, hs, hf, htrail, hl, admits_iff_holds hs hl⟩

/-! ## Failed assumptions -/

/-- **Failed assumptions are blamed rightly, but for one case.**  What is told negates assumptions, and the accepted
clauses entail that one of it is true, unless it is one literal, which was assumed and so was its negation, and which the
accepted clauses do not entail. -/
theorem failed_entailed_iff (h : s.Reachable) (_hlevels : assumptions.length + s.context.atoms.count < levelLimit)
    (hd : solveGiven fuel assumptions s.context = .ok report d) (hs : d.state = .failedAssumptions) :
    (∀ l ∈ d.failed, l.negate ∈ assumptions) ∧
      (¬s.formula.Entails d.failed ↔
        ∃ l, d.failed = [l] ∧ l ∈ assumptions ∧ l.negate ∈ assumptions ∧ ¬s.formula.Entails [l]) := by
  have hcore := (h.concluded hd).failed hs
  refine ⟨hcore.negated, fun hne => ?_, fun ⟨l, hl, _, _, hne⟩ => hl ▸ hne⟩
  obtain ⟨l, hl, hmem⟩ := hcore.entails.resolve_left hne
  refine ⟨l, hl, hmem, hcore.negated l ?_, hl ▸ hne⟩
  rw [hl]
  exact List.mem_singleton_self l

/-- With one of two atoms to hold, and neither assumed to. -/
theorem failed_entailed_iff_or : ∃ (s : Session) (d : Context), s.Reachable ∧ s.formula = [[x₀, x₁]] ∧
    [x₀.negate, x₁.negate].length + s.context.atoms.count < levelLimit ∧
    solveGiven 10 [x₀.negate, x₁.negate] s.context = .ok .unsatisfiable d ∧ d.state = .failedAssumptions ∧
    (∀ l ∈ d.failed, l.negate ∈ [x₀.negate, x₁.negate]) ∧
      (¬s.formula.Entails d.failed ↔ ∃ l, d.failed = [l] ∧ l ∈ [x₀.negate, x₁.negate] ∧
        l.negate ∈ [x₀.negate, x₁.negate] ∧ ¬s.formula.Entails [l]) := by
  have h : (trial [.freshAtom, .freshAtom, .addClause [x₀, x₁]] 10 [x₀.negate, x₁.negate]).map
      (fun r => (r.1.formula, r.2.1, r.2.2.state)) = some ([[x₀, x₁]], .unsatisfiable, .failedAssumptions) := by
    simp only [trial, Session.run, Session.call, Session.after, addClause, normal_or]
    decide +kernel
  obtain ⟨s, report, d, hs, hd, hview⟩ := reachable_of_trial h
  obtain ⟨hf, hview⟩ := Prod.mk.inj hview
  obtain ⟨rfl, hstate⟩ := Prod.mk.inj hview
  have hlevels : [x₀.negate, x₁.negate].length + s.context.atoms.count < levelLimit := hs.held.lt_levelLimit (by decide)
  exact ⟨s, d, hs, hf, hlevels, hd, hstate, failed_entailed_iff hs hlevels hd hstate⟩

/-- Of an atom assumed to hold and not to hold, only one is told, and no clause entails it. -/
theorem failed_not_entailed : ¬∀ (s : Session) (fuel : Nat) (assumptions : List Literal) (report : Report) (d : Context),
    s.Reachable → assumptions.length + s.context.atoms.count < levelLimit →
    solveGiven fuel assumptions s.context = .ok report d → d.state = .failedAssumptions →
      (∀ l ∈ d.failed, l.negate ∈ assumptions) ∧ s.formula.Entails d.failed := by
  have h : (trial [.freshAtom] 10 [x₀, x₀.negate]).map (fun r => (r.1.formula, r.2.2.state, r.2.2.failed)) =
      some ([], .failedAssumptions, [x₀]) := by
    decide +kernel
  obtain ⟨s, report, d, hs, hd, hview⟩ := reachable_of_trial h
  obtain ⟨hf, hview⟩ := Prod.mk.inj hview
  obtain ⟨hstate, hfailed⟩ := Prod.mk.inj hview
  have hlevels : [x₀, x₀.negate].length + s.context.atoms.count < levelLimit := hs.held.lt_levelLimit (by decide)
  intro hall
  obtain ⟨-, hentails⟩ := hall s 10 [x₀, x₀.negate] report d hs hlevels hd hstate
  dsimp only at hf hfailed
  rw [hf, hfailed] at hentails
  -- a valuation that makes the atom false
  have hv : Clause.Holds (fun _ => false) [x₀] := hentails _ fun _ hc => absurd hc List.not_mem_nil
  revert hv
  decide

end Session
end Cdcl
