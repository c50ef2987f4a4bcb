import Cdcl.Proofs.ModelCounting
/-!
# ModelSearch — a model found by deciding, asserting and undoing

A search for a model decides an atom, and where the branch fails it undoes the decision and asserts what was learnt.  The
search goes on if that succeeds, from one literal more than before, so as much fuel as there are atoms is enough
(`yields_findModel`).  If not, there is no way on from this level: it is known that there is no model, or a clause waits for
a level below (`Blocked`), and the search that decided this level takes it from there.

So whatever level a search starts at, it finds a model or comes back to that level (`findModel_decides`).
-/
namespace Cdcl
namespace Context

/-- Every atom has a value, and the values satisfy a formula. -/
structure Found (f : Formula) (c : Context) : Prop where
  valued : ∀ a < c.atoms.count, c.atoms.value a ≠ none
  holds : f.Holds c.currentValuation

/-- A search came back to where it started, and there is no way on. -/
structure Blocked (f : Formula) (c d : Context) : Prop where
  grown : Grown c d
  idle : Idle f (d.clear fun _ => True) d
  thwarted : d.Thwarted
  heard : d.listeners.onUnassign ≠ .track

/-- How a search for a model ends. -/
def Sought (f : Formula) (c : Context) : Bool → Context → Prop
  | true, d => Found f d
  | false, d => Blocked f c d

variable {f : Formula} {settled : Nat → Prop} {c d e : Context} {l : Literal} {answer : Bool}

theorem Sought.after (h : Sought f d answer e) (hg : Grown c d) : Sought f c answer e := by
  cases answer with
  | true => exact h
  | false => exact ⟨hg.trans h.grown, h.idle, h.thwarted, h.heard⟩

/-- What was learnt comes to the current level. -/
theorem Asserted.grown (h : Solver.Asserted f settled c d) : Grown c d :=
  have hforgot : Reverted c { c with pending := none } := ⟨rfl, rfl, fun _ => rfl, fun _ => rfl, fun _ => rfl⟩
  hforgot.grown.trans h.extended.grown

theorem Explorable.found (h : Explorable f c) (hall : ∀ a < c.atoms.count, c.atoms.value a ≠ none) : Found f c :=
  ⟨hall, h.toSound.holds_currentValuation (h.current trivial) hall⟩

theorem Thwarted.exists_pending (h : c.Thwarted) (hl : 0 < c.trail.level) :
    ∃ p, c.pending = some p ∧ p.level < c.trail.level :=
  h.resolve_left fun hz => Nat.ne_of_gt hl hz.1

theorem level_ne_of_not_atAssertionLevel {p : LearntClause} (h : ¬c.atAssertionLevel = true) (hp : c.pending = some p) :
    p.level ≠ c.trail.level := by
  intro he
  apply h
  unfold atAssertionLevel
  rw [hp]
  exact beq_iff_eq.2 he

end Context

namespace Solver

open Run Context

variable {f : Formula} {c d : Context} {l : Literal} {fuel : Nat} {why : Interrupt → Prop}

/-- **Where a branch failed, the search goes on if the clause that was learnt asserts here.**  Each time there is one literal
more on the trail. -/
theorem yields_findOn (hfull : why .full) (hc : Explorable f c) (hd : Branched f c l d) (hw : Waiting f d) (ht : d.Thwarted)
    (hfind : ∀ e, Explorable f e → e.atoms.count = c.atoms.count → c.trail.size < e.trail.size →
      Yields (findModel fuel) e (Sought f e) why) :
    Yields (do
      undo l
      match ← assertIfHere with
      | some true => findModel fuel
      | _ => pure false) d (Sought f c) why := by
  obtain ⟨p, hp, hbelow⟩ := ht.exists_pending (hd.trail_level ▸ Nat.succ_pos _)
  refine (answers_undo_returned hc hd).yields.bind fun _ e he => ?_
  have hidle : Idle f (fun _ => True) e := ⟨.of_quiet he.toQuiet he.state, he.waiting hw⟩
  have hback := he.toReverted.grown
  refine ((yields_assertIfHere hfull hidle).and (within_assertIfHere (R := Kept) e).meets).bind fun answer g ⟨hg, hkept⟩ => ?_
  have hheard : g.listeners.onUnassign ≠ .track := hkept.onUnassign ▸ he.heard
  cases answer with
  | none =>
    obtain ⟨rfl, hl⟩ := hg
    have hpending := he.pending.trans hp
    have hne := level_ne_of_not_atAssertionLevel hl hpending
    rw [hd.trail_level, ← hback.trail_level] at hbelow
    exact yields_pure ⟨hback, hidle.clear, .inr ⟨p, hpending, by omega⟩, hheard⟩
  | some answer =>
    obtain ⟨i, hasserted, hresumed⟩ := hg
    have hgrown := (hback.trans (Asserted.grown hasserted)).trans hresumed.grown
    cases answer with
    | false => exact yields_pure ⟨hgrown, hresumed.idle, hresumed.thwarted rfl, hheard⟩
    | true =>
      have hstate : g.state ≠ .unsatisfiable := by
        rw [hresumed.state rfl, hasserted.state]
        exact he.state
      have hsize : c.trail.size < g.trail.size := by
        have hlt := hasserted.size
        rw [he.trail] at hlt
        exact Nat.lt_of_lt_of_le hlt hresumed.grown.size_le
      have hnext : Explorable f g := ⟨(hresumed.settles rfl).quiet hstate, hstate, hheard⟩
      exact (hfind g hnext hgrown.count hsize).mono fun _ _ hs => hs.after hgrown

/-- **A search for a model finds one, or comes back to its level with no way on.**  It does not run out of fuel where each
atom without a value has some. -/
theorem yields_findModel (hfull : why .full) : ∀ (fuel : Nat) (c : Context), Explorable f c → c.atoms.count < c.trail.size + fuel →
    Yields (findModel fuel) c (Sought f c) why
  | 0, c, h, hfuel => by
    have := h.trailed.size_le
    omega
  | fuel + 1, c, h, hfuel => by
    -- a search that goes on has one literal more at least, and one unit of fuel less
    have hfind : ∀ e, Explorable f e → e.atoms.count = c.atoms.count → c.trail.size < e.trail.size →
        Yields (findModel fuel) e (Sought f e) why := fun e he hcount hlt =>
      yields_findModel hfull fuel e he (by omega)
    unfold findModel
    rw [yields_bind_get]
    refine yields_ite (fun hu => absurd (beq_iff_eq.1 hu) h.state) fun _ => ?_
    cases hfree : c.atoms.firstFree? with
    | none => exact yields_pure (h.found fun a => AtomTable.value_ne_none_of_firstFree? hfree)
    | some a =>
      obtain ⟨ha, hv⟩ := AtomTable.value_of_firstFree? hfree
      have hatom := Literal.atom_ofAtom (Literal.lt_of_lt_atomLimit (Nat.lt_of_lt_of_le ha h.shaped.bounded)) true
      dsimp only
      refine (answers_decide_explored h (hatom.symm ▸ ha) (hatom.symm ▸ hv)).yields.bind fun answer d hd => ?_
      cases answer with
      | false => exact yields_findOn hfull h hd.toBranched hd.waiting (hd.thwarted rfl) hfind
      | true =>
        rw [if_pos rfl]
        refine (hfind d (hd.explorable rfl) hd.count hd.size_lt).bind fun found e he => ?_
        cases found with
        | true => exact yields_pure he
        | false =>
          have hraised := hd.toRaised.grown he.grown
          have hstate := he.idle.toResting.state_ne (hraised.trail_level ▸ Nat.succ_pos _)
          exact yields_findOn hfull h ⟨hraised, he.idle.quiet hstate, hstate, he.heard⟩ he.idle.waiting he.thwarted hfind

end Solver

namespace Session

open Run Context Solver

variable {s : Session} {fuel : Nat} {d : Context}

/-- How a search for a model ends, wherever it starts. -/
structure Decides (s : Session) (fuel : Nat) : Prop where
  stops : Stops (findModel fuel) s.context (· = .full)
  found : ∀ d, findModel fuel s.context = .ok true d →
    (∀ a < d.atoms.count, d.atoms.value a ≠ none) ∧ s.formula.Holds d.currentValuation
  level : ∀ d, findModel fuel s.context = .ok false d → d.level = s.context.level ∧ Grown s.context d
  blocked : ∀ d, findModel fuel s.context = .ok false d →
    (d.level = 0 ∧ d.state = .unsatisfiable ∧ ¬s.formula.Satisfiable) ∨
      (0 < d.level ∧ ∃ p, d.pending = some p ∧ p.level < d.level ∧ s.formula.Entails p.clause)
  root : s.context.level = 0 → ∀ found d, findModel fuel s.context = .ok found d →
    (found = true ↔ s.formula.Satisfiable)

/-- **A search for a model decides whether there is one.**  In a tidy session, at whatever level, it ends with enough fuel,
and it fails only where there is no room for a clause.  On success every atom has a value, and the values satisfy all
accepted clauses.  If not, the level is the same again, and it may only have got further literals that are implied; at
level zero there is no model then, and above a clause that follows waits for a level below. -/
theorem findModel_decides (h : s.Tidy) (hfuel : s.context.atoms.count < fuel) : s.Decides fuel := by
  have hyields : Yields (findModel fuel) s.context (fun found d => Sought s.formula s.context found d ∨
      found = false ∧ d = s.context ∧ s.context.state = .unsatisfiable) (· = .full) := by
    by_cases hs : s.context.state = .unsatisfiable
    · obtain ⟨fuel, rfl⟩ := Nat.exists_eq_succ_of_ne_zero (Nat.ne_zero_of_lt hfuel)
      unfold findModel
      rw [yields_bind_get, if_pos (isUnsatisfiable_of_state hs)]
      exact yields_pure (.inr ⟨rfl, rfl, hs⟩)
    · have hsearch := @yields_findModel s.formula (· = .full) rfl fuel _ (h.explorable hs) (by omega)
      exact hsearch.mono fun _ _ => .inl
  have hblocked : ∀ d, findModel fuel s.context = .ok false d → Grown s.context d ∧
      ((d.level = 0 ∧ d.state = .unsatisfiable ∧ ¬s.formula.Satisfiable) ∨
        (0 < d.level ∧ ∃ p, d.pending = some p ∧ p.level < d.level ∧ s.formula.Entails p.clause)) := fun d hd => by
    rcases hyields.meets.of_ok hd with hb | ⟨-, rfl, hs⟩
    · refine ⟨hb.grown, hb.thwarted.imp ?_ ?_⟩
      · rintro ⟨hz, hs⟩
        exact ⟨hz, hs, (hb.idle.barren hs).unsatisfiable⟩
      · rintro ⟨p, hp, hlt⟩
        obtain ⟨-, _, _, ha⟩ := hb.idle.waiting p hp
        exact ⟨Nat.zero_lt_of_lt hlt, p, hp, hlt, ha.clause ▸ ha.entails⟩
    · exact ⟨(Reverted.refl _).grown, .inl ⟨(h.held.barren hs).level, hs, h.held.unsatisfiable hs⟩⟩
  have hfound : ∀ d, findModel fuel s.context = .ok true d → Found s.formula d := fun d hd =>
    (hyields.meets.of_ok hd).resolve_right fun hend => Bool.false_ne_true hend.1.symm
  refine ⟨hyields.stops, fun d hd => ⟨(hfound d hd).valued, (hfound d hd).holds⟩,
    fun d hd => ⟨(hblocked d hd).1.trail_level, (hblocked d hd).1⟩, fun d hd => (hblocked d hd).2, fun hz found d hd => ?_⟩
  cases found with
  | true => exact iff_of_true rfl ⟨_, (hfound d hd).holds⟩
  | false =>
    obtain ⟨hgrown, hend⟩ := hblocked d hd
    have hlevel : d.level = 0 := hgrown.trail_level.trans hz
    rcases hend with ⟨-, -, hno⟩ | ⟨hpos, -⟩
    · exact iff_of_false Bool.false_ne_true hno
    · exact absurd hlevel (Nat.ne_of_gt hpos)

/-- With four clauses that no values of two atoms satisfy, and the third atom decided: the first branch ends in a conflict,
and what is learnt from it asserts at level zero, so at level one there is no way on. -/
theorem findModel_decides_or : ∃ (s : Session) (d : Context) (p : LearntClause), s.Tidy ∧ s.context.level = 1 ∧
    s.formula = [[x₀, x₁], [x₀, x₁.negate], [x₀.negate, x₁], [x₀.negate, x₁.negate]] ∧ s.context.atoms.count < 4 ∧
    findModel 4 s.context = .ok false d ∧ d.level = 1 ∧ d.pending = some p ∧ p.clause = [x₀.negate] ∧ s.Decides 4 := by
  have hfirst : Clause.normal [x₀.negate, x₁] = [x₀.negate, x₁] := Clause.normal_of_pairwise (by decide)
  have hboth : Clause.normal [x₀.negate, x₁.negate] = [x₀.negate, x₁.negate] := Clause.normal_of_pairwise (by decide)
  have h : ((start {} .default).run [.freshAtom, .freshAtom, .freshAtom, .addClause [x₀, x₁],
      .addClause [x₀, x₁.negate], .addClause [x₀.negate, x₁], .addClause [x₀.negate, x₁.negate]]).map (fun s =>
        (s.formula, Decidable.decide (s.context.trail.level = 0 ∧ s.context.state = .input ∧
          s.context.atoms.standing x₂ = .free), ((decide x₂).ended s.context).map fun r =>
            (Decidable.decide (r.1 = some true ∧ r.2.level = 1 ∧ r.2.atoms.count < 4), ((findModel 4).ended r.2).map fun t =>
              Decidable.decide (t.1 = some false ∧ t.2.level = 1 ∧ t.2.pending.map (·.clause) = some [x₀.negate])))) =
      some ([[x₀, x₁], [x₀, x₁.negate], [x₀.negate, x₁], [x₀.negate, x₁.negate]], true,
        some (true, some true)) := by
    simp only [Session.run, Session.call, Session.after, addClause, normal_or, normal_or_negate, hfirst, hboth]
    decide +kernel
  obtain ⟨s, hs, hview⟩ := reachable_of_run h
  simp only [Prod.mk.injEq, decide_eq_true_iff, AtomTable.standing_eq_free_iff, ← AtomTable.knows_iff] at hview
  obtain ⟨hf, ⟨hz, hstate, hk, hv⟩, hview⟩ := hview
  obtain ⟨⟨answer, d⟩, hd, hview⟩ := Option.map_eq_some_iff.1 hview
  simp only [Prod.mk.injEq, decide_eq_true_iff] at hview
  obtain ⟨⟨rfl, hlevel, hcount⟩, hview⟩ := hview
  obtain ⟨⟨found, e⟩, he, hview⟩ := Option.map_eq_some_iff.1 hview
  obtain ⟨rfl, hback, hpending⟩ := of_decide_eq_true hview
  obtain ⟨p, hp, hclause⟩ := Option.map_eq_some_iff.1 hpending
  have htidy : (s.branch d).Tidy := (hs.tidy hz).branch (by simp [hstate]) hk hv (ended_eq_answer hd)
  exact ⟨s.branch d, e, p, htidy, hlevel, hf, hcount, ended_eq_answer he, hback, hp, hclause,
    findModel_decides htidy hcount⟩

end Session
end Cdcl
