import Cdcl.Proofs.Reliability
import Cdcl.Proofs.Undoing
import Cdcl.Proofs.UnitPropagation
import Mathlib.Data.Fintype.Pi
/-!
# ModelCounting — counting models by trying both values of an atom

The models that extend the values at hand are split by the value of an atom without one.  A decision keeps those where its
literal holds: if it succeeds they extend the values it comes to (`completions_of_success`), and if it ends in a conflict
there is none (`completions_of_conflict`).  Where every atom has a value the values are the one model
(`card_completions_of_assigned`).

Each decision is undone, so counting leaves nothing behind but the order of clauses and watches (`countModels_eq_card`).
-/
namespace Cdcl

/-- The valuation that gives some atoms their values, and makes all others false. -/
def Valuation.ofFin {n : Nat} (w : Fin n → Bool) : Valuation := fun a => if h : a < n then w ⟨a, h⟩ else false

theorem Valuation.ofFin_of_lt {n a : Nat} (w : Fin n → Bool) (h : a < n) : ofFin w a = w ⟨a, h⟩ := dif_pos h

/-- The values of so many atoms that agree with given ones, and under which a formula holds. -/
def Formula.completions (f : Formula) (n : Nat) (given : Nat → Option Bool) : Finset (Fin n → Bool) :=
  Finset.univ.filter fun w => f.Holds (.ofFin w) ∧ ∀ (a : Fin n) (b : Bool), given a = some b → w a = b

namespace Context

variable {f : Formula} {settled other : Nat → Prop} {c d : Context} {l m : Literal} {v : Valuation} {n : Nat}

/-! ## The models that extend the values of a context -/

/-- **To agree with the values is to make the trail true.** -/
theorem Base.mem_completions_iff (h : Base f settled c) (hn : c.atoms.count = n) {w : Fin n → Bool} :
    w ∈ f.completions n c.atoms.value ↔
      f.Holds (.ofFin w) ∧ ∀ l ∈ c.trail.literals.toList, l.Holds (.ofFin w) := by
  unfold Formula.completions
  rw [Finset.mem_filter, and_iff_right (Finset.mem_univ w), and_congr_right_iff]
  intro _
  constructor
  · intro hw l hl
    have hk : l.atom < n := hn ▸ h.trailed.mem_known hl
    exact (Valuation.ofFin_of_lt w hk).trans (hw ⟨l.atom, hk⟩ _ ((h.trailed.value l).2 hl))
  · intro hw a b hv
    obtain ⟨l, hl, he, rfl⟩ := h.exists_literal hv
    have hk : l.atom < n := he ▸ a.isLt
    have ha : a = ⟨l.atom, hk⟩ := Fin.ext he.symm
    exact ha ▸ (Valuation.ofFin_of_lt w hk).symm.trans (hw l hl)

/-- **What is derived holds wherever the formula, the trail and the decided literal do.** -/
theorem Denotes.holds_derived (h : Denotes f c) (hf : f.Holds v) (ht : ∀ n ∈ c.trail.literals.toList, n.Holds v)
    (hl : l.Holds v) (hm : c.Derives l m) : m.Holds v :=
  hm.holds (fun _ hc => h.entails hc v hf) fun n hn => hn.elim (ht n) fun he => he ▸ hl

theorem Denotes.allows (h : Denotes f c) (hf : f.Holds v) (ht : ∀ n ∈ c.trail.literals.toList, n.Holds v)
    (hl : l.Holds v) : c.Allows (c.Derives l) where
  apart m hm hn := Literal.holds_negate.1 (h.holds_derived hf ht hl hn) (h.holds_derived hf ht hl hm)
  clauses clause hc := by
    obtain ⟨m, hm, hmv⟩ := h.entails hc v hf
    exact ⟨m, hm, fun hn => Literal.holds_negate.1 (h.holds_derived hf ht hl hn) hmv⟩

/-- **A decision that succeeds keeps the models where its literal holds.** -/
theorem completions_of_success (hc : Base f settled c) (hd : Base f other d) (hs : c.Spread l true d)
    (hcn : c.atoms.count = n) (hdn : d.atoms.count = n) :
    f.completions n d.atoms.value = (f.completions n c.atoms.value).filter (l.Holds <| .ofFin ·) := by
  ext w
  rw [Finset.mem_filter, hd.mem_completions_iff hdn, hc.mem_completions_iff hcn]
  constructor
  · rintro ⟨hf, hw⟩
    exact ⟨⟨hf, fun m hm => hw m ((hs.trail rfl m).2 (.given (.inl hm)))⟩, hw l ((hs.trail rfl l).2 (.given (.inr rfl)))⟩
  · rintro ⟨⟨hf, hw⟩, hl⟩
    exact ⟨hf, fun m hm => hc.denotes.holds_derived hf hw hl ((hs.trail rfl m).1 hm)⟩

/-- **No model makes the literal of a decision true that ends in a conflict.** -/
theorem completions_of_conflict (hc : Base f settled c) (hs : c.Spread l false d) (hcn : c.atoms.count = n) :
    (f.completions n c.atoms.value).filter (l.Holds <| .ofFin ·) = ∅ := by
  apply Finset.filter_eq_empty_iff.2
  intro w hw hl
  obtain ⟨hf, ht⟩ := (hc.mem_completions_iff hcn).1 hw
  exact nomatch hs.success_iff.2 (hc.denotes.allows hf ht hl)

theorem ofFin_currentValuation (hn : c.atoms.count = n) :
    Valuation.ofFin (fun a : Fin n => c.currentValuation a) = c.currentValuation := by
  funext a
  by_cases ha : a < n
  · exact Valuation.ofFin_of_lt _ ha
  · have hnone : c.atoms.value a = none := by
      rw [AtomTable.value_eq, Array.getElem?_eq_none (by unfold AtomTable.count at hn; omega), Option.bind_none]
    unfold Valuation.ofFin currentValuation
    rw [dif_neg ha, hnone, Option.getD_none]

/-- **Where every atom has a value, there is one model.** -/
theorem Explorable.card_completions_of_assigned (h : Explorable f c) (hn : c.atoms.count = n)
    (hall : ∀ a < c.atoms.count, c.atoms.value a ≠ none) : (f.completions n c.atoms.value).card = 1 := by
  apply Finset.card_eq_one.2
  refine ⟨fun a => c.currentValuation a, ?_⟩
  ext w
  rw [Finset.mem_singleton]
  constructor
  · intro hw
    funext a
    obtain ⟨b, hb⟩ := Option.ne_none_iff_exists'.1 (hall a (hn ▸ a.isLt))
    unfold currentValuation
    rw [hb, Option.getD_some]
    exact (Finset.mem_filter.1 hw).2.2 a b hb
  · rintro rfl
    rw [h.mem_completions_iff hn, ofFin_currentValuation hn]
    exact ⟨h.toSound.holds_currentValuation (h.current trivial) hall, fun l => h.trailed.holds_currentValuation⟩

/-- **The models are split by the value of an atom.** -/
theorem card_completions_split {a : Nat} (ha : a < c.atoms.count) (hbound : c.atoms.count ≤ atomLimit) :
    ((f.completions n c.atoms.value).filter ((Literal.ofAtom a true).Holds <| .ofFin ·)).card +
      ((f.completions n c.atoms.value).filter ((Literal.ofAtom a false).Holds <| .ofFin ·)).card =
        (f.completions n c.atoms.value).card := by
  have hlt := Literal.lt_of_lt_atomLimit (Nat.lt_of_lt_of_le ha hbound)
  have hopposite : ∀ v : Valuation, (Literal.ofAtom a false).Holds v ↔ ¬(Literal.ofAtom a true).Holds v := fun v => by
    unfold Literal.Holds
    rw [Literal.atom_ofAtom hlt, Literal.atom_ofAtom hlt, Literal.positive_ofAtom hlt, Literal.positive_ofAtom hlt,
      Bool.not_eq_true]
  simp only [hopposite]
  exact Finset.card_filter_add_card_filter_not _

end Context

namespace Solver

open Run Context

variable {f : Formula} {c d : Context} {l : Literal} {n depth : Nat}

/-! ## Counting -/

/-- **Counting with a literal counts the models where it holds**, if counting further is right. -/
theorem answers_countBranch (h : Explorable f c) (hn : c.atoms.count = n) (hl : l.atom < c.atoms.count)
    (hv : c.atoms.value l.atom = none)
    (hcount : ∀ d, Explorable f d → d.atoms.count = n → c.trail.size < d.trail.size →
      (f.completions n d.atoms.value).card ≤ (f.completions n c.atoms.value).card →
      Answers (countModelsFor depth) d fun k e =>
        k = (f.completions n d.atoms.value).card ∧ Restored d e ∧ Explorable f e) :
    Answers (countModelsFor.countBranch depth l) c fun k d =>
      k = ((f.completions n c.atoms.value).filter (l.Holds <| .ofFin ·)).card ∧ Restored c d ∧ Explorable f d := by
  have hundo : ∀ (k : Nat) (d : Context), Branched f c l d → Reordered c d → Answers (do
      undo l
      pure k) d fun j e => j = k ∧ Restored c e ∧ Explorable f e := fun k d hd ho => by
    rw [answers_bind]
    exact (answers_undo_returned h hd).mono fun _ e he =>
      answers_pure.2 ⟨rfl, ⟨he.toReverted, ho.trans he.reordered⟩, he.toExplorable⟩
  unfold countModelsFor.countBranch
  rw [answers_bind]
  refine (answers_decide_explored h hl hv).mono fun answer d hd => ?_
  rw [answers_ite]
  constructor
  · intro ha
    subst ha
    have hdn : d.atoms.count = n := hd.count.trans hn
    have hnext := hd.explorable rfl
    have hcompletions := completions_of_success h.toBase hnext.toBase hd.spread hn hdn
    rw [answers_bind]
    refine (hcount d hnext hdn hd.size_lt ?_).mono fun k e ⟨hk, hr, he⟩ => ?_
    · rw [hcompletions]
      exact Finset.card_filter_le ..
    · rw [← hcompletions, ← hk]
      exact hundo k e ⟨hd.toRaised.grown hr.grown, he.toQuiet.weaken fun _ _ _ => trivial, he.state, he.heard⟩
        (hd.reordered.trans hr.reordered)
  · intro ha
    obtain rfl : answer = false := Bool.not_eq_true _ ▸ ha
    rw [completions_of_conflict h.toBase hd.spread hn, Finset.card_empty]
    exact hundo 0 d hd.toBranched hd.reordered

/-- **Counting counts the models that extend the values at hand**, and leaves nothing behind.  A level is enough for each
atom without a value. -/
theorem answers_countModelsFor : ∀ (depth : Nat) (c : Context), Explorable f c → c.atoms.count = n →
    n < c.trail.size + depth → (f.completions n c.atoms.value).card < countLimit →
    Answers (countModelsFor depth) c fun k d =>
      k = (f.completions n c.atoms.value).card ∧ Restored c d ∧ Explorable f d
  | 0, c, h, hn, hdepth, _ => by
    have := h.trailed.size_le
    omega
  | depth + 1, c, h, hn, hdepth, hlimit => by
    unfold countModelsFor
    rw [answers_bind, answers_get, answers_ite]
    refine ⟨fun hu => absurd (beq_iff_eq.1 hu) h.state, fun _ => ?_⟩
    cases hfree : c.atoms.firstFree? with
    | none =>
      have hall := fun a => AtomTable.value_ne_none_of_firstFree? (a := a) hfree
      exact answers_pure.2 ⟨(h.card_completions_of_assigned hn hall).symm, .refl c, h⟩
    | some a =>
      obtain ⟨ha, hv⟩ := AtomTable.value_of_firstFree? hfree
      have hatom := Literal.atom_ofAtom (Literal.lt_of_lt_atomLimit (Nat.lt_of_lt_of_le ha h.shaped.bounded))
      -- either way counting goes on from a context with one more value at least
      have hbranch : ∀ (p : Bool) (d : Context), Explorable f d → Restored c d →
          Answers (countModelsFor.countBranch depth (.ofAtom a p)) d fun k e =>
            k = ((f.completions n c.atoms.value).filter ((Literal.ofAtom a p).Holds <| .ofFin ·)).card ∧
              Restored c e ∧ Explorable f e := fun p d hd hr => by
        have hvalue : d.atoms.value = c.atoms.value := funext hr.value
        have hsize : d.trail.size = c.trail.size := congrArg Trail.size hr.trail
        have hdn : d.atoms.count = n := hr.count.trans hn
        refine (answers_countBranch hd hdn ?_ ?_ fun e he hen hlt hle => ?_).mono fun k e ⟨hk, hre, he⟩ =>
          ⟨hvalue ▸ hk, hr.trans hre, he⟩
        · rw [hatom, hdn]
          exact hn ▸ ha
        · rw [hatom, hr.value, hv]
        · refine answers_countModelsFor depth e he hen (by omega) (Nat.lt_of_le_of_lt hle ?_)
          rwa [hvalue]
      dsimp only
      rw [answers_bind]
      refine (hbranch true c h (.refl c)).mono fun positive d ⟨hpositive, hr, hd⟩ => ?_
      rw [answers_bind]
      refine (hbranch false d hd hr).mono fun negative e ⟨hnegative, hre, he⟩ => ?_
      have hsum : positive + negative = (f.completions n c.atoms.value).card := by
        rw [hpositive, hnegative]
        exact card_completions_split ha h.shaped.bounded
      rw [answers_bind, answers_require, hsum]
      exact ⟨decide_eq_true hlimit, answers_pure.2 ⟨rfl, hre, he⟩⟩

end Solver

namespace Session

open Run Context Solver

variable {s : Session} {levels : Nat → Prop}

theorem Clashes.orderly (h : s.Clashes levels) : s.Orderly := by
  induction h with
  | start options random => exact .start options random
  | call _ ht ih => exact ih.call ht

/-- **A tidy session may be explored**, unless it is known that there is no model. -/
theorem Tidy.explorable (h : s.Tidy) (hs : s.context.state ≠ .unsatisfiable) : Explorable s.formula s.context := by
  refine ⟨h.held.quiet hs, hs, ?_⟩
  obtain ⟨levels, hc, -⟩ := h
  exact hc.orderly.counted.heard

/-- **Counting models is exact.**  In a tidy session, at whatever level, it answers how many valuations of the atoms satisfy
all accepted clauses and agree with the values there are, if the number fits its word.  Then the trail with its levels, and
the value, level and reason of every atom are what they were, and so are the live clauses, but for the order of their
literals. -/
theorem countModels_eq_card (h : s.Tidy)
    (hlimit : (s.formula.completions s.context.atoms.count s.context.atoms.value).card < countLimit) :
    ∃ d, countModels s.context =
        .ok (s.formula.completions s.context.atoms.count s.context.atoms.value).card d ∧
      d.level = s.context.level ∧ Restored s.context d ∧ ∀ clause, d.LivePerm clause ↔ s.context.LivePerm clause := by
  have hcount : Answers countModels s.context fun k d =>
      k = (s.formula.completions s.context.atoms.count s.context.atoms.value).card ∧ Restored s.context d := by
    unfold countModels
    rw [answers_bind, answers_get]
    by_cases hs : s.context.state = .unsatisfiable
    · have hnone : s.formula.completions s.context.atoms.count s.context.atoms.value = ∅ :=
        Finset.filter_eq_empty_iff.2 fun w _ hw => h.held.unsatisfiable hs ⟨_, hw.1⟩
      unfold countModelsFor
      rw [answers_bind, answers_get, if_pos (isUnsatisfiable_of_state hs), answers_pure, hnone, Finset.card_empty]
      exact ⟨rfl, .refl _⟩
    · have hexplorable := h.explorable hs
      exact (answers_countModelsFor _ _ hexplorable rfl (by omega) hlimit).mono fun k d hk => ⟨hk.1, hk.2.1⟩
  obtain ⟨k, d, hd, rfl, hr⟩ := hcount
  exact ⟨d, hd, congrArg Trail.level hr.trail, hr, fun _ => hr.reordered.livePerm_iff⟩

/-- With two clauses that leave the first of three atoms no choice, and the third decided: the branch against the first ends
in a conflict, and of the second atom both values are counted. -/
theorem countModels_eq_card_or : ∃ (s : Session) (d : Context), s.Tidy ∧ s.context.level = 1 ∧
    s.formula = [[x₀, x₁], [x₀, x₁.negate]] ∧
    (s.formula.completions s.context.atoms.count s.context.atoms.value).card = 2 ∧
    countModels s.context = .ok 2 d ∧ d.level = 1 ∧ Restored s.context d ∧
    ∀ clause, d.LivePerm clause ↔ s.context.LivePerm clause := by
  have h : ((start {} .default).run [.freshAtom, .freshAtom, .freshAtom, .addClause [x₀, x₁],
      .addClause [x₀, x₁.negate]]).map (fun s => (s.formula, Decidable.decide (s.context.trail.level = 0 ∧
        s.context.state = .input ∧ s.context.atoms.standing x₂ = .free), ((decide x₂).ended s.context).map fun r =>
          (r.1, Decidable.decide (r.2.level = 1 ∧ (s.formula.completions r.2.atoms.count r.2.atoms.value).card = 2)))) =
      some ([[x₀, x₁], [x₀, x₁.negate]], true, some (some true, true)) := by
    simp only [Session.run, Session.call, Session.after, addClause, normal_or, normal_or_negate]
    decide +kernel
  obtain ⟨s, hs, hview⟩ := reachable_of_run h
  simp only [Prod.mk.injEq, decide_eq_true_iff, AtomTable.standing_eq_free_iff, ← AtomTable.knows_iff] at hview
  obtain ⟨hf, ⟨hz, hstate, hk, hv⟩, hview⟩ := hview
  obtain ⟨⟨answer, d⟩, hd, hview⟩ := Option.map_eq_some_iff.1 hview
  simp only [Prod.mk.injEq, decide_eq_true_iff] at hview
  obtain ⟨rfl, hlevel, hcard⟩ := hview
  have htidy : (s.branch d).Tidy := (hs.tidy hz).branch (by simp [hstate]) hk hv (ended_eq_answer hd)
  have hcard' : ((s.branch d).formula.completions (s.branch d).context.atoms.count
      (s.branch d).context.atoms.value).card = 2 := hcard
  obtain ⟨e, he, hlevel', hr⟩ := countModels_eq_card htidy (by rw [hcard']; decide)
  rw [hcard'] at he
  exact ⟨s.branch d, e, htidy, hlevel, hf, hcard', he, hlevel'.trans hlevel, hr⟩

end Session
end Cdcl
