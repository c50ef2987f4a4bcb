import Cdcl.Proofs.Closure
import Cdcl.Proofs.Soundness
/-!
# UnitPropagation — a decision comes to the closure under the unit rule

A conflict stops propagation, so not all that a level implies is on the trail then, until the level is undone.  A session
where every level with a conflict has been undone is tidy, and everything is propagated there (`Tidy.held`).

A decision in a tidy session comes to exactly what the unit rule derives (`decide_unitClosure`), whatever the order of the
watch lists, of the clauses, or of the literals within clauses.  Once it is known that there is no model, nothing is decided
any more (`decide_not_unitClosure`).
-/
namespace Cdcl
namespace Session

open Run Context Solver

variable {s t : Session} {levels : Nat → Prop} {k : Call} {l : Literal} {c d : Context}

/-! ## Levels with a conflict -/

/-- The levels above zero, not undone since, where a call has left a live clause false. -/
inductive Clashes : Session → (Nat → Prop) → Prop
  | start (options : Options) (random : Chance) : Clashes (start options random) fun _ => False
  | call {s t : Session} {levels : Nat → Prop} {k : Call} (h : Clashes s levels) (ht : s.call k = some t) :
    Clashes t fun n => n ≤ t.context.trail.level ∧ (levels n ∨ n = t.context.trail.level ∧ 0 < n ∧ t.context.Clashing)

/-- Calls have led here from a context just made, and every level with a conflict has been undone. -/
def Tidy (s : Session) : Prop := ∃ levels, s.Clashes levels ∧ ∀ n, ¬levels n

theorem Clashes.le (h : s.Clashes levels) {n : Nat} (hn : levels n) : n ≤ s.context.trail.level := by
  cases h with
  | start => exact hn.elim
  | call => exact hn.1

theorem Clashes.pos (h : s.Clashes levels) {n : Nat} (hn : levels n) : 0 < n := by
  induction h with
  | start => exact hn.elim
  | call _ _ ih => exact hn.2.elim ih fun h => h.2.1

theorem gapless_below (hpos : ∀ n, levels n → 0 < n) : Gapless fun k => ∀ n, levels n → k < n :=
  ⟨hpos, fun _ hk n hn => Nat.lt_of_succ_lt (hk n hn)⟩

/-- What a call leaves unsettled is the level it ended at, and that only if it has a conflict. -/
theorem Held.below_clashes (h : Held (t.context.clear fun k => ∀ n, levels n → k < n) t) :
    Held (fun k => ∀ n, n ≤ t.context.trail.level ∧
      (levels n ∨ n = t.context.trail.level ∧ 0 < n ∧ t.context.Clashing) → k < n) t := by
  refine h.weaken fun k hle hk => ⟨fun n hn => ?_, fun ⟨he, hpos, hc⟩ => ?_⟩
  · by_cases hnle : n ≤ t.context.trail.level
    · exact hk n ⟨hnle, .inl hn⟩
    · omega
  · exact Nat.lt_irrefl k (hk k ⟨hle, .inr ⟨he, hpos, hc⟩⟩)

/-- **Levels below any with a conflict are settled.** -/
theorem Clashes.held (h : s.Clashes levels) : Held (fun k => ∀ n, levels n → k < n) s := by
  induction h with
  | start options random => exact held_start options random
  | call h ht ih => exact (ih.call (gapless_below fun _ => h.pos) ht).below_clashes

theorem Clashes.run : ∀ (calls : List Call) {s t : Session} {levels : Nat → Prop}, s.Clashes levels →
    s.run calls = some t → ∃ levels, t.Clashes levels
  | [], _, _, levels, h, ht => by
    cases ht
    exact ⟨levels, h⟩
  | _ :: rest, _, _, _, h, ht => by
    obtain ⟨u, hu, ht⟩ := Option.bind_eq_some_iff.1 ht
    exact Clashes.run rest (h.call hu) ht

/-! ## Tidy sessions -/

/-- **Everything is settled in a tidy session.** -/
theorem Tidy.held (h : s.Tidy) : Held (fun _ => True) s := by
  obtain ⟨levels, h, hnone⟩ := h
  exact h.held.weaken fun _ _ _ n hn => absurd hn (hnone n)

theorem Reachable.tidy (h : s.Reachable) (hz : s.context.trail.level = 0) : s.Tidy := by
  obtain ⟨options, random, calls, hs⟩ := h
  obtain ⟨levels, h⟩ := Clashes.run calls (.start options random) hs
  refine ⟨levels, h, fun n hn => ?_⟩
  have := h.le hn
  have := h.pos hn
  omega

/-- A call that leaves no live clause false leaves a tidy session tidy. -/
theorem Tidy.call (h : s.Tidy) (ht : s.call k = some t) (hc : ¬t.context.Clashing) : t.Tidy := by
  obtain ⟨levels, h, hnone⟩ := h
  exact ⟨_, h.call ht, fun n ⟨_, hn⟩ => hn.elim (hnone n) fun hn => hc hn.2.2⟩

theorem not_clashing_of_slack (h : ∀ clause, c.Live clause → c.Slack clause) : ¬c.Clashing := by
  rintro ⟨clause, hl, hfalse⟩
  rcases h clause hl with ⟨m, hm, ht⟩ | ⟨a, ha, -, -, -, hv, -⟩
  · have hf := AtomTable.isFalse_iff.1 (hfalse m hm)
    rw [AtomTable.isTrue_iff.1 ht] at hf
    simp at hf
  · have hf := AtomTable.isFalse_iff.1 (hfalse a ha)
    rw [hv] at hf
    cases hf

/-- **A decision in a tidy session spreads by the unit rule.** -/
theorem Tidy.spread (h : s.Tidy) (hs : s.context.state ≠ .unsatisfiable) (hk : s.context.atoms.knows l.atom = true)
    (hv : s.context.atoms.value l.atom = none) : Answers (decide l) s.context (s.context.Spread l) :=
  answers_decide_spread (h.held.quiet hs) hs (AtomTable.knows_iff.1 hk) hv

/-- **A decision without a conflict leaves a tidy session tidy.** -/
theorem Tidy.branch (h : s.Tidy) (hs : s.context.state ≠ .unsatisfiable) (hk : s.context.atoms.knows l.atom = true)
    (hv : s.context.atoms.value l.atom = none) (hd : decide l s.context = .ok true d) : (s.branch d).Tidy := by
  obtain ⟨success, e, he, hspread⟩ := h.spread hs hk hv
  rw [hd] at he
  cases he
  have ht : s.call (.decide l) = some (s.branch d) := by
    simp only [Session.call, Session.after, ended, hd, Option.map_some]
  exact h.call ht (not_clashing_of_slack (hspread.slack rfl))

/-! ## Unit propagation -/

/-- **Propagation computes the closure under the unit rule.**  In a tidy session where it is not known that there is no
model, any literal of a known atom without a value may be decided.  That succeeds exactly where the closure of the trail and
the literal, by all live clauses, has no two opposite literals and makes no live clause false; and then the trail is the
closure.  If not, propagation names a live clause that is false.  So where the trail has the same literals, and the live
clauses are the same but for the order of their literals, a decision comes to the same. -/
theorem decide_unitClosure (h : s.Tidy) (hs : s.context.state ≠ .unsatisfiable)
    (hk : s.context.atoms.knows l.atom = true) (hv : s.context.atoms.value l.atom = none) :
    ∃ success d, decide l s.context = .ok success d ∧ s.context.Spread l success d ∧
      ∀ t : Session, t.Tidy → t.context.state ≠ .unsatisfiable → t.context.atoms.knows l.atom = true →
        (∀ m, m ∈ t.context.trail.literals.toList ↔ m ∈ s.context.trail.literals.toList) →
        (∀ clause, t.context.LivePerm clause ↔ s.context.LivePerm clause) →
        ∃ e, decide l t.context = .ok success e ∧
          (success = true → ∀ m, m ∈ e.trail.literals.toList ↔ m ∈ d.trail.literals.toList) := by
  obtain ⟨success, d, hd, hspread⟩ := h.spread hs hk hv
  refine ⟨success, d, hd, hspread, fun t ht hts htk htrail hlive => ?_⟩
  have htrailed := (h.held.quiet hs).trailed
  have hfree := htrailed.not_mem_of_value_none hv
  have htv : t.context.atoms.value l.atom = none :=
    (ht.held.quiet hts).trailed.value_eq_none (fun hm => hfree.1 ((htrail l).1 hm)) fun hm => hfree.2 ((htrail _).1 hm)
  obtain ⟨success', e, he, hspread'⟩ := ht.spread hts htk htv
  obtain ⟨rfl, hsame⟩ := hspread.unique hspread' htrail hlive
  exact ⟨e, he, hsame⟩

/-- With a clause of three literals, of which a unit makes the second false, and the first is decided not to hold; and with
two clauses that leave the first atom one value only, where the other value is decided. -/
theorem decide_unitClosure_or_three :
    (∃ (s : Session) (d : Context), s.Tidy ∧ s.formula = [[x₀, x₁, x₂], [x₁.negate]] ∧
      decide x₀.negate s.context = .ok true d ∧ d.newlyImplied = [x₂] ∧ s.context.Spread x₀.negate true d) ∧
    ∃ (s : Session) (d : Context), s.Tidy ∧ s.formula = [[x₀, x₁], [x₀, x₁.negate]] ∧
      decide x₀.negate s.context = .ok false d ∧ s.context.Spread x₀.negate false d := by
  constructor
  · have h : ((start {} .default).run [.freshAtom, .freshAtom, .freshAtom, .addClause [x₀, x₁, x₂],
        .addClause [x₁.negate]]).map (fun s => (s.formula, Decidable.decide (s.context.trail.level = 0 ∧
          s.context.state = .input ∧ s.context.atoms.standing x₀.negate = .free),
          ((decide x₀.negate).ended s.context).map fun r => (r.1, r.2.newlyImplied))) =
        some ([[x₀, x₁, x₂], [x₁.negate]], true, some (some true, [x₂])) := by
      simp only [Session.run, Session.call, Session.after, addClause, normal_or_three]
      decide +kernel
    obtain ⟨s, hs, hview⟩ := reachable_of_run h
    simp only [Prod.mk.injEq, decide_eq_true_iff, AtomTable.standing_eq_free_iff, ← AtomTable.knows_iff] at hview
    obtain ⟨hf, ⟨hz, hstate, hk, hv⟩, hview⟩ := hview
    obtain ⟨⟨answer, d⟩, hd, hview⟩ := Option.map_eq_some_iff.1 hview
    obtain ⟨rfl, hnew⟩ := Prod.mk.inj hview
    obtain ⟨success, e, he, hspread, -⟩ := decide_unitClosure (l := x₀.negate) (hs.tidy hz) (by simp [hstate]) hk hv
    cases (ended_eq_answer hd).symm.trans he
    exact ⟨s, d, hs.tidy hz, hf, he, hnew, hspread⟩
  · have h : ((start {} .default).run [.freshAtom, .freshAtom, .addClause [x₀, x₁], .addClause [x₀, x₁.negate]]).map
        (fun s => (s.formula, Decidable.decide (s.context.trail.level = 0 ∧ s.context.state = .input ∧
          s.context.atoms.standing x₀.negate = .free), ((decide x₀.negate).ended s.context).map (·.1))) =
        some ([[x₀, x₁], [x₀, x₁.negate]], true, some (some false)) := by
      simp only [Session.run, Session.call, Session.after, addClause, normal_or, normal_or_negate]
      decide +kernel
    obtain ⟨s, hs, hview⟩ := reachable_of_run h
    simp only [Prod.mk.injEq, decide_eq_true_iff, AtomTable.standing_eq_free_iff, ← AtomTable.knows_iff] at hview
    obtain ⟨hf, ⟨hz, hstate, hk, hv⟩, hview⟩ := hview
    obtain ⟨⟨answer, d⟩, hd, rfl⟩ := Option.map_eq_some_iff.1 hview
    obtain ⟨success, e, he, hspread, -⟩ := decide_unitClosure (l := x₀.negate) (hs.tidy hz) (by simp [hstate]) hk hv
    cases (ended_eq_answer hd).symm.trans he
    exact ⟨s, d, hs.tidy hz, hf, he, hspread⟩

/-- Where it is known that there is no model, a decision does not succeed, though what is derived may be allowed. -/
theorem decide_not_unitClosure : ¬∀ (s : Session) (l : Literal), s.Tidy → s.context.trail.propagated = true →
    s.context.atoms.knows l.atom = true → s.context.atoms.value l.atom = none →
    ∃ success d, decide l s.context = .ok success d ∧ (success = true ↔ s.context.Allows (s.context.Derives l)) := by
  have h : ((start {} .default).run [.freshAtom, .addClause []]).map
      (fun s => (Decidable.decide (s.context.trail.level = 0 ∧ s.context.trail.propagated = true ∧
        s.context.trail.literals = #[] ∧ s.context.atoms.standing x₀ = .free),
        Decidable.decide (s.context.watches.binary = #[#[], #[]] ∧ s.context.clauses.input.size = 0 ∧
          s.context.clauses.learnt.size = 0), ((decide x₀).ended s.context).map (·.1))) =
      some (true, true, some (some false)) := by
    decide +kernel
  obtain ⟨s, hs, hview⟩ := reachable_of_run h
  simp only [Prod.mk.injEq, decide_eq_true_iff, AtomTable.standing_eq_free_iff, ← AtomTable.knows_iff] at hview
  obtain ⟨⟨hz, hpropagated, htrail, hk, hv⟩, ⟨hbinary, hinput, hlearnt⟩, hview⟩ := hview
  obtain ⟨⟨answer, d⟩, hd, rfl⟩ := Option.map_eq_some_iff.1 hview
  -- no clause is live, so what is derived is the literal
  have hlive : ∀ clause, ¬s.context.Live clause := by
    refine not_live_of_empty (fun l => ?_) (Array.size_eq_zero_iff.1 hinput) (Array.size_eq_zero_iff.1 hlearnt)
    unfold Watches.binaryOf
    rw [hbinary]
    match l.index with
    | 0 => rfl
    | 1 => rfl
    | _ + 2 => rfl
  have hderives : ∀ m, s.context.Derives x₀ m → m = x₀ := fun m hm =>
    UnitClosure.subset_of_closed (s := (· = x₀)) (fun n hn => hn.resolve_left (by simp [htrail]))
      (fun clause n hc => absurd hc (hlive clause)) hm
  have hallows : s.context.Allows (s.context.Derives x₀) := by
    refine ⟨fun m hm hn => ?_, fun clause hc => absurd hc (hlive clause)⟩
    have hself := hderives _ hn
    rw [hderives m hm] at hself
    exact absurd hself (by decide)
  intro hall
  obtain ⟨success, g, hg, hiff⟩ := hall s x₀ (hs.tidy hz) hpropagated hk hv
  cases (ended_eq_answer hd).symm.trans hg
  exact nomatch hiff.2 hallows

end Session
end Cdcl
