import Cdcl.Proofs.Calls
import Cdcl.Proofs.Closure
import Cdcl.Proofs.Soundness
import Cdcl.Proofs.Stopping
/-!
# Admission — what becomes of a clause that is added

Sorting and leaving out repetitions make of a clause the list of its literals in order, so it does not matter in which order
they were given, or how often (`addClause_congr`).  Where a clause has no literal beside its negation, and no true one, its
literals that are not false are those without a value (`Open.leftOf_eq`), and their number tells what is done with them:
one is propagated at level zero, two come to the binary lists, and more are stored as a clause that its first two literals
watch.

What a literal that is assigned at level zero comes to is told by the unit rule, as for a decision: it is contradictory if
what is derived has two opposite literals, or makes a live clause false.
-/
namespace Cdcl

open Run

/-- A clause has a literal and its negation. -/
def Clause.Opposed (clause : Clause) : Prop := ∃ l ∈ clause, l.negate ∈ clause

namespace Context

/-- A clause has no literal beside its negation, and no true one. -/
structure Open (c : Context) (clause : Clause) : Prop where
  apart : ¬clause.Opposed
  untrue : ¬∃ l ∈ clause, c.atoms.isTrue l = true

/-- The literals of a clause that have no value, each once, in the order of literals. -/
def unvalued (c : Context) (clause : Clause) : Clause := clause.normal.filter fun l => (c.atoms.value l.atom).isNone

/-- A literal has been assigned at level zero, and the trail has what the unit rule derives, and nothing else.  No clause was
stored. -/
structure Assigned (c : Context) (l : Literal) (d : Context) : Prop where
  extended : Extends { c with state := .input } d
  still : Still { c with state := .input } d
  reordered : Reordered c d
  grown : c.trail.literals.toList ++ [l] <+: d.trail.literals.toList
  once : d.trail.literals.toList.Nodup
  derived : ∀ m, m ∈ d.trail.literals.toList ↔ c.Derives l m
  propagated : d.trail.propagated = true

/-- Two literals have come to the binary lists of each other, and nothing else has changed. -/
structure Coupled (c : Context) (a b : Literal) (d : Context) : Prop where
  rest : d = { c with state := .input, watches := d.watches }
  long : d.watches.long = c.watches.long
  binary : ∀ l, d.watches.binaryOf l =
    if l = a then (c.watches.binaryOf a).push b else if l = b then (c.watches.binaryOf b).push a else c.watches.binaryOf l

/-- A clause has been stored under the next key, and its first two literals watch it.  Nothing else has changed. -/
structure Entered (c : Context) (clause : Clause) (d : Context) : Prop where
  rest : d = { c with
    state := .input
    clauses := c.clauses.pushInput (.input c.clauses.input.size) clause
    watches := d.watches }
  found : ∀ key stored, d.clauses.find key = .ok stored ↔
    c.clauses.find key = .ok stored ∨ key = .input c.clauses.input.size ∧ stored = ⟨key, clause, 0.0⟩
  binary : d.watches.binary = c.watches.binary
  long : ∀ l, d.watches.longOf l =
    if l ∈ clause.take 2 then (c.watches.longOf l).push (.input c.clauses.input.size) else c.watches.longOf l

/-- Literals without a value have been added as a clause, by how many there are. -/
inductive Taken (c d : Context) : Clause → Prop
  | unit {l : Literal} (h : Assigned c l d) : Taken c d [l]
  | pair {a b : Literal} (h : Coupled c a b d) : Taken c d [a, b]
  | long {clause : Clause} (hlen : 3 ≤ clause.length) (h : Entered c clause d) : Taken c d clause

/-- No literal is left of a clause, or one whose unit propagation is contradictory. -/
def Contradicts (c : Context) (clause : Clause) : Prop := clause = [] ∨ ∃ l, clause = [l] ∧ ¬c.Allows (c.Derives l)

/-- What adding literals without a value comes to. -/
inductive Installed (c d : Context) (clause : Clause) : ClauseOutcome → Prop
  | unsatisfiable (h : c.Contradicts clause) (hs : d.state = .unsatisfiable) : Installed c d clause .unsatisfiable
  | added (h : ¬c.Contradicts clause) (ht : c.Taken d clause) : Installed c d clause .added

/-- What a clause of known atoms comes to at level zero. -/
structure Admission (c : Context) (clause : Clause) (outcome : ClauseOutcome) (d : Context) : Prop where
  tautology : outcome = .tautology ↔ clause.Opposed
  satisfied : outcome = .satisfied ↔ ¬clause.Opposed ∧ ∃ l ∈ clause, c.atoms.isTrue l = true
  unsatisfiable : outcome = .unsatisfiable ↔ c.Open clause ∧
    ((∀ l ∈ clause, c.atoms.isFalse l = true) ∨ ∃ l, c.unvalued clause = [l] ∧ ¬c.Allows (c.Derives l))
  same : outcome = .tautology ∨ outcome = .satisfied → d = c
  refuted : outcome = .unsatisfiable → d.state = .unsatisfiable
  taken : outcome = .added → c.Taken d (c.unvalued clause)

/-- A clause that is to be stored finds every slot in use. -/
structure Overfull (c : Context) (clause : Clause) : Prop extends Open c clause where
  long : 3 ≤ (c.unvalued clause).length
  full : slotLimit ≤ c.clauses.input.size

variable {c d : Context} {clause : Clause} {l : Literal} {outcome : ClauseOutcome}

@[simp] theorem mem_unvalued : l ∈ c.unvalued clause ↔ l ∈ clause ∧ c.atoms.value l.atom = none := by
  simp [unvalued]

theorem pairwise_unvalued (c : Context) (clause : Clause) : (c.unvalued clause).Pairwise (· < ·) :=
  clause.pairwise_normal.filter _

/-- **What is stored of a clause that has no true literal are its literals without a value.** -/
theorem Open.leftOf_eq (h : c.Open clause) : c.leftOf clause = c.unvalued clause := by
  refine List.filter_congr fun l hl => ?_
  have htrue : c.atoms.isTrue l = false := by
    by_contra hne
    exact h.untrue ⟨l, Clause.mem_normal.1 hl, by simpa using hne⟩
  rw [Bool.eq_iff_iff, Option.isNone_iff_eq_none, AtomTable.value_eq_none_iff, Bool.not_eq_true', and_iff_right htrue]

theorem Open.unvalued_eq_nil_iff (h : c.Open clause) :
    c.unvalued clause = [] ↔ ∀ l ∈ clause, c.atoms.isFalse l = true := by
  rw [← h.leftOf_eq, leftOf, List.filter_eq_nil_iff]
  simp

/-! ## The four outcomes -/

theorem admission_of_opposed (h : clause.Opposed) : c.Admission clause .tautology c where
  tautology := by simp [h]
  satisfied := by simp [h]
  unsatisfiable := by simpa using fun ho : c.Open clause => absurd h ho.apart
  same _ := rfl
  refuted := nofun
  taken := nofun

theorem admission_of_true (h : ¬clause.Opposed) (ht : ∃ l ∈ clause, c.atoms.isTrue l = true) :
    c.Admission clause .satisfied c where
  tautology := by simp [h]
  satisfied := by simp only [h, ht, not_false_eq_true, and_self]
  unsatisfiable := by simpa using fun ho : c.Open clause => absurd ht ho.untrue
  same _ := rfl
  refuted := nofun
  taken := nofun

theorem Open.admission (h : c.Open clause) (hi : c.Installed d (c.unvalued clause) outcome) :
    c.Admission clause outcome d := by
  have hiff : (∀ l ∈ clause, c.atoms.isFalse l = true) ∨ (∃ l, c.unvalued clause = [l] ∧ ¬c.Allows (c.Derives l)) ↔
      c.Contradicts (c.unvalued clause) := by
    rw [Contradicts, h.unvalued_eq_nil_iff]
  cases hi with
  | unsatisfiable hc hs =>
    constructor
    · simp [h.apart]
    · simpa using fun _ => not_exists.1 h.untrue
    · simp [h, hiff, hc]
    · rintro (he | he) <;> cases he
    · exact fun _ => hs
    · nofun
  | added hc ht =>
    constructor
    · simp [h.apart]
    · simpa using fun _ => not_exists.1 h.untrue
    · simp [h, hiff, hc]
    · rintro (he | he) <;> cases he
    · nofun
    · exact fun _ => ht

end Context

namespace Solver

open Context

variable {f g : Formula} {settled : Nat → Prop} {c d : Context} {clause : Clause} {a b l : Literal}

/-! ## Storing -/

/-- **A literal that is added is propagated**, by the unit rule. -/
theorem answers_install_unit (h : Installing f g { c with state := .input } [l]) :
    Answers (install [l]) { c with state := .input } fun outcome d => c.Installed d [l] outcome := by
  unfold install
  rw [answers_bind]
  have hassign : Answers (assign l none) { c with state := .input } fun _ d =>
      Pushed { c with state := .input } l c.trail.level none d ∧ d.pendingUnits = c.pendingUnits :=
    answers_assign (h.known l (by simp)) fun _ hp hu => ⟨hp, hu⟩
  refine (hassign.and (within_assign (R := Still) _).meets).mono fun _ d ⟨⟨hp, hu⟩, hs⟩ => ?_
  -- the live clauses have stayed, and the trail has one literal more
  obtain ⟨hd, hcurrent⟩ := h.push hp hu
  have hr : Reordered c d := .of_eq (fun a => congrArg (·.binaryOf a) hp.watches) (congrArg (·.literals?) hp.clauses)
  have hl : d.trail.literals.toList = c.trail.literals.toList ++ [l] := hp.literals
  rw [answers_bind]
  refine ((answers_propagate hd fun _ => hcurrent).and (within_propagate (R := Still) d).meets).mono
    fun result e ⟨he, hs'⟩ => ?_
  cases result with
  | corrupt => exact he.verdict.elim
  | conflict conflict =>
    dsimp only
    rw [setState, answers_bind, answers_modify, answers_pure]
    exact .unsatisfiable (.inr ⟨l, rfl, (he.refutes hr hl rfl).1⟩) rfl
  | complete =>
    have hlevel : e.trail.level = 0 := by rw [he.extended.trail_level, hp.trail, Trail.level_push, h.level]
    have hslack : ∀ clause, e.Live clause → e.Slack clause := fun _ => he.sound.slack (he.verdict hlevel)
    refine answers_pure.2 (.added ?_ (.unit ?_))
    · rintro (hnil | ⟨m, hm, hnot⟩)
      · cases hnil
      · cases hm
        exact hnot (he.allows hr hl hslack)
    · exact {
        extended := (hp.toExtends h.trailed (h.free l (by simp)) (.inr h.level)).trans he.extended
        still := Chained.trans hs hs'
        reordered := hr.trans he.reordered
        grown := hl ▸ he.extended.literals
        once := he.sound.trailed.nodup
        derived := fun _ => he.mem_iff_derives hr hl hslack
        propagated := by
          rw [Trail.propagated, decide_eq_true_eq, he.head]
          exact Nat.le_refl _ }

/-- **Two literals that are added come to the binary lists.** -/
theorem answers_install_pair (h : Installing f g { c with state := .input } [a, b]) :
    Answers (install [a, b]) { c with state := .input } fun outcome d => c.Installed d [a, b] outcome := by
  have ha : c.watches.knows a = true := h.knows (by simp)
  have hb : c.watches.knows b = true := h.knows (by simp)
  have hne : a ≠ b := fun he => h.atom_ne (congrArg Literal.atom he)
  unfold install
  rw [answers_bind, answers_onWatches]
  refine (Watches.answers_watchBinary ha hb).mono fun _ w hw => answers_pure.2 (.added ?_ (.pair ?_))
  · simp [Contradicts]
  · subst hw
    exact ⟨rfl, rfl, Watches.binaryOf_watchBinary _ ha hb hne⟩

/-- **More literals that are added are stored as a clause**, if there is room. -/
theorem answers_install_long (h : Installing f g { c with state := .input } clause) (hlen : 3 ≤ clause.length)
    (hroom : c.clauses.input.size < slotLimit) :
    Answers (install clause) { c with state := .input } fun outcome d => c.Installed d clause outcome := by
  match clause, hlen with
  | a :: b :: third :: rest, hlen =>
    have ha : c.watches.knows a = true := h.knows (by simp)
    have hb : c.watches.knows b = true := h.knows (by simp)
    have hia := (h.shaped.index_lt (h.known a (by simp))).2
    have hib := (h.shaped.index_lt (h.known b (by simp))).2
    have hne : a ≠ b := fun he => h.atom_ne (congrArg Literal.atom he)
    unfold install storeLong
    rw [answers_bind, answers_bind, answers_onClauses]
    refine (ClauseStore.answers_storeInput _ hroom).mono fun key t ⟨hkey, ht⟩ => ?_
    rw [answers_bind, answers_onWatches]
    refine (Watches.answers_watchTwice ha hb).mono fun _ w hw => answers_pure.2 (answers_pure.2 (.added ?_ (.long hlen ?_)))
    · simp [Contradicts]
    · subst hkey ht hw
      refine ⟨rfl, fun _ _ => ClauseStore.find_pushInput _, rfl, fun l => ?_⟩
      have htake : l ∈ (a :: b :: third :: rest).take 2 ↔ l = a ∨ l = b := by simp
      simp only [htake]
      exact Watches.longOf_watchLong_twice hia hib hne _ l

theorem install_of_full (hlen : 3 ≤ clause.length) (hfull : slotLimit ≤ c.clauses.input.size) :
    install clause c = .error .full c := by
  match clause, hlen with
  | a :: b :: third :: rest, _ =>
    have hstore : onClauses (ClauseStore.Call.storeInput (a :: b :: third :: rest)) c = .error .full c := by
      unfold onClauses
      dsimp only
      rw [ClauseStore.storeInput_of_full _ hfull]
    exact bind_of_error (bind_of_error hstore)

/-- **Literals without a value are added**, if there is room for more than two. -/
theorem answers_install (h : Installing f g { c with state := .input } clause)
    (hroom : 3 ≤ clause.length → c.clauses.input.size < slotLimit) :
    Answers (install clause) { c with state := .input } fun outcome d => c.Installed d clause outcome := by
  match clause, h, hroom with
  | [], _, _ => exact ⟨_, _, rfl, .unsatisfiable (.inl rfl) rfl⟩
  | [l], h, _ => exact answers_install_unit h
  | [a, b], h, _ => exact answers_install_pair h
  | a :: b :: third :: rest, h, hroom => exact answers_install_long h (by simp) (hroom (by simp))

/-! ## Adding a clause -/

/-- **A clause is what its literals are**, in whatever order and however often. -/
theorem addClause_congr {other : Clause} (h : ∀ l, l ∈ other ↔ l ∈ clause) (c : Context) :
    addClause other c = addClause clause c := by
  have hany : ∀ p : Literal → Bool, other.any p = clause.any p := fun p => by
    rw [Bool.eq_iff_iff, List.any_eq_true, List.any_eq_true]
    simp only [h]
  unfold addClause
  simp only [hany, Clause.normal_eq_of_mem_iff h]

theorem addClause_of_level (hs : c.state ≠ .unsatisfiable) (hl : 0 < c.trail.level) :
    addClause clause c = .error (.failure (.clauses .decisionMade)) c := by
  unfold addClause
  rw [bind_of_ok (get_apply c), if_neg hs, if_pos hl, fail_apply]

theorem addClause_of_unknown (hs : c.state ≠ .unsatisfiable) (hl : c.trail.level = 0)
    (hunknown : ∃ l ∈ clause, c.atoms.knows l.atom = false) :
    addClause clause c = .error (.failure (.clauses .unknownAtom)) c := by
  have hany : (clause.any fun l => !c.atoms.knows l.atom) = true := by simpa using hunknown
  unfold addClause
  rw [bind_of_ok (get_apply c), if_neg hs, if_neg (Nat.not_lt.2 (Nat.le_of_eq hl)), if_pos hany, fail_apply]

theorem addClause_of_known (hs : c.state ≠ .unsatisfiable) (hl : c.trail.level = 0)
    (hknown : ∀ l ∈ clause, c.atoms.knows l.atom = true) :
    addClause clause c =
      if clause.normal.hasClash = true then .ok .tautology c
      else if clause.normal.any c.atoms.isTrue = true then .ok .satisfied c
      else install (c.leftOf clause) { c with state := .input } := by
  have hany : ¬(clause.any fun l => !c.atoms.knows l.atom) = true := by simpa using hknown
  unfold addClause
  rw [bind_of_ok (get_apply c), if_neg hs, if_neg (Nat.not_lt.2 (Nat.le_of_eq hl)), if_neg hany]
  dsimp only
  split
  · rfl
  · split <;> rfl

/-- **A clause of known atoms is classified, and stored as its literals without a value tell**, unless there is no room. -/
theorem addClause_admission (h : Rooted f settled c) (hu : c.pendingUnits = #[]) (hs : c.state ≠ .unsatisfiable)
    (hknown : ∀ l ∈ clause, c.atoms.knows l.atom = true) :
    Answers (addClause clause) c (c.Admission clause) ∨
      c.Overfull clause ∧ addClause clause c = .error .full { c with state := .input } := by
  have heq := addClause_of_known hs h.level hknown
  have hclash : clause.normal.hasClash = true ↔ clause.Opposed := by
    rw [Clause.hasClash_iff clause.pairwise_normal]
    simp only [Clause.mem_normal, Clause.Opposed]
  have hany : clause.normal.any c.atoms.isTrue = true ↔ ∃ l ∈ clause, c.atoms.isTrue l = true := by
    simp only [List.any_eq_true, Clause.mem_normal]
  by_cases hopposed : clause.Opposed
  · rw [if_pos (hclash.2 hopposed)] at heq
    exact .inl ⟨_, _, heq, admission_of_opposed hopposed⟩
  rw [if_neg (mt hclash.1 hopposed)] at heq
  by_cases htrue : ∃ l ∈ clause, c.atoms.isTrue l = true
  · rw [if_pos (hany.2 htrue)] at heq
    exact .inl ⟨_, _, heq, admission_of_true hopposed htrue⟩
  rw [if_neg (mt hany.1 htrue)] at heq
  -- what is not false has no value then
  have hopen : c.Open clause := ⟨hopposed, htrue⟩
  have hinstalling := installing_leftOf h hu (fun l hl => AtomTable.knows_iff.1 (hknown l hl)) (mt hclash.1 hopposed)
    (mt hany.1 htrue)
  rw [hopen.leftOf_eq] at heq hinstalling
  by_cases hfull : 3 ≤ (c.unvalued clause).length ∧ slotLimit ≤ c.clauses.input.size
  · exact .inr ⟨⟨hopen, hfull.1, hfull.2⟩, heq.trans (install_of_full hfull.1 hfull.2)⟩
  · obtain ⟨outcome, d, hd, hinstalled⟩ := answers_install hinstalling fun hlen =>
      Nat.lt_of_not_le fun hsize => hfull ⟨hlen, hsize⟩
    exact .inl ⟨outcome, d, heq.trans hd, hopen.admission hinstalled⟩

/-- What adding a clause comes to, in a context at rest. -/
structure Classifies (c : Context) (clause : Clause) : Prop where
  order : ∀ other : Clause, (∀ l, l ∈ other ↔ l ∈ clause) → addClause other c = addClause clause c
  unvalued : ∀ l, l ∈ c.unvalued clause ↔ l ∈ clause ∧ c.atoms.value l.atom = none
  ascending : (c.unvalued clause).Pairwise (· < ·)
  above : 0 < c.level → addClause clause c = .error (.failure (.clauses .decisionMade)) c
  unknown : c.level = 0 → c.state ≠ .unsatisfiable → (∃ l ∈ clause, c.atoms.knows l.atom = false) →
    addClause clause c = .error (.failure (.clauses .unknownAtom)) c
  known : c.level = 0 → c.state ≠ .unsatisfiable → (∀ l ∈ clause, c.atoms.knows l.atom = true) →
    Answers (addClause clause) c (c.Admission clause) ∨
      c.Overfull clause ∧ addClause clause c = .error .full { c with state := .input }

end Solver

namespace Session

open Context Solver

variable {s : Session}

/-- **A clause is classified and stored exactly.**  What adding it comes to depends only on which literals are in it.  At level
zero, where everything is propagated, and as long as it is not known that there is no model, a clause of known atoms is a
tautology exactly if it has a literal and its negation, else satisfied exactly if it has a true literal, and then nothing at
all changes; else unsatisfiable exactly if all its literals are false, or one has no value and its unit propagation is
contradictory.  Any other clause is added, with its literals without a value, each once: one is propagated, two come to the
binary lists, and more are stored as a clause watched by its first two, unless all slots are in use.  A clause with an unknown
atom, and any clause above level zero, is an error that leaves the context as it was. -/
theorem addClause_exact (h : s.Followed) (clause : Clause) : Classifies s.context clause where
  order _ hother := addClause_congr hother s.context
  unvalued _ := mem_unvalued
  ascending := pairwise_unvalued s.context clause
  above hl := addClause_of_level (fun hs => Nat.ne_of_gt hl (h.held.barren hs).level) hl
  unknown hl hs hunknown := addClause_of_unknown hs hl hunknown
  known hl hs hknown := addClause_admission ((h.held.quiet hs).rooted rfl hl) (h.held.quiet hs).units hs hknown

/-- With two clauses that make the first atom true: its negation, though given twice, is one literal whose propagation is
contradictory, and four literals of three other atoms are stored as a clause of three. -/
theorem addClause_exact_or : ∃ (s : Session) (d e : Context), s.Followed ∧ s.context.level = 0 ∧ s.context.state = .input ∧
    addClause [x₀.negate, x₀.negate] s.context = .ok .unsatisfiable d ∧
    s.context.Admission [x₀.negate, x₀.negate] .unsatisfiable d ∧
    addClause [x₃, x₂, x₁, x₃] s.context = .ok .added e ∧ s.context.Admission [x₃, x₂, x₁, x₃] .added e := by
  have hunit : Clause.normal [x₀.negate, x₀.negate] = [x₀.negate] :=
    (Clause.normal_eq_of_mem_iff (by simp)).trans (Clause.normal_of_pairwise (by decide))
  have hlong : Clause.normal [x₃, x₂, x₁, x₃] = [x₁, x₂, x₃] :=
    (Clause.normal_eq_of_mem_iff fun l => by simp; tauto).trans (Clause.normal_of_pairwise (by decide))
  have h : ((start {} .default).run [.freshAtom, .freshAtom, .freshAtom, .freshAtom, .addClause [x₀, x₁],
      .addClause [x₀, x₁.negate]]).map (fun s => (Decidable.decide (s.context.level = 0 ∧ s.context.state = .input ∧
        s.context.atoms.count = 4), ((addClause [x₀.negate, x₀.negate]).ended s.context).map (·.1),
        ((addClause [x₃, x₂, x₁, x₃]).ended s.context).map (·.1))) =
      some (true, some (some .unsatisfiable), some (some .added)) := by
    simp only [Session.run, Session.call, Session.after, addClause, normal_or, normal_or_negate, hunit, hlong]
    decide +kernel
  obtain ⟨s, hs, hview⟩ := Option.map_eq_some_iff.1 h
  simp only [Prod.mk.injEq, decide_eq_true_iff] at hview
  obtain ⟨⟨hlevel, hstate, hcount⟩, hunsatisfiable, hadded⟩ := hview
  have hfollowed : s.Followed := .run _ (.start {} .default) hs
  obtain ⟨⟨answer, d⟩, hd, rfl⟩ := Option.map_eq_some_iff.1 hunsatisfiable
  obtain ⟨⟨answer, e⟩, he, rfl⟩ := Option.map_eq_some_iff.1 hadded
  have hadmission : ∀ (clause : Clause) (outcome : ClauseOutcome) (u : Context), (∀ l ∈ clause, l.atom < 4) →
      addClause clause s.context = .ok outcome u → s.context.Admission clause outcome u := by
    intro clause outcome u hknown hu
    have hclassifies := addClause_exact hfollowed clause
    rcases hclassifies.known hlevel (by simp [hstate]) fun l hl => AtomTable.knows_iff.2 (hcount ▸ hknown l hl) with
      ⟨other, g, hg, hadmission⟩ | ⟨-, hfull⟩
    · cases hg.symm.trans hu
      exact hadmission
    · cases hfull.symm.trans hu
  have hd := ended_eq_answer hd
  have he := ended_eq_answer he
  exact ⟨s, d, e, hfollowed, hlevel, hstate, hd, hadmission _ _ _ (by decide) hd, he, hadmission _ _ _ (by decide) he⟩

end Session
end Cdcl
