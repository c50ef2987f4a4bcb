import Cdcl.Proofs.Availability
/-!
# Visits — the contexts a solve comes by

A solve is made of parts: it propagates, analyses, goes back, learns, simplifies, reduces, decides, makes assumptions,
and returns.  The contexts between its parts are told by a list, which follows the solve as that of its decisions does
(`Asks`), with the analysis that starts in a context, if one does.  What goes on within a part is not told.

In each of these contexts the trail can be traced back, no atom is marked, and the assumptions end where the solve says
they do, or the level is zero.  An analysis starts on literals that are false (`fit_solveGiven`).
-/
namespace Cdcl

open Run Context

/-- An analysis of a solve: of a conflict, to learn from it or to find the assumptions to blame for it, or of an assumption
that is false. -/
inductive Inquiry
  | learn (conflict : Conflict)
  | blame (conflict : Conflict)
  | refute (assumption : Literal)
deriving DecidableEq

/-- What an analysis runs. -/
def Inquiry.program : Inquiry → Solver Unit
  | .learn conflict => do let _ ← Solver.analyzeConflict conflict
  | .blame conflict => do let _ ← Solver.failedByConflict conflict
  | .refute assumption => do let _ ← Solver.failedByAssumption assumption

/-- A context that a solve comes by, and the analysis that starts there. -/
structure Visit where
  inquiry : Option Inquiry
  context : Context

/-- The visits of a program, from the context it starts in. -/
abbrev Visits := Context → List Visit

namespace Visits

variable {α : Type}

def nil : Visits := fun _ => []

def here : Visits := fun c => [⟨none, c⟩]

def start (inquiry : Inquiry) : Visits := fun c => [⟨some inquiry, c⟩]

/-- The visits of a program that looks at the context first. -/
def look (x : Context → Visits) : Visits := fun c => x c c

/-- The visits of what follows a program. -/
def after (m : Solver α) (q : α → Visits) : Visits := fun c =>
  match m c with
  | .ok a d => q a d
  | .error _ _ => []

/-- The visits of a program, and of what follows it. -/
def seq (m : Solver α) (p : Visits) (q : α → Visits) : Visits := fun c => p c ++ after m q c

/-- The context a part starts in, and what follows the part. -/
def before (m : Solver α) (q : α → Visits) : Visits := seq m here q

/-- Whatever is visited, this holds of it. -/
def All (p : Visits) (c : Context) (P : Visit → Prop) : Prop := ∀ v ∈ p c, P v

variable {m : Solver α} {p : Visits} {q : α → Visits} {c : Context} {P : Visit → Prop} {Q : α → Context → Prop}
  {E : Context → Prop}

theorem all_nil : nil.All c P := fun _ => nofun

theorem all_look {x : Context → Visits} (h : (x c).All c P) : (look x).All c P := h

theorem all_ite {b : Prop} [Decidable b] {x y : Visits} (hx : b → x.All c P) (hy : ¬b → y.All c P) :
    (if b then x else y).All c P := by
  split
  · exact hx ‹_›
  · exact hy ‹_›

theorem all_after (h : m.Meets c Q E) (hq : ∀ a d, Q a d → (q a).All d P) : (after m q).All c P := by
  intro v hv
  unfold after at hv
  split at hv
  · exact hq _ _ (h.of_ok ‹_›) v hv
  · cases hv

theorem all_seq (hp : p.All c P) (h : m.Meets c Q E) (hq : ∀ a d, Q a d → (q a).All d P) : (seq m p q).All c P :=
  fun v hv => (List.mem_append.1 hv).elim (hp v) (all_after h hq v)

end Visits

namespace Solver

open Visits

/-! ## The contexts of a search -/

def learnFrom.visits (conflict : Conflict) (root : Nat) : Visits :=
  seq (analyzeConflict conflict) (start (.learn conflict)) fun learnt =>
  before (backjump (max learnt.level root)) fun _ =>
  before (learn learnt.clause) fun _ =>
  before (modify fun c => { c with clauses := c.clauses.decay }) fun _ =>
  here

/-- The contexts of finding the assumptions to blame, and of noting them. -/
def blame.visits (inquiry : Inquiry) : Visits := seq inquiry.program (start inquiry) fun _ => here

def atConflict.visits (conflict : Conflict) : Visits :=
  before (count fun n => { n with conflicts := n.conflicts + 1, freshConflicts := n.freshConflicts + 1 }) fun _ =>
  look fun c =>
    if c.trail.level = 0 then nil
    else if c.trail.level ≤ c.trail.root then blame.visits (.blame conflict)
    else learnFrom.visits conflict c.trail.root

def decideNext.visits : Visits := before chooseDecision fun
  | some _ => here
  | none => before (modify fun c => { c with model := currentModel c }) fun _ => here

def atRest.visits (budget : Option Nat) : Visits := look fun c =>
  if budget.any (Decidable.decide <| · ≤ c.counters.freshConflicts) then here
  else before simplifyAtRoot fun stop =>
    if stop then nil
    else look fun c => if crowded c then before reduce fun _ => decideNext.visits else decideNext.visits

def searchFor.visits (budget : Option Nat) : Nat → Visits
  | 0 => nil
  | fuel + 1 => before propagate fun
    | .conflict conflict => seq (atConflict conflict) (atConflict.visits conflict) fun
      | some _ => nil
      | none => searchFor.visits budget fuel
    | .corrupt => nil
    | .complete => seq (atRest budget) (atRest.visits budget) fun
      | some _ => nil
      | none => searchFor.visits budget fuel

def search.visits (fuel : Nat) (budget : Option Nat) : Visits :=
  before (count fun n => { n with freshConflicts := 0 }) fun _ => searchFor.visits budget fuel

/-! ## The contexts of a solve -/

def assumeEach.visits : List Literal → Visits
  | [] => nil
  | l :: rest => look fun c =>
    match c.atoms.standing l with
    | .unknown => nil
    | .holds => before (modify fun c => { c with trail := c.trail.newLevel }) fun _ => assumeEach.visits rest
    | .fails => blame.visits (.refute l)
    | .free =>
      before (modify fun c => { c with trail := c.trail.newLevel }) fun _ =>
      before (assign l none) fun _ =>
      before propagate fun
        | .complete => assumeEach.visits rest
        | .conflict conflict =>
          before (count fun n => { n with conflicts := n.conflicts + 1 }) fun _ => blame.visits (.blame conflict)
        | .corrupt => nil

def searchAll.visits (conflictsBefore : Nat) : Nat → Luby → Visits
  | 0, _ => nil
  | fuel + 1, luby => before (nextBudget luby conflictsBefore) fun
    | none => nil
    | some (budget, luby) => seq (search fuel budget) (search.visits fuel budget) fun
      | .unknown =>
        before (count fun n => { n with restarts := n.restarts + 1 }) fun _ =>
        before askStop fun stop => if stop then nil else searchAll.visits conflictsBefore fuel luby
      | _ => nil

def solveFromRoot.visits (fuel : Nat) (assumptions : List Literal) : Visits :=
  before prepare fun _ => look fun c =>
    if c.state = .unsatisfiable then nil
    else
      before startSchedule fun _ =>
      before (modify fun c => { c with trail := { c.trail with root := assumptions.length } }) fun _ =>
      seq (assumeEach assumptions) (assumeEach.visits assumptions) fun failed =>
        if failed then nil
        else look fun c => searchAll.visits c.counters.conflicts fuel { base := c.options.restartBase.value }

def assignPendingUnits.visits : Visits :=
  before (do
    let units ← modifyGet fun c => (c.pendingUnits.toList, { c with pendingUnits := #[] })
    assignUnits units) fun _ => here

def returnToRoot.visits : Visits :=
  before (backjump 0) fun _ =>
  before (modify fun c => { c with trail := { c.trail with root := 0 } }) fun _ => assignPendingUnits.visits

/-- The contexts that a solve comes by, from where it is at level zero and says that it is solving to its end. -/
def solveGiven.visits (fuel : Nat) (assumptions : List Literal) : Visits :=
  after (modify fun c => { c with model := #[], failed := [], pending := none }) fun _ => look fun c =>
    if c.state = .unsatisfiable then nil
    else if assumptions.any fun l => !c.atoms.knows l.atom then nil
    else
      after (backjump 0) fun _ =>
      after (setState .solving) fun _ =>
      seq (Run.attempt (solveFromRoot fuel assumptions)) (solveFromRoot.visits fuel assumptions) fun result =>
      seq returnToRoot returnToRoot.visits fun _ =>
        match result with
        | .ok state => before (conclude state) fun _ => here
        | .error _ => here

end Solver

namespace Context

/-- What holds in every context a solve comes by. -/
structure Underway (f : Formula) (root : Nat) (c : Context) : Prop extends Traceable f c where
  marks : c.marks = Array.replicate c.atoms.count false
  ends : c.trail.root = root ∨ c.trail.level = 0

variable {f : Formula} {settled : Nat → Prop} {assumptions : List Literal} {root : Nat} {c d : Context} {l : Literal}

theorem Sound.underway (h : Sound f settled c) (hr : c.trail.root = root ∨ c.trail.level = 0) : c.Underway f root :=
  ⟨h.traceable, h.marks, hr⟩

theorem Searching.underway (h : Searching f assumptions root c) : c.Underway f root := h.toSound.underway (.inl h.ends)

theorem Alike.traceable (h : Alike c d) (ht : Traceable f c) : Traceable f d where
  trailed := h.trailed ht.trailed
  denotes := h.denotes ht.denotes
  placed a ha := by
    rw [h.literals]
    exact ht.placed a (h.levelOrZero a ▸ ha)

theorem Underway.alike (h : c.Underway f root) (ha : Alike c d) (hm : d.marks = c.marks)
    (hr : d.trail.root = c.trail.root) : d.Underway f root :=
  ⟨ha.traceable h.toTraceable, by rw [hm, ha.count, h.marks], by rw [hr, ha.level]; exact h.ends⟩

theorem Underway.rested (h : c.Underway f root) (hr : Rested c d) : d.Underway f root :=
  h.alike hr.toAlike (hr.marks.trans h.marks.symm) (root_eq_of_course hr.course)

/-- Where the atom of a choice has been taken off the heap, the invariant fails of the heap alone. -/
theorem Underway.chosen (h : c.Underway f root) (hc : Chosen c l d) : d.Underway f root := by
  have hd : (d.withActivity c.atoms.activity).Underway f root :=
    h.alike hc.unmoved.toAlike hc.unmoved.marks (root_eq_of_course hc.unmoved.course)
  exact ⟨⟨⟨hd.trailed.layered, hd.trailed.nodup, hd.trailed.value, hd.trailed.caused⟩,
    ⟨hd.denotes.known, hd.denotes.binary, hd.denotes.long, hd.denotes.units, hd.denotes.complete⟩, hd.placed⟩,
    hd.marks, hd.ends⟩

end Context

/-- What an analysis asks for, besides the invariant. -/
def Inquiry.Asks (f : Formula) (c : Context) : Inquiry → Prop
  | .learn conflict => Refuted f c conflict ∧ c.Here conflict ∧ 0 < c.trail.level
  | .blame conflict => Refuted f c conflict
  | .refute assumption => assumption.negate ∈ c.trail.literals.toList

/-- An analysis may start. -/
structure Inquiry.Founded (f : Formula) (c : Context) (inquiry : Inquiry) : Prop where
  base : ∃ settled, Base f settled c
  asks : inquiry.Asks f c

/-- **An analysis that may start answers**, and leaves no mark. -/
theorem Inquiry.Founded.answers {f : Formula} {c : Context} {inquiry : Inquiry} (h : inquiry.Founded f c)
    (hm : c.marks = Array.replicate c.atoms.count false) : Answers inquiry.program c fun _ d => Rested c d := by
  obtain ⟨⟨settled, hb⟩, ha⟩ := h
  cases inquiry with
  | learn conflict =>
    obtain ⟨hr, hh, hpos⟩ := ha
    exact answers_bind.2 ((Solver.answers_analyzeConflict hb hm hr hh hpos).mono fun _ _ hd => answers_pure.2 hd.1)
  | blame conflict =>
    exact answers_bind.2 ((Solver.answers_failedByConflict hb hm ha).mono fun _ _ hd => answers_pure.2 hd.1)
  | refute assumption =>
    exact answers_bind.2 ((Solver.answers_failedByAssumption hb hm ha).mono fun _ _ hd => answers_pure.2 hd.1)

/-- What holds wherever a solve comes by, and of the analysis that starts there. -/
structure Visit.Fit (f : Formula) (root : Nat) (v : Visit) : Prop where
  underway : v.context.Underway f root
  founded : ∀ i ∈ v.inquiry, i.Founded f v.context

namespace Visits

variable {α : Type} {m : Solver α} {q : α → Visits} {Q : α → Context → Prop} {E : Context → Prop} {f : Formula}
  {root : Nat} {c : Context} {inquiry : Inquiry}

theorem fit_here (h : c.Underway f root) : here.All c (Visit.Fit f root) := fun _ hv => by
  rw [List.mem_singleton.1 hv]
  exact ⟨h, nofun⟩

theorem fit_before (hc : c.Underway f root) (h : m.Meets c Q E) (hq : ∀ a d, Q a d → (q a).All d (Visit.Fit f root)) :
    (before m q).All c (Visit.Fit f root) :=
  all_seq (fit_here hc) h hq

theorem fit_start (h : c.Underway f root) (hi : inquiry.Founded f c) : (start inquiry).All c (Visit.Fit f root) :=
  fun _ hv => by
    rw [List.mem_singleton.1 hv]
    exact ⟨h, fun _ he => Option.mem_some.1 he ▸ hi⟩

end Visits

namespace Solver

open Visits

variable {f : Formula} {assumptions : List Literal} {root : Nat} {settled : Nat → Prop} {matters : Prop}
  {c d : Context} {conflict : Conflict}

/-! ## Wherever a search comes by -/

theorem meets_backjump_zero (h : Sound f settled c) :
    Meets (backjump 0) c (fun _ d => Sound f settled d ∧ d.trail.level = 0) (fun _ => False) := by
  refine (meets_backjump h).mono (fun _ d ⟨hd, hsame, hjump⟩ => ⟨hd, ?_⟩) fun _ => id
  by_cases hlt : 0 < c.trail.level
  · exact (hjump hlt).1.level
  · have hz := Nat.eq_zero_of_not_pos hlt
    rw [hsame (Nat.le_of_eq hz)]
    exact hz

theorem fit_blame {inquiry : Inquiry} (h : c.Underway f root) (hi : inquiry.Founded f c) :
    (blame.visits inquiry).All c (Visit.Fit f root) :=
  all_seq (E := fun _ => False) (fit_start h hi) (hi.answers h.marks).meets fun _ _ hd => fit_here (h.rested hd)

theorem fit_learnFrom (h : Searching f assumptions root c) (hr : Refuted f c conflict) (hh : c.Here conflict)
    (hlevel : root < c.trail.level) : (learnFrom.visits conflict root).All c (Visit.Fit f root) := by
  have hpos : 0 < c.trail.level := Nat.zero_lt_of_lt hlevel
  refine all_seq (E := fun _ => False) (fit_start h.underway ⟨⟨_, h.toBase⟩, hr, hh, hpos⟩)
    (answers_analyzeConflict h.toBase h.marks hr hh hpos).meets fun learnt d ⟨hd, first, rest, hl⟩ => ?_
  have hsd : Sound f (fun _ => False) d := (hd.toAlike.sound h.toSound (hd.marks.trans h.marks.symm)).unsettled
  have hrd : d.trail.root = root := (root_eq_of_course hd.course).trans h.ends
  have hlt : max learnt.level root < d.trail.level := by
    have := hl.below
    have := hd.level
    omega
  refine fit_before (hsd.underway (.inl hrd)) (meets_backjump hsd) fun _ e ⟨hse, _, hjump⟩ => ?_
  obtain ⟨hj, -⟩ := hjump hlt
  have hre : e.trail.root = root := (root_eq_of_course hj.course).trans hrd
  have hasserting : Asserting f (fun _ => False) e first rest :=
    (hl.alike hd.toAlike).asserting_jumped hsd.trailed hj hse.trailed (Nat.le_max_left ..) hlt fun _ hs _ => hs.elim
  rw [hl.clause]
  refine fit_before (hse.underway (.inl hre)) (meets_learn hse hasserting) fun _ g hg => ?_
  have hg : g.Underway f root := hg.sound.underway (.inl ((root_eq_of_course hg.extended.course).trans hre))
  exact fit_before (Q := fun _ i => i.Underway f root) (E := fun _ => False) hg
    (hg.alike ⟨rfl, rfl, id, rfl, id, ClauseStore.alike_decay _, rfl, rfl⟩ rfl rfl) fun _ i hi => fit_here hi

theorem fit_atConflict (h : Searching f assumptions root c) (hr : Refuted f c conflict)
    (hh : root < c.trail.level → c.Here conflict) : (atConflict.visits conflict).All c (Visit.Fit f root) := by
  refine fit_before (Q := fun _ d => Searching f assumptions root d ∧ Refuted f d conflict ∧
    (root < d.trail.level → d.Here conflict)) (E := fun _ => False) h.underway ?_ fun _ d ⟨hd, hrd, hhd⟩ => ?_
  · have halike : ∀ counters, Alike c { c with counters } := fun _ => .of_eq rfl rfl rfl rfl rfl
    exact meets_count.2 ⟨h.alike (halike _) rfl rfl, hr.alike (halike _), fun hlt => (hh hlt).alike (halike _)⟩
  · refine all_look (all_ite (fun _ => all_nil) fun _ => all_ite (fun _ => ?_) fun hlt => ?_)
    · exact fit_blame hd.underway ⟨⟨_, hd.toBase⟩, hrd⟩
    · rw [hd.ends] at hlt ⊢
      have hlt := Nat.lt_of_not_le hlt
      exact fit_learnFrom hd hrd (hhd hlt) hlt

theorem fit_decideNext (h : Complete f assumptions root c) : decideNext.visits.All c (Visit.Fit f root) := by
  refine fit_before h.underway (meets_chooseDecision h.stocked h.shaped.bounded) fun choice d hd => ?_
  rcases hd with ⟨l, rfl, hl⟩ | ⟨rfl, hd, -⟩
  · exact fit_here (h.underway.chosen hl)
  · have hd : d.Underway f root := h.underway.alike hd.toAlike hd.marks (root_eq_of_course hd.course)
    exact fit_before (Q := fun _ e => e.Underway f root) (E := fun _ => False) hd
      (hd.alike (.of_eq rfl rfl rfl rfl rfl) rfl rfl) fun _ _ he => fit_here he

theorem fit_atRest {budget : Option Nat} (h : Complete f assumptions root c) :
    (atRest.visits budget).All c (Visit.Fit f root) := by
  refine all_look (all_ite (fun _ => fit_here h.underway) fun _ => ?_)
  refine fit_before h.underway (meets_simplifyAtRoot h) fun stop d ⟨hstop, _, hd⟩ => ?_
  subst hstop
  rw [if_neg Bool.false_ne_true]
  refine all_look (all_ite (fun _ => ?_) fun _ => fit_decideNext hd)
  exact fit_before hd.underway (meets_reduce hd.toSound) fun _ e ⟨hs, ht⟩ => fit_decideNext (hd.trimmed hs ht)

theorem fit_searchFor {budget : Option Nat} : ∀ (fuel : Nat) (c : Context), Poised f assumptions root c →
    (searchFor.visits budget fuel).All c (Visit.Fit f root)
  | 0, _, _ => all_nil
  | fuel + 1, c, h => by
    refine fit_before (E := fun _ => False) h.underway (meets_propagate h.toSound fun _ => h.current) fun result d hd => ?_
    have hsearch := h.propagated hd
    cases result with
    | corrupt => exact all_nil
    | conflict conflict =>
      refine all_seq (fit_atConflict hsearch hd.verdict (h.here hd)) (meets_atConflict hsearch hd.verdict (h.here hd))
        fun answer e he => ?_
      cases answer with
      | some _ => exact all_nil
      | none => exact fit_searchFor fuel e he.2
    | complete =>
      refine all_seq (fit_atRest (h.complete hd)) (meets_atRest (h.complete hd)) fun answer e he => ?_
      cases answer with
      | some _ => exact all_nil
      | none => exact fit_searchFor fuel e he.2

theorem fit_search {fuel : Nat} {budget : Option Nat} (h : Poised f assumptions root c) :
    (search.visits fuel budget).All c (Visit.Fit f root) :=
  fit_before (Q := fun _ d => Poised f assumptions root d) (E := fun _ => False) h.underway
    (meets_count.2 (h.alike (.of_eq rfl rfl rfl rfl rfl) rfl rfl rfl)) fun _ d hd => fit_searchFor fuel d hd

/-! ## Wherever a solve comes by -/

theorem fit_searchAll {conflictsBefore : Nat} : ∀ (fuel : Nat) (luby : Luby) (c : Context),
    Poised f assumptions root c → (searchAll.visits conflictsBefore fuel luby).All c (Visit.Fit f root)
  | 0, _, _, _ => all_nil
  | fuel + 1, luby, c, h => by
    refine fit_before h.underway meets_nextBudget fun next d hd => ?_
    subst hd
    cases next with
    | none => exact all_nil
    | some next =>
      refine all_seq (fit_search h) (meets_search h) fun state e ⟨_, he⟩ => ?_
      cases state with
      | unknown =>
        have hagain := he.again rfl
        refine fit_before (Q := fun _ g => Poised f assumptions root g) (E := fun _ => False) hagain.underway
          (meets_count.2 (hagain.alike (.of_eq rfl rfl rfl rfl rfl) rfl rfl rfl)) fun _ g hg => ?_
        refine fit_before (Q := fun _ i => Poised f assumptions root i) (E := fun _ => False) hg.underway ?_ fun stop i hi =>
          all_ite (fun _ => all_nil) fun _ => fit_searchAll fuel next.2 i hi
        exact meets_askStop fun stop listeners => hg.alike (.of_eq rfl rfl rfl rfl rfl) rfl rfl rfl
      | _ => exact all_nil

theorem fit_assumeEach : ∀ (rest made : List Literal) (c : Context), Assuming f made c → c.trail.root = root →
    (assumeEach.visits rest).All c (Visit.Fit f root)
  | [], _, _, _, _ => all_nil
  | l :: rest, made, c, h, hroot => by
    have hc : c.Underway f root := h.underway (.inl hroot)
    refine all_look ?_
    cases hstanding : c.atoms.standing l with
    | unknown => exact all_nil
    | holds =>
      refine fit_before (Q := fun _ d => Assuming f (made ++ [l]) d ∧ d.trail.root = root) (E := fun _ => False) hc
        ⟨h.hold (h.trailed.standing_holds_iff.1 hstanding), hroot⟩ fun _ d ⟨hd, hrd⟩ => ?_
      exact fit_assumeEach rest (made ++ [l]) d hd hrd
    | fails =>
      exact fit_blame hc ⟨⟨_, h.toBase⟩, h.trailed.standing_fails_iff.1 hstanding⟩
    | free =>
      have hv := (AtomTable.standing_eq_free_iff.1 hstanding).2
      refine fit_before (Q := fun _ d => d.Underway f root ∧ Meets (assign l none) d (fun _ e => Sound f (fun _ => True) e ∧
        Opened c l e) fun _ => False) (E := fun _ => False) hc
        ⟨(h.newLevel fun _ => h.current).underway (.inl hroot), meets_bind.1 (meets_assume h hv)⟩ fun _ d ⟨hd, hassign⟩ => ?_
      refine fit_before hd hassign fun _ e ⟨he, ho⟩ => ?_
      have hre : e.trail.root = root := (root_eq_of_course ho.course).trans hroot
      refine fit_before (E := fun _ => False) (he.underway (.inl hre)) (meets_propagate he fun _ => h.current_opened ho)
        fun result g hg => ?_
      have hrg : g.trail.root = root := (root_eq_of_course hg.extended.course).trans hre
      cases result with
      | corrupt => exact all_nil
      | complete => exact fit_assumeEach rest (made ++ [l]) g (h.propagated he ho hg) hrg
      | conflict conflict =>
        refine fit_before (Q := fun _ i => Sound f (fun _ => True) i ∧ Refuted f i conflict ∧ i.trail.root = root)
          (E := fun _ => False) (hg.sound.underway (.inl hrg)) (meets_count.2 ?_) fun _ i ⟨hi, hri, hrooted⟩ => ?_
        · have halike : ∀ counters, Alike g { g with counters } := fun _ => .of_eq rfl rfl rfl rfl rfl
          exact ⟨(halike _).sound hg.sound rfl, Refuted.alike hg.verdict (halike _), hrg⟩
        · exact fit_blame (hi.underway (.inl hrooted)) ⟨⟨_, hi.toBase⟩, hri⟩

instance : Pursuing SameRoot where
  clashed _ := rfl
  found _ _ _ := rfl
  decayed _ := rfl
  counted := within_bind within_get fun _ => within_bind within_require fun _ =>
    within_ite (fun _ => within_modify fun _ => rfl) fun _ => within_modify fun _ => rfl
  learns _ _ := within_tellAndLearn fun _ => rfl

/-- **A search keeps the root level.** -/
theorem within_searchAll_root {conflictsBefore : Nat} : ∀ (fuel : Nat) (luby : Luby),
    Within SameRoot (searchAll conflictsBefore fuel luby)
  | 0, _ => within_throw
  | fuel + 1, luby => by
    unfold searchAll
    refine within_bind within_nextBudget fun next => ?_
    split
    · exact within_pure
    · refine within_bind (within_bind (within_modify fun _ => rfl) fun _ => within_searchFor fuel) fun state => ?_
      split
      · exact within_bind (within_modify fun _ => rfl) fun _ => within_bind (within_modifyGet fun _ => rfl) fun _ =>
          within_ite (fun _ => within_pure) fun _ => within_searchAll_root fuel _
      · exact within_pure

/-- Where the work of a solve stops, its assumptions end where they should, or none has been made. -/
theorem meets_attemptFromRoot_ends {fuel : Nat} (h : Rooted f settled c) :
    Meets (Run.attempt (solveFromRoot fuel assumptions)) c
      (fun _ d => d.trail.root = assumptions.length ∨ d.trail.level = 0) (fun _ => False) := by
  refine meets_attempt (Meets.mono (Q := fun _ d => d.trail.root = assumptions.length ∨ d.trail.level = 0)
    (E := fun d => d.trail.root = assumptions.length ∨ d.trail.level = 0) ?_ (fun _ _ => id) fun _ hd _ => hd)
  unfold solveFromRoot
  rw [meets_bind]
  refine (meets_prepare h).mono (fun _ d ⟨_, ht⟩ => ?_) fun d ⟨_, ht⟩ => .inr (ht.trail ▸ h.level)
  rw [meets_bind, meets_get, meets_ite]
  refine ⟨fun _ => .inr (ht.trail ▸ h.level), fun _ => ?_⟩
  rw [meets_bind]
  refine meets_startSchedule fun schedule => ?_
  rw [meets_bind, meets_modify]
  have hwithin : Within SameRoot (do
      if ← assumeEach assumptions then pure .failedAssumptions
      else
        let c ← get
        searchAll c.counters.conflicts fuel { base := c.options.restartBase.value }) :=
    within_bind (within_assumeEach assumptions) fun _ => within_ite (fun _ => within_pure) fun _ =>
      within_bind within_get fun _ => within_searchAll_root fuel _
  exact (hwithin _).meets.mono (fun _ _ => .inl) fun _ => .inl

theorem fit_solveFromRoot {fuel : Nat} (h : Rooted f settled c) (hu : c.pendingUnits = #[]) :
    (solveFromRoot.visits fuel assumptions).All c (Visit.Fit f assumptions.length) := by
  have hall : Rooted f (fun _ => True) c := h.anywhere
  refine fit_before (h.underway (.inr h.level)) (meets_prepare hall) fun _ d ⟨hs, ht⟩ =>
    all_look (all_ite (fun _ => all_nil) fun hne => ?_)
  have hd : Rooted f (fun _ => True) d := hall.trimmed hs ht
  refine fit_before (Q := fun _ e => e.Underway f assumptions.length ∧ Meets (modify fun c =>
    { c with trail := { c.trail with root := assumptions.length } }) e (fun _ g => Outset f assumptions.length g)
      fun _ => False) (E := fun _ => False) (hd.underway (.inr hd.level)) ?_ fun _ e ⟨he, hset⟩ => ?_
  · refine ⟨(hd.underway (.inr hd.level)).alike (.of_eq rfl rfl rfl rfl rfl) rfl rfl, ?_⟩
    exact (meets_bind.1 (meets_setOut hd (ht.units.trans hu) hne)).mono (fun _ _ hg => hg.2) fun _ => id
  · refine fit_before he hset fun _ g hg => ?_
    refine all_seq (fit_assumeEach assumptions [] g (hg.toRooted.assuming hg.units) hg.ends) (meets_makeAssumptions hg)
      fun failed i ⟨_, _, hfalse⟩ => ?_
    cases failed with
    | true => exact all_nil
    | false => exact fit_searchAll fuel _ i (hfalse rfl)

theorem fit_assignPendingUnits {b : Context} (h : Regaining f matters b c) :
    assignPendingUnits.visits.All c (Visit.Fit f root) :=
  fit_before (h.underway (.inr h.level)) (meets_assignNoted h) fun _ _ hd => fit_here (hd.1.underway (.inr hd.1.level))

theorem fit_returnToRoot (h : Stopped f matters c) (hr : c.trail.root = root ∨ c.trail.level = 0) :
    returnToRoot.visits.All c (Visit.Fit f root) := by
  refine fit_before (Q := fun _ d => Sound f (· = 0) d ∧ d.trail.level = 0 ∧
    Meets (modify fun c => { c with trail := { c.trail with root := 0 } }) d
      (fun _ e => Regaining f matters c e ∧ e.pendingUnits = c.pendingUnits) fun _ => False) (E := fun _ => False)
    (h.underway hr) ?_ fun _ d ⟨hd, hlevel, hset⟩ => ?_
  · exact ((meets_backjump_zero h.toSound).and (meets_bind.1 (meets_backToRoot h))).mono
      (fun _ d ⟨⟨hs, hlevel⟩, hset⟩ => ⟨hs, hlevel, hset⟩) fun _ hd => hd.1
  · exact fit_before (hd.underway (.inr hlevel)) hset fun _ e he => fit_assignPendingUnits he.1

/-- **Wherever a solve comes by, the trail can be traced back and no atom is marked**, and the assumptions end where they
should, or none is made. -/
theorem fit_solveGiven {fuel : Nat} (h : Resting f (· = 0) c) :
    (solveGiven.visits fuel assumptions).All c (Visit.Fit f assumptions.length) := by
  refine all_after (Q := fun _ d => d.state ≠ .unsatisfiable → Quiet f (· = 0) d) (E := fun _ => False) ?_ fun _ d hd => ?_
  · exact fun hs => (h.quiet hs).alike (.of_eq rfl rfl rfl rfl rfl) rfl rfl
  refine all_look (all_ite (fun _ => all_nil) fun hs => all_ite (fun _ => all_nil) fun _ => ?_)
  refine all_after (meets_bind.1 (meets_enter (hd hs) rfl)) fun _ _ he => all_after he fun _ e ⟨he, hunits, hsolving, _⟩ => ?_
  have hne : e.state ≠ .unsatisfiable := hsolving ▸ nofun
  refine all_seq (fit_solveFromRoot he hunits) ((meets_attemptFromRoot he hunits hne).and
    (meets_attemptFromRoot_ends he)) fun result g ⟨hstopped, hends⟩ => ?_
  refine all_seq (fit_returnToRoot hstopped hends) (meets_returnToRoot hstopped) fun _ i hi => ?_
  have hvi : i.Underway f assumptions.length := hi.underway (.inr hi.level)
  cases result with
  | error _ => exact fit_here hvi
  | ok state =>
    refine fit_before (Q := fun _ j => j.Underway f assumptions.length) (E := fun _ => False) hvi ?_ fun _ _ hj => fit_here hj
    unfold conclude
    rw [meets_bind, meets_modify, meets_bind, meets_get, meets_pure]
    dsimp only
    split <;> split <;> exact hvi.alike (.of_eq rfl rfl rfl rfl rfl) rfl rfl

end Solver
end Cdcl
