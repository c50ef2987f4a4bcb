import Cdcl.Proofs.Reliability
/-!
# Availability — an atom without a value can always be decided

Between calls, and wherever a search asks for a decision, every atom without a value is on the activity heap
(`Context.Available`).  So a decision is missing only where every atom has a value (`decision_available`).

Where a search asks is told by a function that follows it (`Asks`): what comes after a part of the search starts where that
part ends, and a part that stops has nothing come after it.  It is told as the steps of a call are (`Steps`), but by a list,
which can be computed.
-/
namespace Cdcl

open Run Context

/-- The contexts in which a program asks for a decision, from the one it starts in. -/
abbrev Asks := Context → List Context

namespace Asks

variable {α : Type}

def nil : Asks := fun _ => []

def here : Asks := fun c => [c]

/-- Where a program asks that looks at the context first. -/
def look (x : Context → Asks) : Asks := fun c => x c c

/-- Where what follows a program asks, if the program does not ask itself. -/
def after (m : Solver α) (q : α → Asks) : Asks := fun c =>
  match m c with
  | .ok a d => q a d
  | .error _ _ => []

/-- Where a program asks, and what follows it. -/
def seq (m : Solver α) (p : Asks) (q : α → Asks) : Asks := fun c => p c ++ after m q c

/-- Wherever it is asked, this holds. -/
def All (p : Asks) (c : Context) (P : Context → Prop) : Prop := ∀ d ∈ p c, P d

variable {m : Solver α} {p : Asks} {q : α → Asks} {c : Context} {P : Context → Prop} {Q : α → Context → Prop}
  {E : Context → Prop}

theorem all_nil : nil.All c P := fun _ => nofun

theorem all_here (h : P c) : here.All c P := fun _ hd => List.mem_singleton.1 hd ▸ h

theorem all_look {x : Context → Asks} (h : (x c).All c P) : (look x).All c P := h

theorem all_ite {b : Prop} [Decidable b] {x y : Asks} (hx : b → x.All c P) (hy : ¬b → y.All c P) :
    (if b then x else y).All c P := by
  split
  · exact hx ‹_›
  · exact hy ‹_›

theorem all_after (h : m.Meets c Q E) (hq : ∀ a d, Q a d → (q a).All d P) : (after m q).All c P := by
  intro e he
  unfold after at he
  split at he
  · exact hq _ _ (h.of_ok ‹_›) e he
  · cases he

theorem all_seq (hp : p.All c P) (h : m.Meets c Q E) (hq : ∀ a d, Q a d → (q a).All d P) : (seq m p q).All c P :=
  fun d hd => (List.mem_append.1 hd).elim (hp d) (all_after h hq d)

end Asks

namespace Solver

open Asks

/-! ## Where a solve asks -/

def atRest.asks (budget : Option Nat) : Asks := look fun c =>
  if budget.any (Decidable.decide <| · ≤ c.counters.freshConflicts) then nil
  else after simplifyAtRoot fun stop =>
    if stop then nil
    else look fun c => if crowded c then after reduce fun _ => here else here

def searchFor.asks (budget : Option Nat) : Nat → Asks
  | 0 => nil
  | fuel + 1 => after propagate fun
    | .conflict conflict => after (atConflict conflict) fun
      | some _ => nil
      | none => searchFor.asks budget fuel
    | .corrupt => nil
    | .complete => seq (atRest budget) (atRest.asks budget) fun
      | some _ => nil
      | none => searchFor.asks budget fuel

def search.asks (fuel : Nat) (budget : Option Nat) : Asks :=
  after (count fun n => { n with freshConflicts := 0 }) fun _ => searchFor.asks budget fuel

def searchAll.asks (conflictsBefore : Nat) : Nat → Luby → Asks
  | 0, _ => nil
  | fuel + 1, luby => after (nextBudget luby conflictsBefore) fun
    | none => nil
    | some (budget, luby) => seq (search fuel budget) (search.asks fuel budget) fun
      | .unknown =>
        after (count fun n => { n with restarts := n.restarts + 1 }) fun _ =>
        after askStop fun stop => if stop then nil else searchAll.asks conflictsBefore fuel luby
      | _ => nil

def solveFromRoot.asks (fuel : Nat) (assumptions : List Literal) : Asks :=
  after prepare fun _ => look fun c =>
    if c.state = .unsatisfiable then nil
    else
      after startSchedule fun _ =>
      after (modify fun c => { c with trail := { c.trail with root := assumptions.length } }) fun _ =>
      after (assumeEach assumptions) fun failed =>
        if failed then nil
        else look fun c => searchAll.asks c.counters.conflicts fuel { base := c.options.restartBase.value }

def solveGiven.asks (fuel : Nat) (assumptions : List Literal) : Asks :=
  after (modify fun c => { c with model := #[], failed := [], pending := none }) fun _ => look fun c =>
    if c.state = .unsatisfiable then nil
    else if assumptions.any fun l => !c.atoms.knows l.atom then nil
    else
      after (backjump 0) fun _ =>
      after (setState .solving) fun _ => solveFromRoot.asks fuel assumptions

end Solver

/-! ## Atoms on hand -/

namespace Context

/-- Every atom without a value is on the activity heap. -/
def Available (c : Context) : Prop :=
  ∀ a < c.atoms.count, c.atoms.value a = none → c.atoms.activity.contains a = true ∧ a ∈ c.atoms.activity.heap

/-- The heap serves a choice, and there are not more atoms than literals tell apart. -/
structure Choosable (c : Context) : Prop where
  stocked : c.atoms.Stocked
  bounded : c.atoms.count ≤ atomLimit

/-- A context with other draws and other options, those of its atoms among them. -/
def configured (c : Context) (random : Chance) (options : Options) (atomOptions : AtomOptions) : Context :=
  { c with random, options, atoms := { c.atoms with options := atomOptions } }

open Solver

variable {f : Formula} {settled : Nat → Prop} {c d : Context}

theorem Sound.choosable (h : Sound f settled c) : c.Choosable := ⟨h.stocked, h.shaped.bounded⟩

theorem Choosable.available (h : c.Choosable) : c.Available := fun a ha hv => by
  have hmem := h.stocked.free a ha hv
  obtain ⟨p, hp⟩ := h.stocked.linked.mem_iff.1 hmem
  exact ⟨Option.isSome_iff_exists.2 ⟨p, hp⟩, hmem⟩

theorem Choosable.configured (h : c.Choosable) (random : Chance) (options : Options) (atomOptions : AtomOptions) :
    (c.configured random options atomOptions).Choosable :=
  ⟨⟨h.stocked.linked, h.stocked.size, h.stocked.free⟩, h.bounded⟩

/-- **A decision is missing only where every atom has a value.** -/
theorem Choosable.of_choice {choice : Option Literal} (h : c.Choosable) (hd : chooseDecision c = .ok choice d) :
    (choice = none ↔ ∀ a < c.atoms.count, c.atoms.value a ≠ none) ∧
      ∀ l, choice = some l → l.atom < c.atoms.count ∧ c.atoms.value l.atom = none := by
  rcases (meets_chooseDecision h.stocked h.bounded).of_ok hd with ⟨l, rfl, hl⟩ | ⟨rfl, -, hall⟩
  · exact ⟨⟨nofun, fun hall => absurd hl.free (hall l.atom hl.known)⟩, fun m hm => Option.some.inj hm ▸ ⟨hl.known, hl.free⟩⟩
  · exact ⟨⟨fun _ => hall, fun _ => rfl⟩, nofun⟩

theorem Choosable.exists_choice (h : c.Choosable) (ho : c.options.Declared) :
    ∃ choice d, chooseDecision c = .ok choice d := by
  cases hd : chooseDecision c with
  | ok choice d => exact ⟨choice, d, rfl⟩
  | error e d =>
    have hstops : Stops chooseDecision c fun _ => False := stops_chooseDecision h.stocked h.bounded ho
    exact (hstops e d hd).elim

end Context

namespace Solver

open Asks

variable {f : Formula} {assumptions : List Literal} {root : Nat} {settled : Nat → Prop} {c : Context}

/-! ## Wherever a solve asks -/

theorem choosable_atRest {budget : Option Nat} (h : Complete f assumptions root c) :
    (atRest.asks budget).All c Choosable := by
  unfold atRest.asks
  refine all_look (all_ite (fun _ => all_nil) fun _ => all_after (meets_simplifyAtRoot h) fun stop d ⟨hstop, _, hd⟩ => ?_)
  subst hstop
  rw [if_neg Bool.false_ne_true]
  refine all_look (all_ite (fun _ => ?_) fun _ => all_here hd.choosable)
  exact all_after (meets_reduce hd.toSound) fun _ e he => all_here he.1.choosable

theorem choosable_searchFor {budget : Option Nat} : ∀ (fuel : Nat) (c : Context), Poised f assumptions root c →
    (searchFor.asks budget fuel).All c Choosable
  | 0, _, _ => all_nil
  | fuel + 1, c, h => by
    refine all_after (meets_propagate (E := fun _ => False) h.toSound fun _ => h.current) fun result d hd => ?_
    have hsearch := h.propagated hd
    cases result with
    | corrupt => exact all_nil
    | conflict conflict =>
      refine all_after (meets_atConflict hsearch hd.verdict (h.here hd)) fun answer e he => ?_
      cases answer with
      | some _ => exact all_nil
      | none => exact choosable_searchFor fuel e he.2
    | complete =>
      refine all_seq (choosable_atRest (h.complete hd)) (meets_atRest (h.complete hd)) fun answer e he => ?_
      cases answer with
      | some _ => exact all_nil
      | none => exact choosable_searchFor fuel e he.2

theorem choosable_search {fuel : Nat} {budget : Option Nat} (h : Poised f assumptions root c) :
    (search.asks fuel budget).All c Choosable :=
  all_after (Q := fun _ d => Poised f assumptions root d) (E := fun _ => False)
    (meets_count.2 (h.alike (.of_eq rfl rfl rfl rfl rfl) rfl rfl rfl)) fun _ d hd => choosable_searchFor fuel d hd

theorem choosable_searchAll {conflictsBefore : Nat} : ∀ (fuel : Nat) (luby : Luby) (c : Context),
    Poised f assumptions root c → (searchAll.asks conflictsBefore fuel luby).All c Choosable
  | 0, _, _, _ => all_nil
  | fuel + 1, luby, c, h => by
    refine all_after meets_nextBudget fun next d hd => ?_
    subst hd
    cases next with
    | none => exact all_nil
    | some next =>
      refine all_seq (choosable_search h) (meets_search h) fun state e ⟨_, he⟩ => ?_
      cases state with
      | unknown =>
        refine all_after (Q := fun _ g => Poised f assumptions root g) (E := fun _ => False)
          (meets_count.2 ((he.again rfl).alike (.of_eq rfl rfl rfl rfl rfl) rfl rfl rfl)) fun _ g hg => ?_
        refine all_after (Q := fun _ i => Poised f assumptions root i) (E := fun _ => False) ?_ fun stop i hi =>
          all_ite (fun _ => all_nil) fun _ => choosable_searchAll fuel next.2 i hi
        exact meets_askStop fun stop listeners => hg.alike (.of_eq rfl rfl rfl rfl rfl) rfl rfl rfl
      | _ => exact all_nil

theorem choosable_solveFromRoot {fuel : Nat} (h : Rooted f settled c) (hu : c.pendingUnits = #[]) :
    (solveFromRoot.asks fuel assumptions).All c Choosable := by
  have hall : Rooted f (fun _ => True) c := h.anywhere
  refine all_after (meets_prepare hall) fun _ d ⟨hs, ht⟩ => all_look (all_ite (fun _ => all_nil) fun hne => ?_)
  have hd : Rooted f (fun _ => True) d := hall.trimmed hs ht
  refine all_after (meets_bind.1 (meets_setOut hd (ht.units.trans hu) hne)) fun _ _ he =>
    all_after he fun _ e ⟨_, he⟩ => all_after (meets_makeAssumptions he) fun failed g ⟨_, _, hfalse⟩ => ?_
  cases failed with
  | true => exact all_nil
  | false => exact choosable_searchAll fuel _ g (hfalse rfl)

/-- **Wherever a solve asks for a decision, the heap serves it.** -/
theorem choosable_solveGiven {fuel : Nat} (h : Resting f (· = 0) c) :
    (solveGiven.asks fuel assumptions).All c Choosable := by
  refine all_after (Q := fun _ d => d.state ≠ .unsatisfiable → Quiet f (· = 0) d) (E := fun _ => False) ?_ fun _ d hd => ?_
  · exact fun hs => (h.quiet hs).alike (.of_eq rfl rfl rfl rfl rfl) rfl rfl
  refine all_look (all_ite (fun _ => all_nil) fun hs => all_ite (fun _ => all_nil) fun _ => ?_)
  exact all_after (meets_bind.1 (meets_enter (hd hs) rfl)) fun _ _ he => all_after he fun _ _ he =>
    choosable_solveFromRoot he.1 he.2.1

end Solver

namespace Session

open Solver

variable {s : Session} {c : Context} {fuel : Nat} {assumptions : List Literal}

theorem Followed.choosable (h : s.Followed)
    (hc : c = s.context ∨ c ∈ solveGiven.asks fuel assumptions s.context) : c.Choosable := by
  rcases hc with rfl | hc
  · obtain ⟨g, settled, hs, -⟩ := h.held.exists_sound
    exact hs.choosable
  · exact choosable_solveGiven h.held.toResting c hc

/-- **Every atom without a value is available for decision.**  Between calls, and wherever a solve asks for a decision, each
atom without a value is on the activity heap.  So, whatever is drawn and whatever the options, a choice there comes out empty
exactly if every atom has a value, and is of an atom without a value if not.  With options within their bounds a choice does
come out. -/
theorem decision_available (h : s.Followed)
    (hc : c = s.context ∨ c ∈ solveGiven.asks fuel assumptions s.context) :
    c.Available ∧ ∀ (random : Chance) (options : Options) (atomOptions : AtomOptions),
      (options.Declared → ∃ choice d, chooseDecision (c.configured random options atomOptions) = .ok choice d) ∧
      ∀ choice d, chooseDecision (c.configured random options atomOptions) = .ok choice d →
        (choice = none ↔ ∀ a < c.atoms.count, c.atoms.value a ≠ none) ∧
        ∀ l, choice = some l → l.atom < c.atoms.count ∧ c.atoms.value l.atom = none := by
  have hchoosable := h.choosable hc
  refine ⟨hchoosable.available, fun random options atomOptions => ?_⟩
  have hconfigured := hchoosable.configured random options atomOptions
  exact ⟨fun ho => hconfigured.exists_choice ho, fun _ _ hd => hconfigured.of_choice hd⟩

/-- With one of two atoms to hold, after a solve: a further solve asks where neither atom has a value, where one has, and
where both have. -/
theorem decision_available_or : ∃ s : Session, s.Followed ∧ s.formula = [[x₀, x₁]] ∧ s.context.state = .satisfiable ∧
    (solveGiven.asks 10 [] s.context).map (fun c => (c.atoms.count, c.trail.size)) = [(2, 0), (2, 1), (2, 2)] ∧
    ∀ c ∈ s.context :: solveGiven.asks 10 [] s.context,
      c.Available ∧ ∀ (random : Chance) (options : Options) (atomOptions : AtomOptions),
        (options.Declared → ∃ choice d, chooseDecision (c.configured random options atomOptions) = .ok choice d) ∧
        ∀ choice d, chooseDecision (c.configured random options atomOptions) = .ok choice d →
          (choice = none ↔ ∀ a < c.atoms.count, c.atoms.value a ≠ none) ∧
          ∀ l, choice = some l → l.atom < c.atoms.count ∧ c.atoms.value l.atom = none := by
  have h : ((start {} .default).run [.freshAtom, .freshAtom, .addClause [x₀, x₁], .solve 10]).map (fun s =>
      (s.formula, s.context.state, (solveGiven.asks 10 [] s.context).map fun c => (c.atoms.count, c.trail.size))) =
      some ([[x₀, x₁]], .satisfiable, [(2, 0), (2, 1), (2, 2)]) := by
    simp only [Session.run, Session.call, Session.after, addClause, normal_or]
    decide +kernel
  obtain ⟨s, hs, hview⟩ := Option.map_eq_some_iff.1 h
  simp only [Prod.mk.injEq] at hview
  obtain ⟨hf, hstate, hasks⟩ := hview
  have hfollowed : s.Followed := .run _ (.start {} .default) hs
  exact ⟨s, hfollowed, hf, hstate, hasks, fun c hc => decision_available hfollowed (List.mem_cons.1 hc)⟩

end Session
end Cdcl
