import Cdcl.Proofs.Session
/-!
# Steps — where a call propagates, analyses, simplifies and reduces

A call takes steps in the contexts it passes through.  `Steps` tells of a program, and the context it starts from, which
step is taken in which context.  It follows the program: what comes after a part of it starts where that part ends
(`after`, `seq`), and a part that stops has nothing come after it.

A claim about all steps of a program is read as a claim about its parts, as one about its end is (`all_seq`).
-/
namespace Cdcl

/-- A step of a call. -/
inductive Step
  | propagate
  | analyze (conflict : Conflict)
  | simplify
  | reduce

/-- What a step runs. -/
def Step.program : Step → Solver Unit
  | .propagate => do let _ ← Solver.propagate
  | .analyze conflict => do let _ ← Solver.analyzeConflict conflict
  | .simplify => Solver.simplify
  | .reduce => Solver.reduce

/-- The steps of a program: from a context, which step is taken in which context. -/
abbrev Steps := Context → Step → Context → Prop

namespace Steps

variable {α : Type}

def nil : Steps := fun _ _ _ => False

def take (step : Step) : Steps := fun c st d => st = step ∧ d = c

/-- The steps of what follows a program that has none. -/
def after (m : Solver α) (q : α → Steps) : Steps := fun c st d => ∃ a e, m c = .ok a e ∧ q a e st d

/-- The steps of a program, and of what follows it. -/
def seq (m : Solver α) (p : Steps) (q : α → Steps) : Steps := fun c st d => p c st d ∨ after m q c st d

/-- Whatever step is taken, this holds of it and of the context it is taken in. -/
def All (p : Steps) (c : Context) (P : Step → Context → Prop) : Prop := ∀ st d, p c st d → P st d

variable {m : Solver α} {p : Steps} {q : α → Steps} {c : Context} {P : Step → Context → Prop} {Q : α → Context → Prop}
  {E : Context → Prop} {step : Step}

theorem all_nil : nil.All c P := fun _ _ => False.elim

theorem all_take (h : P step c) : (take step).All c P := by
  rintro st d ⟨rfl, rfl⟩
  exact h

theorem all_ite {b : Context → Prop} [DecidablePred b] {x y : Steps} (hx : b c → x.All c P) (hy : ¬b c → y.All c P) :
    All (fun c => if b c then x c else y c) c P := by
  intro st d
  dsimp only
  split
  · exact hx ‹_› st d
  · exact hy ‹_› st d

/-- **The steps of what follows start where a program answers.** -/
theorem all_after (h : m.Meets c Q E) (hq : ∀ a e, Q a e → (q a).All e P) : (after m q).All c P := by
  rintro st d ⟨a, e, he, hst⟩
  exact hq a e (h.of_ok he) st d hst

/-- **Steps are those of the first part, and those of what follows where it answers.** -/
theorem all_seq (hp : p.All c P) (h : m.Meets c Q E) (hq : ∀ a e, Q a e → (q a).All e P) : (seq m p q).All c P :=
  fun st d hst => hst.elim (hp st d) (all_after h hq st d)

end Steps

namespace Solver

open Run Steps

/-! ## Steps of a search -/

/-- A simplification propagates first. -/
def simplify.steps : Steps := fun c st d =>
  take .simplify c st d ∨ ¬(c.trail.level > 0) ∧ c.state ≠ .unsatisfiable ∧ take .propagate c st d

def atConflict.steps (conflict : Conflict) : Steps :=
  after (count fun n => { n with conflicts := n.conflicts + 1, freshConflicts := n.freshConflicts + 1 }) fun _ c =>
    if c.trail.level = 0 then nil c
    else if c.trail.level ≤ c.trail.root then nil c
    else take (.analyze conflict) c

def simplifyAtRoot.steps : Steps := fun c =>
  if c.trail.level = 0 && c.options.simplify.value then simplify.steps c else nil c

def atRest.steps (budget : Option Nat) : Steps := fun c =>
  if budget.any (Decidable.decide <| · ≤ c.counters.freshConflicts) then nil c
  else seq simplifyAtRoot simplifyAtRoot.steps (fun stop c =>
    if stop then nil c else if crowded c then take .reduce c else nil c) c

def searchFor.steps (budget : Option Nat) : Nat → Steps
  | 0 => nil
  | fuel + 1 => seq propagate (take .propagate) fun
    | .conflict conflict => seq (atConflict conflict) (atConflict.steps conflict) fun
      | some _ => nil
      | none => searchFor.steps budget fuel
    | .corrupt => nil
    | .complete => seq (atRest budget) (atRest.steps budget) fun
      | some _ => nil
      | none => searchFor.steps budget fuel

def search.steps (fuel : Nat) (budget : Option Nat) : Steps :=
  after (count fun n => { n with freshConflicts := 0 }) fun _ => searchFor.steps budget fuel

/-! ## Steps of a solve -/

def assumeEach.steps : List Literal → Steps
  | [] => nil
  | l :: rest => fun c =>
    match c.atoms.standing l with
    | .holds => after (modify fun c => { c with trail := c.trail.newLevel }) (fun _ => assumeEach.steps rest) c
    | .free =>
      after (do
        modify fun c => { c with trail := c.trail.newLevel }
        assign l none) (fun _ => seq propagate (take .propagate) fun
          | .complete => assumeEach.steps rest
          | _ => nil) c
    | _ => nil c

def searchAll.steps (conflictsBefore : Nat) : Nat → Luby → Steps
  | 0, _ => nil
  | fuel + 1, luby => after (nextBudget luby conflictsBefore) fun
    | none => nil
    | some (budget, luby) => seq (search fuel budget) (search.steps fuel budget) fun
      | .unknown => after (do
          count fun n => { n with restarts := n.restarts + 1 }
          askStop) fun
        | true => nil
        | false => searchAll.steps conflictsBefore fuel luby
      | _ => nil

def prepare.steps : Steps := fun c =>
  if c.options.simplify.value then simplify.steps c else take .propagate c

def solveFromRoot.steps (fuel : Nat) (assumptions : List Literal) : Steps :=
  seq prepare prepare.steps fun _ c =>
    if c.state = .unsatisfiable then nil c
    else
      after (do
        startSchedule
        modify fun c => { c with trail := { c.trail with root := assumptions.length } })
        (fun _ => seq (assumeEach assumptions) (assumeEach.steps assumptions) fun
          | true => nil
          | false => fun c =>
            searchAll.steps c.counters.conflicts fuel { base := c.options.restartBase.value } c) c

def assignPendingUnits.steps : Steps :=
  after (do
    let units ← modifyGet fun c => (c.pendingUnits.toList, { c with pendingUnits := #[] })
    assignUnits units) fun _ => take .propagate

def returnToRoot.steps : Steps :=
  after (do
    backjump 0
    modify fun c => { c with trail := { c.trail with root := 0 } }) fun _ => assignPendingUnits.steps

def solveGiven.steps (fuel : Nat) (assumptions : List Literal) : Steps :=
  after (modify fun c => { c with model := #[], failed := [], pending := none }) fun _ c =>
    if c.state = .unsatisfiable then nil c
    else if assumptions.any fun l => !c.atoms.knows l.atom then nil c
    else
      after (do
        backjump 0
        setState .solving)
        (fun _ => seq (Run.attempt (solveFromRoot fuel assumptions)) (solveFromRoot.steps fuel assumptions)
          fun _ => returnToRoot.steps) c

/-! ## Steps of decisions from outside -/

def propagateDecision.steps : Steps := seq propagate (take .propagate) fun
  | .conflict conflict => after (count fun n => { n with conflicts := n.conflicts + 1 }) fun _ c =>
    if c.trail.level = 0 then nil c else take (.analyze conflict) c
  | _ => nil

def decide.steps (l : Literal) : Steps := fun c =>
  if c.state = .unsatisfiable then nil c
  else after (record l.atom) (fun r c =>
    if r.value.isSome then nil c
    else
      after (do
        modify ({ · with pending := none })
        decideLiteral l) (fun _ => propagateDecision.steps) c) c

def assertPending.steps : Steps := fun c =>
  match c.pending with
  | none => nil c
  | some pending =>
    after (do
      modify ({ · with pending := none })
      learn pending.clause) (fun _ => propagateDecision.steps) c

/-- Whether or not there has to be a clause to assert here. -/
def assertHere.steps : Steps := fun c => if c.atAssertionLevel then assertPending.steps c else nil c

def findModel.steps : Nat → Steps
  | 0 => nil
  | fuel + 1 => fun c =>
    if c.isUnsatisfiable then nil c
    else
      match c.atoms.firstFree? with
      | none => nil c
      | some a =>
        let l := Literal.ofAtom a true
        seq (decide l) (decide.steps l) (fun decided =>
          seq (if decided then findModel fuel else pure false) (if decided then findModel.steps fuel else nil) fun
            | true => nil
            | false => after (undo l) fun _ => seq assertIfHere assertHere.steps fun
              | some true => findModel.steps fuel
              | _ => nil) c

def countModelsFor.steps : Nat → Steps
  | 0 => nil
  | depth + 1 => fun c =>
    if c.isUnsatisfiable then nil c
    else
      match c.atoms.firstFree? with
      | none => nil c
      | some a =>
        let branch (l : Literal) : Steps := seq (decide l) (decide.steps l) fun decided =>
          if decided then countModelsFor.steps depth else nil
        seq (countModelsFor.countBranch depth (.ofAtom a true)) (branch (.ofAtom a true))
          (fun _ => branch (.ofAtom a false)) c

/-! ## Steps of adding clauses -/

def install.steps : Clause → Steps
  | [l] => after (assign l none) fun _ => take .propagate
  | _ => nil

def addClause.steps (clause : Clause) : Steps := fun c =>
  if c.state = .unsatisfiable then nil c
  else if c.trail.level > 0 then nil c
  else if clause.any fun l => !c.atoms.knows l.atom then nil c
  else if clause.normal.hasClash then nil c
  else if clause.normal.any c.atoms.isTrue then nil c
  else after (setState .input) (fun _ => install.steps (clause.normal.filter fun l => !c.atoms.isFalse l)) c

/-- The steps of doing what a text asks for. -/
def perform.steps : List Dimacs.Request → Steps
  | [] => nil
  | .atoms n :: rest => after (ensureAtoms n) fun _ => perform.steps rest
  | .clause clause :: rest => seq (addClause clause) (addClause.steps clause) fun _ => perform.steps rest

end Solver

open Solver in
/-- The steps of a call. -/
def Session.steps (s : Session) : Call → Steps
  | .freshAtom => .nil
  | .addClause clause => addClause.steps clause
  | .readDimacs lines => perform.steps (Dimacs.requests lines)
  | .solve fuel => solveGiven.steps fuel []
  | .solveGiven fuel assumptions =>
    if assumptions.length + s.context.atoms.count < levelLimit then solveGiven.steps fuel assumptions else .nil
  | .simplify => simplify.steps
  | .reduce => .take .reduce
  | .decide l => decide.steps l
  | .undo _ => .nil
  | .assertHere => if s.outdated then .nil else assertHere.steps
  | .countModels => fun c => countModelsFor.steps (c.atoms.count + 1) c
  | .findModel fuel => findModel.steps fuel

end Cdcl
