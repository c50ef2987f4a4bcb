import Cdcl.Proofs.Branching
import Cdcl.Proofs.Building
import Cdcl.Proofs.Reading
/-!
# Session — calls in any order

A session is a context with the clauses accepted so far, and a note whether one was accepted since the clause that waits
was learnt: such a clause may not be asserted any more.  Its calls add atoms and clauses, read texts, solve, simplify,
reduce, and decide, undo and assert from outside.  A call that stops otherwise than with an answer or a failure ends the
session, and a solve is made only where its levels can be counted.

Every call keeps what holds between calls (`Held.call`), so every run of calls does (`Held.run`).  Only the level where a
call ends in a conflict is not settled any more.
-/
namespace Cdcl
namespace Run

variable {σ α : Type}

/-- How a program ended, if with an answer or a failure. -/
def ended (m : Run σ α) (s : σ) : Option (Option α × σ) :=
  match m s with
  | .ok a t => some (some a, t)
  | .error (.failure _) t => some (none, t)
  | .error _ _ => none

theorem ended_eq_answer {m : Run σ α} {s t : σ} {a : α} (h : m.ended s = some (some a, t)) : m s = .ok a t := by
  unfold ended at h
  split at h
  · cases h
    assumption
  · cases h
  · cases h

theorem Meets.of_ended {m : Run σ α} {s t : σ} {r : Option α} {P : Option α → σ → Prop}
    (h : Meets m s (fun a u => P (some a) u) (P none)) (he : ended m s = some (r, t)) : P r t := by
  unfold ended at he
  split at he
  · cases he
    exact h.of_ok ‹_›
  · cases he
    exact h.of_failure ‹_›
  · cases he

end Run

open Dimacs (Request)

structure Session where
  context : Context
  /-- The clauses accepted so far. -/
  formula : Formula
  /-- Whether a clause was accepted since the clause that waits was learnt. -/
  outdated : Bool

inductive Call
  | freshAtom
  | addClause (clause : Clause)
  | readDimacs (lines : List (Option (List Char)))
  | solve (fuel : Nat)
  | solveGiven (fuel : Nat) (assumptions : List Literal)
  | simplify
  | reduce
  | decide (l : Literal)
  | undo (l : Literal)
  | assertHere
  | countModels
  | findModel (fuel : Nat)

/-- A call that decides literals. -/
def Call.Decides : Call → Prop
  | .decide _ | .countModels | .findModel _ => True
  | _ => False

/-- A call that solves goes back to level zero first. -/
def Call.Solves : Call → Prop
  | .solve _ | .solveGiven _ _ => True
  | _ => False

namespace Session

def start (options : Options) (random : Chance) : Session := ⟨.make options random, [], false⟩

/-- A call has led to a context, and accepted no clause. -/
def goTo (s : Session) (d : Context) : Session := { s with context := d }

/-- A clause was accepted.  One that says nothing new leaves the clause that waits as good as it was. -/
def accept (s : Session) (clause : Clause) (outcome : ClauseOutcome) (d : Context) : Session where
  context := d
  formula := s.formula ++ [clause]
  outdated := s.outdated || (s.context.pending.isSome && (outcome == .added || outcome == .unsatisfiable))

/-- A call has led to a context, and forgotten the clause that waited. -/
def forget (s : Session) (d : Context) : Session := { s with context := d, outdated := false }

/-- A call that decides has led to a context.  With its first decision, if there was one, it has forgotten the clause that
waited. -/
def branch (s : Session) (d : Context) : Session :=
  { s with context := d, outdated := s.outdated && Decidable.decide s.context.Finished }

/-- What a text asks for is done, up to where that fails. -/
def take : List Request → Session → Session
  | [], s => s
  | .atoms n :: rest, s =>
    match Solver.ensureAtoms n s.context with
    | .ok _ d => take rest (s.goTo d)
    | .error _ d => s.goTo d
  | .clause clause :: rest, s =>
    match Solver.addClause clause s.context with
    | .ok outcome d => take rest (s.accept clause outcome d)
    | .error _ d => s.goTo d

/-- The session after a program, if it ended. -/
def after {α : Type} (s : Session) (m : Solver α) (next : Option α → Context → Session) : Option Session :=
  (m.ended s.context).map fun r => next r.1 r.2

/-- The session after a call. -/
def call (s : Session) : Call → Option Session
  | .freshAtom => s.after Solver.freshAtom fun _ => s.goTo
  | .addClause clause => s.after (Solver.addClause clause) fun
    | some outcome => s.accept clause outcome
    | none => s.goTo
  | .readDimacs lines => s.after (Solver.readAll lines) fun _ _ => s.take (Dimacs.requests lines)
  | .solve fuel => s.after (Solver.solve fuel) fun _ => s.forget
  | .solveGiven fuel assumptions =>
    if assumptions.length + s.context.atoms.count < levelLimit then
      s.after (Solver.solveGiven fuel assumptions) fun _ => s.forget
    else none
  | .simplify => s.after Solver.simplify fun _ => s.goTo
  | .reduce => s.after Solver.reduce fun _ => s.goTo
  | .decide l => s.after (Solver.decide l) fun _ => s.branch
  | .undo l => s.after (Solver.undo l) fun _ => s.goTo
  | .assertHere => if s.outdated then none else s.after Solver.assertHere fun _ => s.goTo
  | .countModels => s.after Solver.countModels fun _ => s.branch
  | .findModel fuel => s.after (Solver.findModel fuel) fun _ => s.branch

/-- The session after a list of calls. -/
def run : List Call → Session → Option Session
  | [], s => some s
  | k :: rest, s => (s.call k).bind (run rest)

/-- **What holds of a session**: of its context, and of the clause that waits, unless it is outdated. -/
structure Held (settled : Nat → Prop) (s : Session) : Prop extends Context.Resting s.formula settled s.context where
  waiting : s.outdated = false → s.context.Waiting s.formula

theorem after_eq_some {α : Type} {s t : Session} {m : Solver α} {next : Option α → Context → Session}
    (h : s.after m next = some t) : ∃ r d, m.ended s.context = some (r, d) ∧ next r d = t := by
  obtain ⟨⟨r, d⟩, hr, he⟩ := Option.map_eq_some_iff.1 h
  exact ⟨r, d, hr, he⟩

/-- A program that ends in what has to hold leads to a session where it does. -/
theorem meets_after {α : Type} {s t : Session} {m : Solver α} {next : Option α → Context → Session}
    {P : Session → Prop} (h : m.Meets s.context (fun a d => P (next (some a) d)) (fun d => P (next none d)))
    (ht : s.after m next = some t) : P t := by
  obtain ⟨r, d, hr, rfl⟩ := after_eq_some ht
  exact h.of_ended (P := fun r d => P (next r d)) hr

end Session

namespace Solver

open Run Context

variable {c : Context} {key : ClauseKey}

/-! ## What no atom and no reduction tells -/

theorem meets_freshAtom_course :
    Meets freshAtom c (fun _ d => d.course = c.course) (fun d => d.course = c.course) := by
  unfold freshAtom
  rw [meets_bind, meets_get, meets_bind]
  refine meets_chance fun previous random => ?_
  rw [meets_bind, meets_onAtoms]
  exact meets_of_cases (fun _ _ _ => rfl) fun _ _ _ => rfl

theorem meets_removeLong_course :
    Meets (removeLong key) c (fun _ d => d.course = c.course) (fun d => d.course = c.course) := by
  unfold removeLong
  rw [meets_bind, meets_onClauses]
  refine meets_of_cases (fun stored t _ => ?_) fun _ _ _ => rfl
  split
  · rw [meets_onWatches]
    exact meets_of_cases (fun _ _ _ => rfl) fun _ _ _ => rfl
  · trivial

theorem meets_removeInactive_course {limit : Float} : ∀ (half : Nat) (list : List (ClauseKey × Float)) (c : Context),
    Meets (removeInactive limit half list) c (fun _ d => d.course = c.course) (fun d => d.course = c.course)
  | _, [], _ => rfl
  | half, (key, activity) :: rest, c => by
    unfold removeInactive
    rw [meets_bind]
    refine gives_isLocked.meets ?_
    dsimp only
    split
    · rw [meets_bind]
      refine meets_removeLong_course.mono (fun _ d hd => ?_) fun _ => id
      rw [← hd]
      exact meets_removeInactive_course (half - 1) rest d
    · exact meets_removeInactive_course (half - 1) rest c

theorem meets_reduce_course : Meets reduce c (fun _ d => d.course = c.course) (fun d => d.course = c.course) := by
  unfold reduce
  rw [meets_bind, meets_get, meets_ite]
  exact ⟨fun _ => rfl, fun _ => meets_removeInactive_course _ _ c⟩

end Solver

namespace Session

open Run Context Solver

variable {settled other : Nat → Prop} {s t : Session} {d : Context}

/-! ## Calls keep what holds -/

theorem Held.of_idle (h : Idle s.formula settled s.context) : Held settled s := ⟨h.toResting, fun _ => h.waiting⟩

theorem Held.idle (h : Held settled s) (ho : s.outdated = false) : Idle s.formula settled s.context :=
  ⟨h.toResting, h.waiting ho⟩

theorem Held.weaken (h : Held settled s) (hw : ∀ k ≤ s.context.trail.level, other k → settled k) : Held other s :=
  ⟨h.toResting.weaken hw, h.waiting⟩

theorem Held.clear (h : Held settled s) : Held (s.context.clear settled) s := h.weaken fun _ _ hk => hk.1

theorem Held.of_barren (h : Held settled s) (hs : s.context.state = .unsatisfiable) (hb : Barren s.formula d)
    (hd : d.course = s.context.course) : Held settled (s.goTo d) := by
  refine ⟨.of_barren hb ((state_eq_of_course hd).trans hs), fun ho p hp => ?_⟩
  exact absurd hs (h.waiting ho p ((pending_eq_of_course hd).symm.trans hp)).1

theorem Held.sameTrail (h : Held settled s) (hs : s.context.state ≠ .unsatisfiable) (hd : Sound s.formula settled d)
    (ht : Trimmed s.context d) : Held settled (s.goTo d) where
  toResting := .of_quiet (ht.quiet (h.quiet hs) hd) (state_eq_of_course ht.course ▸ hs)
  waiting ho := (h.waiting ho).still (pending_eq_of_course ht.course) (fun hs => state_eq_of_course ht.course ▸ hs)
    (Nat.le_of_eq (congrArg AtomTable.count ht.atoms.symm)) ht.trail

theorem Held.freshAtom (h : Held settled s) :
    Meets freshAtom s.context (fun _ d => Held settled (s.goTo d)) (fun d => Held settled (s.goTo d)) := by
  by_cases hs : s.context.state = .unsatisfiable
  · have hbarren := h.barren hs
    obtain ⟨part, hpart, hsound⟩ := hbarren.sound
    refine ((meets_freshAtom hsound).and meets_freshAtom_course).mono (fun _ d ⟨⟨hd, hw⟩, hcourse⟩ => ?_)
      fun d ⟨⟨ha, hm, ht⟩, hcourse⟩ => h.of_barren hs (hbarren.alike ha hm ht) hcourse
    exact h.of_barren hs ⟨hbarren.unsatisfiable, ⟨part, hpart, hd⟩, hw.trail ▸ hbarren.level, hw.trail ▸ hbarren.head,
      hw.units.trans hbarren.units⟩ hcourse
  have hquiet := h.quiet hs
  refine ((meets_freshAtom hquiet.toSound).and meets_freshAtom_course).mono (fun _ d ⟨⟨hd, hw⟩, hcourse⟩ => ?_)
    fun d ⟨⟨ha, hm, ht⟩, hcourse⟩ => ?_
  · have hstate : d.state ≠ .unsatisfiable := state_eq_of_course hcourse ▸ hs
    exact ⟨.of_quiet (hw.quiet hquiet hd) hstate, fun ho => (h.waiting ho).still (pending_eq_of_course hcourse)
      (fun _ => hstate) (hw.count ▸ Nat.le_succ _) hw.trail⟩
  · have hstate : d.state ≠ .unsatisfiable := state_eq_of_course hcourse ▸ hs
    exact ⟨.of_quiet (hquiet.alike ha hm (congrArg Trail.head ht)) hstate, fun ho =>
      (h.waiting ho).still (pending_eq_of_course hcourse) (fun _ => hstate) (Nat.le_of_eq ha.count.symm) ht⟩

/-- **An accepted clause becomes part of the formula.**  The clause that waits may wait on, if the accepted one says
nothing new. -/
theorem Held.addClause (h : Held settled s) (hz : settled 0) (clause : Clause) :
    Meets (addClause clause) s.context (fun outcome d => Held settled (s.accept clause outcome d))
      (fun d => Held settled (s.goTo d)) := by
  refine (meets_addClause h.toResting hz).mono (fun outcome d hd => ⟨hd.resting, fun ho => ?_⟩)
    fun d ⟨hd, ht, ha, hp, hstate, _⟩ => ⟨hd, fun ho => ?_⟩
  · have ho : s.outdated = false ∧ (s.context.pending.isSome = true → outcome ≠ .added ∧ outcome ≠ .unsatisfiable) := by
      simpa [accept] using ho
    by_cases hwait : s.context.pending.isSome = true
    · obtain ⟨hadded, hunsat⟩ := ho.2 hwait
      rw [hd.same hadded hunsat]
      exact (h.waiting ho.1).carry (fun v hv => (Formula.holds_append.1 hv).1) rfl id (Nat.le_refl _) (Nat.le_refl _)
        fun _ _ => rfl
    · refine .of_none (hd.pending.trans ?_)
      simpa using hwait
  · exact (h.waiting ho).still hp hstate (Nat.le_of_eq (congrArg AtomTable.count ha.symm)) ht

theorem Held.simplify (h : Held settled s) (hz : settled 0) :
    Meets simplify s.context (fun _ d => Held settled (s.goTo d)) (fun d => Held settled (s.goTo d)) := by
  by_cases hl : s.context.trail.level = 0 ∧ s.context.state ≠ .unsatisfiable
  · exact (meets_simplify ((h.quiet hl.2).rooted hz hl.1)).mono (fun _ d ⟨hd, ht⟩ => h.sameTrail hl.2 hd ht)
      fun d ⟨hd, ht⟩ => h.sameTrail hl.2 hd ht
  · unfold Solver.simplify
    rw [meets_bind, meets_get, meets_ite]
    refine ⟨fun _ => h, fun hz => ?_⟩
    rw [meets_ite]
    exact ⟨fun _ => h, fun hs => absurd ⟨Nat.eq_zero_of_not_pos hz, hs⟩ hl⟩

theorem Held.reduce (h : Held settled s) :
    Meets reduce s.context (fun _ d => Held settled (s.goTo d)) (fun d => Held settled (s.goTo d)) := by
  by_cases hs : s.context.state = .unsatisfiable
  · have hbarren := h.barren hs
    obtain ⟨part, hpart, hsound⟩ := hbarren.sound
    have hreduced : ∀ d, Sound part (· = 0) d ∧ Trimmed s.context d → Held settled (s.goTo d) := fun d ⟨hd, ht⟩ =>
      h.of_barren hs ⟨hbarren.unsatisfiable, ⟨part, hpart, hd⟩, ht.trail ▸ hbarren.level, ht.trail ▸ hbarren.head,
        ht.units.trans hbarren.units⟩ ht.course
    exact (meets_reduce hsound).mono (fun _ d => hreduced d) hreduced
  · exact (meets_reduce (h.quiet hs).toSound).mono (fun _ d ⟨hd, ht⟩ => h.sameTrail hs hd ht)
      fun d ⟨hd, ht⟩ => h.sameTrail hs hd ht

/-- **A solve forgets the clause that waited.** -/
theorem Held.solveGiven (h : Held settled s) (hz : settled 0) (fuel : Nat) (assumptions : List Literal) :
    Meets (solveGiven fuel assumptions) s.context (fun _ d => Held settled (s.forget d))
      (fun d => Held settled (s.forget d)) :=
  (meets_solveGiven h.toResting hz).mono (fun _ _ hd => ⟨hd.resting, fun _ => .of_none hd.pending⟩)
    fun _ hd => ⟨hd.1, fun _ => .of_none hd.2.1⟩

theorem Held.finished (h : Held settled s) (hf : s.context.Finished) : Held settled (s.branch s.context) :=
  ⟨h.toResting, fun ho => h.waiting (by simpa [Session.branch, hf] using ho)⟩

theorem Held.branch (h : Held settled s)
    (hd : Idle s.formula (d.clear settled) d ∨ d = s.context ∧ s.context.Finished) :
    Held (d.clear settled) (s.branch d) := by
  rcases hd with hd | ⟨rfl, hf⟩
  · exact ⟨hd.toResting, fun _ => hd.waiting⟩
  · exact h.clear.finished hf

theorem Held.undo (h : Held settled s) (l : Literal) :
    Meets (undo l) s.context (fun _ d => Held settled (s.goTo d)) (fun d => Held settled (s.goTo d)) :=
  (meets_undo h.toResting).mono (fun _ _ hd => ⟨hd.1, fun ho => hd.2.1 (h.waiting ho)⟩) fun _ => False.elim

/-! ## Reading -/

/-- A property of sessions that is kept where an atom or a clause is added. -/
structure Building (P : Session → Prop) : Prop where
  atom : ∀ s, P s → Meets freshAtom s.context (fun _ d => P (s.goTo d)) fun d => P (s.goTo d)
  clause : ∀ (clause : Clause) (s : Session), P s →
    Meets (addClause clause) s.context (fun outcome d => P (s.accept clause outcome d)) fun d => P (s.goTo d)

namespace Building

variable {P : Session → Prop}

theorem freshAtoms (hP : Building P) : ∀ (n : Nat) (s : Session), P s →
    Meets (freshAtoms n) s.context (fun _ d => P (s.goTo d)) (fun d => P (s.goTo d))
  | 0, _, h => h
  | n + 1, s, h => by
    unfold Solver.freshAtoms
    rw [meets_bind]
    refine (hP.atom s h).mono (fun a d hd => ?_) fun _ => id
    rw [meets_bind]
    exact (hP.freshAtoms n (s.goTo d) hd).mono (fun _ _ => id) fun _ => id

theorem ensureAtoms (hP : Building P) (n : Nat) (h : P s) :
    Meets (ensureAtoms n) s.context (fun _ d => P (s.goTo d)) (fun d => P (s.goTo d)) := by
  unfold Solver.ensureAtoms
  rw [meets_bind, meets_get, meets_bind]
  exact hP.freshAtoms _ s h

/-- **Doing what a text asks for keeps what adding atoms and clauses keeps**, and leads to the context of the session that
is told of it. -/
theorem take (hP : Building P) : ∀ (requests : List Request) (s : Session), P s →
    Meets (requests.forM perform) s.context (fun _ d => P (s.take requests) ∧ (s.take requests).context = d)
      (fun d => P (s.take requests) ∧ (s.take requests).context = d)
  | [], _, h => ⟨h, rfl⟩
  | .atoms n :: rest, s, h => by
    show Meets (Solver.ensureAtoms n >>= fun _ => rest.forM perform) _ _ _
    rw [meets_bind]
    refine meets_of_cases (fun u d hd => ?_) fun e d hd => ?_
    · have htake : s.take (.atoms n :: rest) = (s.goTo d).take rest := by
        rw [Session.take, hd]
      rw [htake]
      exact hP.take rest (s.goTo d) ((hP.ensureAtoms n h).of_ok hd)
    · have htake : s.take (.atoms n :: rest) = s.goTo d := by
        rw [Session.take, hd]
      rw [htake]
      exact ⟨(hP.ensureAtoms n h).of_failure hd, rfl⟩
  | .clause clause :: rest, s, h => by
    show Meets ((do let _ ← Solver.addClause clause) >>= fun _ => rest.forM perform) _ _ _
    rw [meets_bind, meets_bind]
    refine meets_of_cases (fun outcome d hd => ?_) fun e d hd => ?_
    · have htake : s.take (.clause clause :: rest) = (s.accept clause outcome d).take rest := by
        rw [Session.take, hd]
      rw [htake]
      exact hP.take rest (s.accept clause outcome d) ((hP.clause clause s h).of_ok hd)
    · have htake : s.take (.clause clause :: rest) = s.goTo d := by
        rw [Session.take, hd]
      rw [htake]
      exact ⟨(hP.clause clause s h).of_failure hd, rfl⟩

theorem readAll (hP : Building P) (h : P s) (lines : List (Option (List Char))) :
    Meets (readAll lines) s.context
      (fun _ d => P (s.take (Dimacs.requests lines)) ∧ (s.take (Dimacs.requests lines)).context = d)
      (fun d => P (s.take (Dimacs.requests lines)) ∧ (s.take (Dimacs.requests lines)).context = d) := by
  rw [readAll_eq, meets_bind]
  refine (hP.take _ s h).mono (fun _ d hd => ?_) fun _ => id
  rw [meets_bind]
  cases (Dimacs.lineRequests 0 lines {}).2 with
  | error e => exact hd
  | ok p =>
    show Meets (pure p) d _ _
    rw [meets_pure, meets_ite]
    exact ⟨fun _ => hd, fun _ => hd⟩

end Building

theorem held_building (hz : settled 0) : Building (Held settled) :=
  ⟨fun _ h => h.freshAtom, fun clause _ h => h.addClause hz clause⟩

/-- **Reading leads to the context of the session that is told of it.** -/
theorem Held.context_readDimacs (h : Held settled s) (hz : settled 0) {lines : List (Option (List Char))}
    (ht : s.call (.readDimacs lines) = some t) : ∃ r, (readAll lines).ended s.context = some (r, t.context) := by
  unfold Session.call at ht
  obtain ⟨r, d, hr, rfl⟩ := after_eq_some ht
  refine ⟨r, ?_⟩
  rw [hr, (((held_building hz).readAll h lines).of_ended (P := fun _ d => Held _ _ ∧ _ = d) hr).2]

/-! ## Runs -/

/-- **A call that neither decides nor asserts keeps what holds of a session.** -/
theorem Held.kept (h : Held settled s) (hz : settled 0) {k : Call} (ht : s.call k = some t) (hd : ¬k.Decides)
    (ha : k ≠ .assertHere) : Held settled t := by
  unfold Session.call at ht
  cases k with
  | freshAtom => exact meets_after h.freshAtom ht
  | addClause clause => exact meets_after (h.addClause hz clause) ht
  | readDimacs lines =>
    exact meets_after (((held_building hz).readAll h lines).mono (fun _ _ => And.left) fun _ => And.left) ht
  | solve fuel => exact meets_after (h.solveGiven hz fuel []) ht
  | solveGiven fuel assumptions =>
    exact meets_after (h.solveGiven hz fuel assumptions) (Option.ite_none_right_eq_some.1 ht).2
  | simplify => exact meets_after (h.simplify hz) ht
  | reduce => exact meets_after h.reduce ht
  | undo l => exact meets_after (h.undo l) ht
  | assertHere => exact absurd rfl ha
  | decide l => exact absurd trivial hd
  | countModels => exact absurd trivial hd
  | findModel fuel => exact absurd trivial hd

/-- **Every call keeps what holds of a session**, but that it may leave a conflict at the level it ends at. -/
theorem Held.call (h : Held settled s) (hg : Gapless settled) {k : Call} (ht : s.call k = some t) :
    Held (t.context.clear settled) t := by
  have hcall := ht
  unfold Session.call at ht
  cases k with
  | decide l =>
    exact meets_after (P := fun t => Held (t.context.clear settled) t)
      ((meets_decide h.toResting hg).mono (fun _ _ hd => h.branch (hd.1.imp_left Halted.toIdle)) fun _ => False.elim) ht
  | assertHere =>
    dsimp only at ht
    split at ht
    · cases ht
    · rename_i ho
      refine meets_after (P := fun t => Held (t.context.clear settled) t)
        ((meets_assertHere (h.idle (by simpa using ho))).mono (fun _ d hd => ?_) fun d hd => ?_) ht
      · exact Held.of_idle hd
      · exact Held.of_idle hd.clear
  | countModels =>
    refine meets_after (P := fun t => Held (t.context.clear settled) t) ?_ ht
    unfold countModels
    rw [meets_bind, meets_get]
    exact (meets_countModelsFor hg _ _ h.toResting).mono (fun _ _ hd => h.branch (hd.imp_left Idle.clear))
      fun _ hd => h.branch (.inl hd.clear)
  | findModel fuel =>
    exact meets_after (P := fun t => Held (t.context.clear settled) t)
      ((meets_findModel hg fuel _ h.toResting).mono (fun _ _ hd => h.branch (hd.imp_left Halted.toIdle))
        fun _ hd => h.branch (.inl hd.clear)) ht
  | _ => exact (h.kept hg.zero hcall id nofun).clear

theorem Held.next (h : Held (· = 0) s) {k : Call} (ht : s.call k = some t) : Held (· = 0) t :=
  (h.call gapless_zero ht).weaken fun k _ hk => by
    subst hk
    exact clear_zero _ rfl

/-- **Every run keeps what holds of a session**, with level zero settled. -/
theorem Held.run : ∀ (calls : List Call) {s t : Session}, Held (· = 0) s → s.run calls = some t → Held (· = 0) t
  | [], _, _, h, ht => by
    cases ht
    exact h
  | k :: rest, s, t, h, ht => by
    obtain ⟨u, hu, ht⟩ := Option.bind_eq_some_iff.1 ht
    exact Held.run rest (h.next hu) ht

/-- There are fewer atoms than half the levels, so there are levels for about as many assumptions. -/
theorem Held.lt_levelLimit {n : Nat} (h : Held (· = 0) s) (hn : n + atomLimit < levelLimit) :
    n + s.context.atoms.count < levelLimit :=
  have ⟨_, _, hs, _⟩ := h.exists_sound
  Nat.lt_of_le_of_lt (Nat.add_le_add_left hs.shaped.bounded n) hn

theorem quiet_make (options : Options) (random : Chance) : Quiet [] settled (Context.make options random) := by
  have hbinary : ∀ a, (Context.make options random).watches.binaryOf a = #[] := fun a => by
    simp [Context.make, Watches.binaryOf]
  have hlong : ∀ a, (Context.make options random).watches.longOf a = #[] := fun a => by
    simp [Context.make, Watches.longOf]
  have hclauses : ∀ key, (Context.make options random).clauses.literals? key = none := fun key => by
    refine Option.eq_none_iff_forall_ne_some.2 fun ls hk => ?_
    obtain ⟨stored, hfind, -⟩ := ClauseStore.literals?_eq_some_iff.1 hk
    exact not_live_make options random _ (.long hfind)
  have hpartners : ∀ a b, ¬(Context.make options random).Partners a b := fun a b hp => by
    cases hp with
    | binary hb => simp [hbinary] at hb
    | first hk => simp [hclauses] at hk
    | second hk => simp [hclauses] at hk
  have hsettles : ∀ p q, (Context.make options random).Settles p q := fun p q a b hp => absurd hp (hpartners a b)
  have htrailed : Trailed [] (Context.make options random) :=
    ⟨Trail.layered_empty, .nil, fun l => by simp [Context.make, AtomTable.value], fun i l hi => by
      simp [Context.make] at hi⟩
  have hshaped : Shaped (Context.make options random) :=
    ⟨rfl, rfl, fun key ls hk => by simp [hclauses] at hk, fun a b hb => by simp [hbinary] at hb, fun a b => by
      simp [hbinary], Nat.zero_le _⟩
  have hdenotes : Denotes [] (Context.make options random) :=
    ⟨by simp, fun a b hb => by simp [hbinary] at hb, fun key ls hk => by simp [hclauses] at hk,
      by simp [Context.make], fun _ _ _ _ => by simp [Formula.Holds]⟩
  have hlisted : Listed (fun l => ((Context.make options random).watches.longOf l).toList)
      (Context.make options random).clauses.literals? := ⟨fun l key => by simp [hlong, hclauses], fun l => by simp [hlong]⟩
  exact ⟨⟨⟨htrailed, hshaped, ClauseStore.slotted_make _, hdenotes, AtomTable.stocked_make _, fun a r hr => by
      simp [Context.make] at hr, fun _ _ _ => hsettles _ _⟩,
    hlisted, rfl⟩, rfl, rfl, fun _ => hsettles _ _, .of_level_le htrailed (Nat.le_refl 0)⟩

theorem held_start (options : Options) (random : Chance) : Held settled (start options random) :=
  ⟨.of_quiet (quiet_make options random) nofun, fun _ => .of_none rfl⟩

end Session
end Cdcl
