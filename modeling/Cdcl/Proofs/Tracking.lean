import Cdcl.Proofs.Calls
import Cdcl.Proofs.Soundness
import Cdcl.Subsumption.Counts
/-!
# Tracking — a tracker of subsumed clauses counts what is true

A tracker hears of every literal that comes to the trail and of every literal that leaves it, and of nothing else, so at every
step of every program it accords with the trail (`Tracks`): a literal that is assigned is pushed and told of, and on the way
back the literals are told of in the order in which the trail loses them.  That depends on nothing that is known of the
context, and holds where a program is interrupted as well: what leaves the trail has been told of when it came, so no count is
taken below zero on the way back (`answers_tellAndCut_tracking`).

Between calls the trail has each true literal once, so the tracker tells what looking at the values would tell
(`Session.tracker_accords`).
-/
namespace Cdcl

namespace Run

variable {σ α : Type}

/-- Where a program ends, with an answer or without. -/
def Reaches (m : Run σ α) (s t : σ) : Prop := (∃ a, m s = .ok a t) ∨ ∃ e, m s = .error e t

end Run

namespace Listeners

variable {s t : Listeners} {l : Literal}

/-- Whoever is told of assignments, made and undone, is a tracker that accords with a list of literals. -/
structure Tracking (clauses : List Clause) (literals : List Literal) (s : Listeners) : Prop where
  onAssign : s.onAssign = .track
  onUnassign : s.onUnassign = .track
  accords : s.tracker.Accords clauses literals

variable {clauses : List Clause} {literals : List Literal}

theorem assigned_of_track (h : s.onAssign = .track) : s.assigned l = { s with tracker := s.tracker.assigned l } := by
  simp only [Listeners.assigned, h]

theorem unassigned?_of_track (h : s.onUnassign = .track) :
    s.unassigned? l = (s.tracker.unassigned? l).map ({ s with tracker := · }) := by
  simp only [unassigned?, h]

theorem Tracking.assigned (h : s.Tracking clauses literals) (l : Literal) :
    (s.assigned l).Tracking clauses (literals ++ [l]) := by
  rw [assigned_of_track h.onAssign]
  exact ⟨h.onAssign, h.onUnassign, h.accords.assigned l⟩

theorem Tracking.unassigned (h : s.Tracking clauses (literals ++ [l])) :
    ∃ t, s.unassigned? l = some t ∧ t.Tracking clauses literals := by
  obtain ⟨tracker, htracker, haccords⟩ := h.accords.unassigned
  rw [unassigned?_of_track h.onUnassign, htracker]
  exact ⟨{ s with tracker }, rfl, h.onAssign, h.onUnassign, haccords⟩

theorem Tracking.learnt (h : s.Tracking clauses literals) (clause : Clause) :
    (s.learnt clause).Tracking clauses literals := by
  unfold Listeners.learnt
  split
  · exact ⟨h.onAssign, h.onUnassign, h.accords⟩
  · exact h

theorem Tracking.ask (h : s.Tracking clauses literals) : s.ask.2.Tracking clauses literals := by
  unfold Listeners.ask
  split
  · exact h
  · exact ⟨h.onAssign, h.onUnassign, h.accords⟩

end Listeners

namespace Context

/-- Whoever is told of assignments, made and undone, is a tracker that accords with the trail. -/
def Tracking (clauses : List Clause) (c : Context) : Prop := c.listeners.Tracking clauses c.trail.literals.toList

/-- A tracker that accords with the trail still does, for the same clauses. -/
def Tracks (c d : Context) : Prop := ∀ clauses, c.Tracking clauses → d.Tracking clauses

theorem Tracks.of_eq {c d : Context} (hliterals : d.trail.literals = c.trail.literals)
    (hlisteners : d.listeners = c.listeners) : Tracks c d := fun clauses h => by
  unfold Tracking at h ⊢
  rwa [hliterals, hlisteners]

end Context

namespace Solver

open Run Context

variable {clauses : List Clause} {c d : Context} {l : Literal} {deferred : Bool} {target : Nat}

/-! ## The way back -/

theorem answers_tellUnassigned_tracking {literals : List Literal} (h : c.listeners.Tracking clauses (literals ++ [l])) :
    Answers (tellUnassigned l) c fun _ d => d.trail = c.trail ∧ d.listeners.Tracking clauses literals := by
  obtain ⟨listeners, hl, htracking⟩ := h.unassigned
  exact ⟨(), { c with listeners }, by simp only [tellUnassigned, hl], rfl, htracking⟩

/-- **A tracker that accords with the trail can be told of every literal that leaves it.** -/
theorem answers_tellAndCut_tracking (target : Nat) (h : c.Tracking clauses) : Answers (do
    (c.trail.above (c.trail.start (target + 1))).forM tellUnassigned
    modify fun c => { c with trail := c.trail.cut target }) c fun _ d => d.Tracking clauses := by
  rw [answers_bind]
  have hsplit := c.trail.cut_append_above target
  -- what has been told of so far is gone from the end of the trail as it was
  refine (answers_forM (I := fun rest d => d.trail = c.trail ∧
    d.listeners.Tracking clauses ((c.trail.cut target).literals.toList ++ rest.reverse)) (fun l rest d ⟨ht, hd⟩ => ?_) _ c
    ⟨rfl, hsplit.symm ▸ h⟩).mono fun _ d ⟨ht, hd⟩ => answers_modify.2 ?_
  · unfold Context.Tracking
    rw [ht]
    simpa using hd
  · rw [List.reverse_cons, ← List.append_assoc] at hd
    exact (answers_tellUnassigned_tracking hd).mono fun _ e he => ⟨he.1.trans ht, he.2⟩

instance : Chained Tracks where
  halted := Tracks
  refl _ _ h := h
  trans h h' clauses hc := h' clauses (h clauses hc)
  halts _ _ h := h
  halts_after h h' clauses hc := h' clauses (h clauses hc)

theorem tracks_onAtoms {α : Type} {m : Run AtomTable α} : Within Tracks (onAtoms m) := fun c => by
  refine ⟨meets_onAtoms.2 (meets_of_cases (fun _ _ _ => .of_eq rfl rfl) fun _ _ _ => .of_eq rfl rfl), fun i d hd => ?_⟩
  obtain ⟨t, -, rfl⟩ := onAtoms_eq_error hd
  exact .of_eq rfl rfl

/-- **On the way back the tracker stays in accord**: before it is told of anything nothing has left the trail, and what is
told of can be. -/
theorem tracks_backjump (target : Nat) : Within Tracks (backjump target) := fun c => by
  unfold backjump unassign
  refine leads_get (leads_ite (fun _ => ?_) fun _ => within_pure c)
  refine leads_bind (within_require c) fun _ d hd _ => ?_
  obtain ⟨-, rfl⟩ := require_eq_ok_iff.1 hd
  rw [bind_assoc]
  refine leads_bind (tracks_onAtoms d) fun _ e he hde => ?_
  obtain ⟨t, -, rfl⟩ := onAtoms_eq_ok_iff.1 he
  have hanswers := fun clauses (hc : d.Tracking clauses) => answers_tellAndCut_tracking target (hde clauses hc)
  refine ⟨meets_of_cases (fun _ g hg clauses hc => ?_) fun f g hg clauses hc => ?_, fun i g hg clauses hc => ?_⟩ <;>
  obtain ⟨u, k, hk, htracking⟩ := hanswers clauses hc <;> cases hk.symm.trans hg
  exact htracking

instance : Stepped Tracks where
  unseen h := .of_eq h.literals h.listeners
  aside := .of_eq
  assigned c l _ clauses h := by
    unfold Tracking at h ⊢
    rw [Trail.literals_push]
    exact h.assigned l
  opened _ := .of_eq rfl rfl
  unit _ _ := .of_eq rfl rfl
  back := tracks_backjump

/-- **Every program keeps a tracker in accord with the trail**, wherever it ends. -/
instance : Lasting Tracks where
  beside h := .of_eq h.literals h.listeners
  asked _ _ h := h.ask
  learns clause _ := within_tellAndLearn fun _ _ h => h.learnt clause
  told _ clause _ h := h.learnt clause
  cleared _ := .of_eq rfl rfl

theorem tracking_of_reaches {k : Call} (h : c.Tracking clauses) (hd : k.program.Reaches c d) : d.Tracking clauses := by
  have hk : Leads Tracks c k.program c := within_program (fun _ _ => .of_eq rfl rfl) k c
  rcases hd with ⟨a, hd⟩ | ⟨e, hd⟩
  · exact hk.meets.of_ok hd clauses h
  · exact hk.halts e d hd clauses h

end Solver

namespace Session

open Run Context Solver

variable {s t : Session} {clauses : List Clause}

/-- A fresh tracker is attached. -/
def attachTracker (s : Session) : Session :=
  s.goTo { s.context with listeners := s.context.listeners.attachTracker }

/-- A clause is registered with the tracker, with the values there are. -/
def register (s : Session) (clause : Clause) : Session :=
  s.goTo { s.context with listeners := { s.context.listeners with
    tracker := (s.context.listeners.tracker.register clause s.context.atoms.value).2 } }

/-- A session with a tracker and the clauses registered with it.  The other listeners and the options may change between the
calls. -/
inductive Tracked : Session → List Clause → Prop
  | attach {s : Session} (h : s.Followed) : Tracked s.attachTracker []
  | register {s : Session} {clauses : List Clause} (h : Tracked s clauses) (clause : Clause) :
    Tracked (s.register clause) (clauses ++ [clause])
  | equip {s : Session} {clauses : List Clause} (h : Tracked s clauses) (options : Options) (onLearnt : Bool)
    (stop : Option StopRule) :
    Tracked (s.goTo { s.context with options, listeners := { s.context.listeners with onLearnt, stop } }) clauses
  | call {s t : Session} {clauses : List Clause} {k : Call} (h : Tracked s clauses) (ht : s.call k = some t) :
    Tracked t clauses
  | assert {s t : Session} {clauses : List Clause} (h : Tracked s clauses) (hfree : s.context.Assertable)
    (ht : s.after Solver.assertHere (fun _ => s.forget) = some t) : Tracked t clauses

theorem Tracked.followed (h : s.Tracked clauses) : s.Followed := by
  induction h with
  | attach h => exact h.equip _ _
  | register _ _ ih => exact ih.equip _ _
  | equip _ options _ _ ih => exact ih.equip options _
  | call _ ht ih => exact ih.call ht
  | assert _ hfree ht ih => exact ih.assert hfree ht

theorem Tracked.run : ∀ (calls : List Call) {s t : Session}, s.Tracked clauses → s.run calls = some t → t.Tracked clauses
  | [], _, _, h, ht => by
    cases ht
    exact h
  | _ :: rest, _, _, h, ht => by
    obtain ⟨u, hu, ht⟩ := Option.bind_eq_some_iff.1 ht
    exact Tracked.run rest (h.call hu) ht

/-- **Between calls the trail has each true literal once.** -/
theorem Followed.valued (h : s.Followed) : s.context.trail.literals.toList.Nodup ∧
    ∀ l : Literal, s.context.atoms.value l.atom = some l.positive ↔ l ∈ s.context.trail.literals.toList :=
  have ⟨_, _, hs, _⟩ := h.held.toResting.exists_sound
  ⟨hs.trailed.nodup, hs.trailed.value⟩

theorem Tracked.tracking (h : s.Tracked clauses) : s.context.Tracking clauses := by
  induction h with
  | attach h => exact ⟨rfl, rfl, SubsumptionTracker.accords_nil _⟩
  | register h clause ih =>
    obtain ⟨hnodup, hvalue⟩ := h.followed.valued
    exact ⟨ih.onAssign, ih.onUnassign, ih.accords.register hnodup hvalue clause⟩
  | equip _ _ _ _ ih => exact ⟨ih.onAssign, ih.onUnassign, ih.accords⟩
  | @call s t clauses k _ ht ih =>
    exact meets_call (within_program (R := Tracks) (fun _ _ => .of_eq rfl rfl) k s.context).meets ht clauses ih
  | @assert s t clauses _ _ ht ih =>
    exact meets_after (P := fun t => Tracks s.context t.context) (within_assertHere (R := Tracks) s.context).meets ht clauses ih

/-- **A tracker tells what looking at the values would tell.**  Between calls the count of each registered clause is the number
of its literals that are true, with repetition, and the clauses told of are those with a true literal.  Whatever a call ends
with, whoever hears of assignments is still the tracker, in accord with the trail: so no count was taken below zero. -/
theorem tracker_accords (h : s.Tracked clauses) :
    s.context.listeners.tracker.trueCounts.toList = clauses.map (·.countP s.context.atoms.isTrue) ∧
    s.context.listeners.tracker.subsumedClauses =
      (List.range clauses.length).filter (fun i => (clauses[i]?).any (·.any s.context.atoms.isTrue)) ∧
    s.context.listeners.tracker.subsumed = s.context.listeners.tracker.subsumedClauses.length ∧
    ∀ (k : Call) (d : Context), k.program.Reaches s.context d → d.Tracking clauses := by
  obtain ⟨hnodup, hvalue⟩ := h.followed.valued
  have htracking := h.tracking
  have htrue : ∀ l : Literal, decide (l ∈ s.context.trail.literals.toList) = s.context.atoms.isTrue l := fun l => by
    rw [Bool.eq_iff_iff, decide_eq_true_iff, AtomTable.isTrue_iff, hvalue]
  refine ⟨?_, ?_, htracking.accords.subsumed_eq, fun k d hd => tracking_of_reaches htracking hd⟩
  · rw [htracking.accords.trueCounts]
    apply List.map_congr_left
    intro clause _
    rw [Clause.heldBy_eq_countP hnodup]
    simp only [htrue]
  · rw [htracking.accords.subsumedClauses_eq]
    simp only [htrue]

/-- With two clauses that leave the first atom no choice: the decision against it is undone, and what was learnt is asserted.  A
clause that has the asserted literal twice counts it twice, and one that has its negation counts nothing. -/
theorem tracker_accords_asserted : ∃ s : Session, s.Tracked [[x₀, x₁, x₀], [x₀.negate, x₁]] ∧
    s.context.trail.literals.toList = [x₀] ∧ s.context.listeners.tracker.trueCounts.toList = [2, 0] ∧
    (s.context.listeners.tracker.trueCounts.toList =
        [[x₀, x₁, x₀], [x₀.negate, x₁]].map (fun clause => clause.countP s.context.atoms.isTrue) ∧
      s.context.listeners.tracker.subsumedClauses = (List.range 2).filter (fun i =>
        (([[x₀, x₁, x₀], [x₀.negate, x₁]] : List Clause)[i]?).any (·.any s.context.atoms.isTrue)) ∧
      s.context.listeners.tracker.subsumed = s.context.listeners.tracker.subsumedClauses.length ∧
      ∀ (k : Call) (d : Context), k.program.Reaches s.context d → d.Tracking [[x₀, x₁, x₀], [x₀.negate, x₁]]) := by
  have h : ((start {} .default).run [.freshAtom, .freshAtom]).bind (fun s =>
      (((s.attachTracker.register [x₀, x₁, x₀]).register [x₀.negate, x₁]).run [.addClause [x₀, x₁],
        .addClause [x₀, x₁.negate], .decide x₀.negate, .undo x₀.negate, .assertHere]).map fun s =>
          (s.context.trail.literals.toList, s.context.listeners.tracker.trueCounts.toList)) = some ([x₀], [2, 0]) := by
    simp only [Session.run, Session.call, Session.after, Solver.addClause, normal_or, normal_or_negate]
    decide +kernel
  obtain ⟨r, hr, h⟩ := Option.bind_eq_some_iff.1 h
  obtain ⟨s, hs, hview⟩ := Option.map_eq_some_iff.1 h
  obtain ⟨htrail, hcounts⟩ := Prod.mk.inj hview
  have hregistered : ((r.attachTracker.register [x₀, x₁, x₀]).register [x₀.negate, x₁]).Tracked
      [[x₀, x₁, x₀], [x₀.negate, x₁]] :=
    .register (.register (.attach (Followed.run _ (.start {} .default) hr)) [x₀, x₁, x₀]) [x₀.negate, x₁]
  have htracked := Tracked.run _ hregistered hs
  exact ⟨s, htracked, htrail, hcounts, tracker_accords htracked⟩

end Session
end Cdcl
