import Cdcl.Proofs.Closure
import Cdcl.Proofs.Tolerance
/-!
# Undoing — a decision undone leaves nothing behind

A decision puts a level on top of those there are (`Decided.raised`), and whatever is done above it and taken back leaves
that level on top (`Raised.grown`).  Further decisions put further levels above, and what was there before the first of them
is still below (`Founded.raised`).  To undo a decision is to go back to the level below its own, where the trail, the levels,
and the value, level and reason of every atom are what they were (`answers_undo_founded`).  Clauses keep their literals,
though perhaps not their order, and watches stay where they were moved.

A search made of decisions goes from one context that it may explore (`Explorable`) to another, by decisions that it takes
back (`answers_decide_explored`, `answers_undo_returned`).
-/
namespace Cdcl
namespace Context

/-- The trail, its levels, and what every atom has are as they were. -/
structure Reverted (c d : Context) : Prop where
  trail : d.trail = c.trail
  count : d.atoms.count = c.atoms.count
  value : ∀ a, d.atoms.value a = c.atoms.value a
  level : ∀ a, d.atoms.level? a = c.atoms.level? a
  reason : ∀ a, d.atoms.reason a = c.atoms.reason a

/-- All is as it was.  Clauses may have their literals in another order. -/
structure Restored (c d : Context) : Prop extends Reverted c d where
  reordered : Reordered c d

/-- The levels stand, and implied literals may have come to the current one. -/
structure Grown (c d : Context) : Prop where
  root : d.trail.root = c.trail.root
  starts : d.trail.starts = c.trail.starts
  literals : c.trail.literals.toList <+: d.trail.literals.toList
  count : d.atoms.count = c.atoms.count
  levels : ∀ m ∈ c.trail.literals.toList, d.atoms.levelOrZero m.atom = c.atoms.levelOrZero m.atom
  reasons : ∀ m ∈ c.trail.literals.toList, d.atoms.reason m.atom = c.atoms.reason m.atom
  implied : ∀ m ∈ d.trail.literals.toList, m ∈ c.trail.literals.toList ∨ d.atoms.reason m.atom ≠ none ∨
    d.atoms.levelOrZero m.atom = 0

/-- A literal is the first of a level on top of those of a context. -/
structure Raised (c : Context) (l : Literal) (d : Context) : Prop where
  root : d.trail.root = c.trail.root
  starts : d.trail.starts = c.trail.starts.push c.trail.size
  literals : c.trail.literals.toList ++ [l] <+: d.trail.literals.toList
  count : d.atoms.count = c.atoms.count
  first : d.atoms.levelOrZero l.atom = c.trail.level + 1
  levels : ∀ m ∈ c.trail.literals.toList, d.atoms.levelOrZero m.atom = c.atoms.levelOrZero m.atom
  reasons : ∀ m ∈ c.trail.literals.toList, d.atoms.reason m.atom = c.atoms.reason m.atom

/-- A literal is the first of a level right above those of a context.  Other levels may be above it. -/
structure Founded (c : Context) (l : Literal) (d : Context) : Prop where
  root : d.trail.root = c.trail.root
  starts : c.trail.starts.toList ++ [c.trail.size] <+: d.trail.starts.toList
  literals : c.trail.literals.toList ++ [l] <+: d.trail.literals.toList
  count : d.atoms.count = c.atoms.count
  first : d.atoms.levelOrZero l.atom = c.trail.level + 1
  levels : ∀ m ∈ c.trail.literals.toList, d.atoms.levelOrZero m.atom = c.atoms.levelOrZero m.atom
  reasons : ∀ m ∈ c.trail.literals.toList, d.atoms.reason m.atom = c.atoms.reason m.atom

/-- A search made of decisions may set out from here: all is propagated, it is not known that there is no model, and nobody
who may object hears of values undone. -/
structure Explorable (f : Formula) (c : Context) : Prop extends Quiet f (fun _ => True) c where
  state : c.state ≠ .unsatisfiable
  heard : c.listeners.onUnassign ≠ .track

/-- A decision was made, and its level may be undone. -/
structure Branched (f : Formula) (c : Context) (l : Literal) (d : Context) : Prop extends Raised c l d where
  quiet : Quiet f (d.clear fun _ => True) d
  state : d.state ≠ .unsatisfiable
  heard : d.listeners.onUnassign ≠ .track

variable {f : Formula} {settled other : Nat → Prop} {c d e : Context} {l : Literal}

theorem Reverted.refl (c : Context) : Reverted c c := ⟨rfl, rfl, fun _ => rfl, fun _ => rfl, fun _ => rfl⟩

theorem Restored.refl (c : Context) : Restored c c := ⟨.refl c, .of_eq (fun _ => rfl) rfl⟩

theorem Restored.trans (h : Restored c d) (h' : Restored d e) : Restored c e where
  trail := h'.trail.trans h.trail
  count := h'.count.trans h.count
  value a := (h'.value a).trans (h.value a)
  level a := (h'.level a).trans (h.level a)
  reason a := (h'.reason a).trans (h.reason a)
  reordered := h.reordered.trans h'.reordered

theorem Reverted.levelOrZero (h : Reverted c d) (a : Nat) : d.atoms.levelOrZero a = c.atoms.levelOrZero a := by
  rw [AtomTable.levelOrZero_eq, AtomTable.levelOrZero_eq]
  exact congrArg (Option.getD · 0) (h.level a)

/-- **What an atom has is told by the trail**, and by the levels and reasons of what stands there. -/
theorem Reverted.of_trail (hc : Base f settled c) (hd : Base f other d)
    (trail : d.trail = c.trail) (count : d.atoms.count = c.atoms.count)
    (levels : ∀ m ∈ c.trail.literals.toList, d.atoms.levelOrZero m.atom = c.atoms.levelOrZero m.atom)
    (reasons : ∀ m ∈ c.trail.literals.toList, d.atoms.reason m.atom = c.atoms.reason m.atom) : Reverted c d := by
  have hvalue : ∀ a, d.atoms.value a = c.atoms.value a := fun a => by
    apply Option.ext
    intro b
    constructor
    · intro hv
      obtain ⟨m, hm, rfl, rfl⟩ := hd.exists_literal hv
      exact (hc.trailed.value m).2 (trail ▸ hm)
    · intro hv
      obtain ⟨m, hm, rfl, rfl⟩ := hc.exists_literal hv
      exact (hd.trailed.value m).2 (trail ▸ hm)
  refine ⟨trail, count, hvalue, fun a => ?_, fun a => ?_⟩
  · cases hv : c.atoms.value a with
    | none => rw [hc.leveled.level?_eq_none hv, hd.leveled.level?_eq_none ((hvalue a).trans hv)]
    | some b =>
      obtain ⟨m, hm, rfl, -⟩ := hc.exists_literal hv
      rw [hc.leveled.level?_eq hv, hd.leveled.level?_eq ((hvalue _).trans hv), levels m hm]
  · cases hv : c.atoms.value a with
    | none => rw [hc.leveled.reason_eq_none hv, hd.leveled.reason_eq_none ((hvalue a).trans hv)]
    | some b =>
      obtain ⟨m, hm, rfl, -⟩ := hc.exists_literal hv
      exact reasons m hm

theorem Reverted.grown (h : Reverted c d) : Grown c d where
  root := congrArg Trail.root h.trail
  starts := congrArg Trail.starts h.trail
  literals := h.trail ▸ List.prefix_refl _
  count := h.count
  levels _ _ := h.levelOrZero _
  reasons _ _ := h.reason _
  implied _ hm := .inl (h.trail ▸ hm)

theorem Extends.grown (h : Extends c d) : Grown c d :=
  ⟨root_eq_of_course h.course, h.starts, h.literals, h.count, h.level, h.reason, h.implied⟩

namespace Grown

theorem mem (h : Grown c d) {m : Literal} (hm : m ∈ c.trail.literals.toList) : m ∈ d.trail.literals.toList :=
  h.literals.subset hm

theorem trail_level (h : Grown c d) : d.trail.level = c.trail.level := congrArg Array.size h.starts

theorem size_le (h : Grown c d) : c.trail.size ≤ d.trail.size := h.literals.length_le

theorem trans (h : Grown c d) (h' : Grown d e) : Grown c e where
  root := h'.root.trans h.root
  starts := h'.starts.trans h.starts
  literals := h.literals.trans h'.literals
  count := h'.count.trans h.count
  levels m hm := (h'.levels m (h.mem hm)).trans (h.levels m hm)
  reasons m hm := (h'.reasons m (h.mem hm)).trans (h.reasons m hm)
  implied m hm := by
    rcases h'.implied m hm with hd | hr
    · rw [h'.reasons m hd, h'.levels m hd]
      exact h.implied m hd
    · exact .inr hr

theorem alike (h : Grown c d) (ha : Alike d e) (ht : e.trail = d.trail) : Grown c e where
  root := ht ▸ h.root
  starts := ht ▸ h.starts
  literals := ht ▸ h.literals
  count := ha.count.trans h.count
  levels m hm := (ha.levelOrZero _).trans (h.levels m hm)
  reasons m hm := (ha.reason _).trans (h.reasons m hm)
  implied m hm := by
    rw [ha.reason, ha.levelOrZero]
    exact h.implied m (ht ▸ hm)

end Grown

namespace Founded

theorem mem (h : Founded c l d) : l ∈ d.trail.literals.toList :=
  h.literals.subset (List.mem_append_right _ (List.mem_singleton_self l))

theorem mem_of_mem (h : Founded c l d) {m : Literal} (hm : m ∈ c.trail.literals.toList) : m ∈ d.trail.literals.toList :=
  h.literals.subset (List.mem_append_left _ hm)

theorem trail_level_lt (h : Founded c l d) : c.trail.level < d.trail.level := by
  have hle := h.starts.length_le
  rw [List.length_append, List.length_singleton, Array.length_toList, Array.length_toList] at hle
  exact hle

theorem size_lt (h : Founded c l d) : c.trail.size < d.trail.size := by
  have hle := h.literals.length_le
  rw [List.length_append, List.length_singleton, Array.length_toList, Array.length_toList] at hle
  exact hle

theorem starts_take (h : Founded c l d) : d.trail.starts.toList.take c.trail.level = c.trail.starts.toList := by
  obtain ⟨rest, hrest⟩ := h.starts
  rw [← hrest, List.append_assoc]
  exact List.take_left' (Array.length_toList ..)

theorem start (h : Founded c l d) : d.trail.start (c.trail.level + 1) = c.trail.size := by
  obtain ⟨rest, hrest⟩ := h.starts
  rw [Trail.start_succ, ← hrest]
  simp [Trail.level]

theorem upTo (h : Founded c l d) : d.trail.upTo c.trail.level = c.trail.literals.toList := by
  unfold Trail.upTo Trail.before
  rw [h.start]
  obtain ⟨rest, hrest⟩ := h.literals
  rw [← hrest, List.append_assoc]
  exact List.take_left' (Array.length_toList ..)

/-- **What is below a level stays there** when further literals and levels come above. -/
theorem extend (h : Founded c l d) (root : e.trail.root = d.trail.root)
    (starts : d.trail.starts.toList <+: e.trail.starts.toList)
    (literals : d.trail.literals.toList <+: e.trail.literals.toList) (count : e.atoms.count = d.atoms.count)
    (levels : ∀ m ∈ d.trail.literals.toList, e.atoms.levelOrZero m.atom = d.atoms.levelOrZero m.atom)
    (reasons : ∀ m ∈ d.trail.literals.toList, e.atoms.reason m.atom = d.atoms.reason m.atom) : Founded c l e where
  root := root.trans h.root
  starts := h.starts.trans starts
  literals := h.literals.trans literals
  count := count.trans h.count
  first := (levels l h.mem).trans h.first
  levels m hm := (levels m (h.mem_of_mem hm)).trans (h.levels m hm)
  reasons m hm := (reasons m (h.mem_of_mem hm)).trans (h.reasons m hm)

theorem grown (h : Founded c l d) (hg : Grown d e) : Founded c l e :=
  h.extend hg.root (hg.starts ▸ List.prefix_refl _) hg.literals hg.count hg.levels hg.reasons

/-- **A further level leaves those below where they were.** -/
theorem raised (h : Founded c l d) {m : Literal} (hr : Raised d m e) : Founded c l e :=
  h.extend hr.root (by rw [hr.starts, Array.toList_push]; exact List.prefix_append ..)
    ((List.prefix_append ..).trans hr.literals) hr.count hr.levels hr.reasons

end Founded

namespace Raised

theorem founded (h : Raised c l d) : Founded c l d :=
  ⟨h.root, by rw [h.starts, Array.toList_push], h.literals, h.count, h.first, h.levels, h.reasons⟩

theorem mem (h : Raised c l d) : l ∈ d.trail.literals.toList := h.founded.mem

theorem trail_level (h : Raised c l d) : d.trail.level = c.trail.level + 1 := by
  unfold Trail.level
  rw [h.starts, Array.size_push]

theorem size_lt (h : Raised c l d) : c.trail.size < d.trail.size := h.founded.size_lt

/-- **What comes to the level leaves it on top**, and so does what is done above and taken back. -/
theorem grown (h : Raised c l d) (hg : Grown d e) : Raised c l e :=
  have hf := h.founded.grown hg
  ⟨hf.root, hg.starts.trans h.starts, hf.literals, hf.count, hf.first, hf.levels, hf.reasons⟩

end Raised

theorem Resting.state_ne (h : Resting f settled c) (hl : 0 < c.trail.level) : c.state ≠ .unsatisfiable := fun hs => by
  rw [(h.barren hs).level] at hl
  exact Nat.lt_irrefl 0 hl

end Context

namespace Solver

open Run Context

variable {f : Formula} {settled other : Nat → Prop} {c d : Context} {l : Literal}

/-- What is propagated comes to the current level. -/
theorem Resumed.grown {answer : Bool} (h : Resumed f settled c answer d) : Grown c d := by
  obtain ⟨result, e, -, he, ha, htrail, -⟩ := h.replied
  exact he.extended.grown.alike ha htrail

/-- **A decision puts a level on top**, whether or not it ends in a conflict. -/
theorem Decided.raised {answer : Bool} (h : Decided f settled c l answer d) : Raised c l d := by
  obtain ⟨e, -, ho, hr⟩ := h
  have hopened : Raised c l e := ⟨congrArg Course.root ho.course, ho.starts, ho.literals ▸ List.prefix_refl _, ho.count,
    ho.first.trans ho.level, ho.levels, ho.reasons⟩
  exact hopened.grown hr.grown

/-- **A decision keeps the clauses**, but for the order of their literals. -/
theorem Decided.reordered {answer : Bool} (h : Decided f settled c l answer d) : Reordered c d := by
  obtain ⟨e, -, ho, hresumed⟩ := h
  obtain ⟨result, g, -, hg, ha, -⟩ := hresumed.replied
  have hopened : Reordered c e := .of_eq (fun a => congrArg (·.binaryOf a) ho.watches) ho.clauses
  exact (hopened.trans hg.reordered).trans ha.reordered

/-- **To undo a decision restores the context it was made in**, whatever was decided after it. -/
theorem answers_undo_founded (hc : Quiet f settled c) (hd : Quiet f other d) (hr : Founded c l d)
    (hheard : d.listeners.onUnassign ≠ .track) :
    Answers (undo l) d fun _ e => Reverted c e ∧ Reordered d e ∧ e.course = d.course := by
  have hlevel : d.atoms.level? l.atom = some (c.trail.level + 1) := by
    rw [hd.leveled.level?_eq ((hd.trailed.value l).2 hr.mem), hr.first]
  obtain ⟨r, hrecord, hrlevel⟩ := Option.bind_eq_some_iff.1 hlevel
  unfold undo
  rw [answers_bind, answers_record]
  refine ⟨r, hrecord, ?_⟩
  rw [hrlevel]
  dsimp only
  rw [answers_bind]
  obtain ⟨u, e, hrun, -⟩ : Answers (backjump c.trail.level) d fun _ _ => True :=
    answers_backjump hd.toBase hheard
  obtain ⟨he, -, hjump⟩ := (meets_backjump hd.toSound).of_ok hrun
  obtain ⟨hj, -⟩ := hjump hr.trail_level_lt
  refine ⟨u, e, hrun, answers_modify.2 ⟨?_, .of_eq (fun a => congrArg (·.binaryOf a) hj.watches)
    (congrArg ClauseStore.literals? hj.clauses), hj.course⟩⟩
  have hliterals : e.trail.literals = c.trail.literals := Array.toList_inj.1 (hj.literals.trans hr.upTo)
  have hstarts : e.trail.starts = c.trail.starts := Array.toList_inj.1 (hj.starts.trans hr.starts_take)
  have htrail : e.trail = c.trail := by
    refine Trail.ext hliterals hstarts ?_ ((root_eq_of_course hj.course).trans hr.root)
    rw [hj.head, hc.head]
    exact congrArg Array.size hliterals
  have hmem : ∀ m ∈ c.trail.literals.toList, m ∈ e.trail.literals.toList := fun m hm => by
    rwa [hliterals]
  have halike : Alike e { e with dirty := false } := .of_eq rfl rfl rfl rfl rfl
  exact .of_trail hc.toBase (halike.base he.toBase) htrail (hj.count.trans hr.count)
    (fun m hm => (hj.levels m (hmem m hm)).trans (hr.levels m hm))
    fun m hm => (hj.reasons m (hmem m hm)).trans (hr.reasons m hm)

/-- What a decision leaves to a search. -/
structure Explored (f : Formula) (c : Context) (l : Literal) (answer : Bool) (d : Context) : Prop extends
    Branched f c l d where
  waiting : Waiting f d
  reordered : Reordered c d
  spread : c.Spread l answer d
  explorable : answer = true → Explorable f d
  thwarted : answer = false → d.Thwarted

/-- **A decision may be undone, and explored further if it succeeds.**  If not, a clause waits for a level below. -/
theorem answers_decide_explored (h : Explorable f c) (hl : l.atom < c.atoms.count) (hv : c.atoms.value l.atom = none) :
    Answers (decide l) c (Explored f c l) := by
  have hdecided := answers_decide h.toQuiet ⟨trivial, fun _ _ => trivial⟩ h.state hl hv
  have hspread := (answers_decide_spread h.toQuiet h.state hl hv).meets (E := fun _ => True)
  refine ((hdecided.and hspread).and (within_decide (R := Kept) c).meets).mono fun answer d ⟨⟨hd, hs⟩, hkept⟩ => ?_
  have hraised := hd.raised
  have hlevel : 0 < d.trail.level := hraised.trail_level ▸ Nat.succ_pos _
  have hheard : d.listeners.onUnassign ≠ .track := hkept.onUnassign ▸ h.heard
  have hreordered := hd.reordered
  obtain ⟨_, _, _, hr⟩ := hd
  have hstate := hr.idle.toResting.state_ne hlevel
  exact ⟨⟨hraised, hr.idle.quiet hstate, hstate, hheard⟩, hr.idle.waiting, hreordered, hs, fun ha =>
    ⟨(hr.settles ha).quiet hstate, hstate, hheard⟩, hr.thwarted⟩

/-- A decision was undone, and the search may go on where it was made. -/
structure Returned (f : Formula) (c d e : Context) : Prop extends Reverted c e, Explorable f e where
  waiting : Waiting f d → Waiting f e
  pending : e.pending = d.pending
  reordered : Reordered d e

/-- **To undo a decision restores what was explored**, whatever was decided after it.  The clause that waits may wait on. -/
theorem answers_undo_explorable (hc : Explorable f c) (h : Founded c l d) (hq : Quiet f (d.clear fun _ => True) d)
    (hs : d.state ≠ .unsatisfiable) (hheard : d.listeners.onUnassign ≠ .track) :
    Answers (undo l) d fun _ e => Returned f c d e := by
  have hundone := answers_undo_founded hc.toQuiet hq h hheard
  refine ((hundone.and (meets_undo (.of_quiet hq hs))).and (within_undo (R := Kept) d).meets).mono
    fun _ e ⟨⟨⟨hr, hreordered, hcourse⟩, hd, hw, _⟩, hkept⟩ => ?_
  have hstate : e.state ≠ .unsatisfiable := state_eq_of_course hcourse ▸ hs
  have hlevel : e.trail.level < d.trail.level := by
    rw [hr.trail]
    exact h.trail_level_lt
  exact ⟨hr, ⟨(hd.below hlevel).quiet hstate, hstate, hkept.onUnassign ▸ hheard⟩, hw, pending_eq_of_course hcourse,
    hreordered⟩

theorem answers_undo_returned (hc : Explorable f c) (h : Branched f c l d) :
    Answers (undo l) d fun _ e => Returned f c d e :=
  answers_undo_explorable hc h.founded h.quiet h.state h.heard

end Solver
end Cdcl
