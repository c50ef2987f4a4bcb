import Cdcl.Proofs.Minimization
import Cdcl.Proofs.Propagation
import Cdcl.Solver.Analysis
/-!
# Analysis — the clause learnt from a conflict

While the trail is walked back, the clause in the making follows from the formula and is false, and exactly its atoms
are marked (`Drafting`).  Resolution stops at the one literal of the current level that is left, and minimization leaves
out what the others make false.  So the learnt clause follows from the formula, its first literal is the only one whose
negation has the current level, and it asserts at the greatest level of the others, which the second one has
(`Learnable`).

The analysis always answers: a conflict has a literal of the current level, so there is one to stop at, and while two are
left the later one has a reason.  It changes marks and activities alone, and leaves no mark.

An analysis is told of in its parts as well: how the trail is walked back (`Retraced`), the clause that resolution finds
(`resolvent`), and what minimization leaves of it (`minimized`, `Taught`).
-/
namespace Cdcl
namespace Context

open Solver (marked Draft)

variable {f : Formula} {settled : Nat → Prop} {c d e : Context} {index : Nat} {top lower : Clause} {l m p : Literal}

theorem Working.bump (h : Working c d) (a : Nat) : Working c { d with atoms := d.atoms.bump a } where
  toAlike := h.toAlike.trans {
    literals := rfl
    starts := rfl
    layered := id
    records := AtomTable.records_bump ..
    stocked := fun hs => AtomTable.stocked_bump hs a
    clauses := .refl _
    watches := rfl
    units := rfl }
  course := h.course
  head := h.head
  marksSize := h.marksSize

theorem Working.bumpClause (h : Working c d) (key : ClauseKey) :
    Working c { d with clauses := d.clauses.bump key } where
  toAlike := h.toAlike.trans {
    literals := rfl
    starts := rfl
    layered := id
    records := rfl
    stocked := id
    clauses := ClauseStore.alike_bump ..
    watches := rfl
    units := rfl }
  course := h.course
  head := h.head
  marksSize := h.marksSize

/-- A draft that stands at an index of the trail.  Of its clause, `top` are the literals of the current level and the
draft has the others; all are false, and exactly their atoms are marked. -/
structure Drafting (c : Context) (index : Nat) (top : Clause) (draft : Draft) (d : Context) : Prop where
  working : Working c d
  waiting : draft.waiting = top.length
  marks : Marks d fun a => a ∈ (top ++ draft.lower.toList).map Literal.atom
  nodup : ((top ++ draft.lower.toList).map Literal.atom).Nodup
  top : ∀ l ∈ top, l.negate ∈ c.trail.before index ∧ c.atoms.levelOrZero l.atom = c.trail.level
  lower : ∀ l ∈ draft.lower.toList, l.negate ∈ c.trail.literals.toList ∧ 0 < c.atoms.levelOrZero l.atom ∧
    c.atoms.levelOrZero l.atom < c.trail.level

namespace Drafting

variable {draft : Solver.Draft}

theorem start (h : c.marks = Array.replicate c.atoms.count false) : Drafting c c.trail.size [] {} c where
  working := .refl h
  waiting := rfl
  marks := (marks_of_clean h).congr fun a => by simp
  nodup := .nil
  top := by simp
  lower := by simp

theorem of_marks (h : Drafting c index top draft d) (hw : Working c e) (hm : e.marks = d.marks) :
    Drafting c index top draft e where
  working := hw
  waiting := h.waiting
  marks a := by
    rw [← h.marks a]
    unfold Solver.marked
    rw [hm]
  nodup := h.nodup
  top := h.top
  lower := h.lower

theorem negate_mem (h : Drafting c index top draft d) (hl : l ∈ top ++ draft.lower.toList) :
    l.negate ∈ c.trail.literals.toList := by
  rcases List.mem_append.1 hl with hl | hl
  · exact Trail.before_sublist (h.top l hl).1
  · exact (h.lower l hl).1

theorem mem_of_marked (h : Drafting c index top draft d) (ht : Trailed f c) (hm : Solver.marked d l.atom = true)
    (hl : l.negate ∈ c.trail.literals.toList) : l ∈ top ++ draft.lower.toList := by
  obtain ⟨m, hmem, hma⟩ := List.mem_map.1 ((h.marks _).1 hm)
  have he := ht.eq_of_atom (h.negate_mem hmem) hl (by rw [Literal.atom_negate, Literal.atom_negate, hma])
  rwa [← Literal.negate_negate l, ← he, Literal.negate_negate]

theorem not_mem_of_unmarked (h : Drafting c index top draft d) (hm : Solver.marked d l.atom = false) :
    l.atom ∉ (top ++ draft.lower.toList).map Literal.atom := fun hmem => by
  have := (h.marks l.atom).2 hmem
  rw [hm] at this
  cases this

theorem addTop (h : Drafting c index top draft d) (hm : Solver.marked d l.atom = false) (hl : l.atom < c.atoms.count)
    (hn : l.negate ∈ c.trail.before index) (hlevel : c.atoms.levelOrZero l.atom = c.trail.level) :
    Drafting c index (l :: top) { draft with waiting := draft.waiting + 1 } (d.withMark l.atom true) where
  working := h.working.withMark ..
  waiting := congrArg (· + 1) h.waiting
  marks := (h.marks.mark (h.working.marksSize ▸ hl)).congr fun a => by simp
  nodup := List.nodup_cons.2 ⟨h.not_mem_of_unmarked hm, h.nodup⟩
  top := List.forall_mem_cons.2 ⟨⟨hn, hlevel⟩, h.top⟩
  lower := h.lower

theorem addLower (h : Drafting c index top draft d) (hm : Solver.marked d l.atom = false) (hl : l.atom < c.atoms.count)
    (hn : l.negate ∈ c.trail.literals.toList) (hpos : 0 < c.atoms.levelOrZero l.atom)
    (hlevel : c.atoms.levelOrZero l.atom < c.trail.level) :
    Drafting c index top { draft with lower := draft.lower.push l } (d.withMark l.atom true) := by
  have hperm : (top ++ (draft.lower.push l).toList).Perm (l :: (top ++ draft.lower.toList)) := by
    rw [Array.toList_push, ← List.append_assoc]
    exact List.perm_append_singleton ..
  refine ⟨h.working.withMark .., h.waiting, (h.marks.mark (h.working.marksSize ▸ hl)).congr fun a => ?_, ?_, h.top,
    fun m hmem => ?_⟩
  · rw [(hperm.map _).mem_iff, List.map_cons, List.mem_cons]
  · exact (hperm.map _).nodup_iff.2 (List.nodup_cons.2 ⟨h.not_mem_of_unmarked hm, h.nodup⟩)
  · rw [Array.toList_push, List.mem_append, List.mem_singleton] at hmem
    rcases hmem with hmem | rfl
    · exact h.lower m hmem
    · exact ⟨hn, hpos, hlevel⟩

theorem mem_top (h : Drafting c (index + 1) top draft d) (ht : Trailed f c) (hp : c.trail.literals[index]? = some p)
    (hm : Solver.marked d p.atom = true) (hne : top ≠ []) : p.negate ∈ top := by
  have hpt := Trail.mem_of_getElem? hp
  have hmem : p.negate ∈ top ++ draft.lower.toList :=
    h.mem_of_marked ht (by rwa [Literal.atom_negate]) (by rwa [Literal.negate_negate])
  refine (List.mem_append.1 hmem).resolve_right fun hl => ?_
  -- a literal of the current level stands no later, so `p` stands in the current level
  obtain ⟨q, hq⟩ := List.exists_mem_of_ne_nil top hne
  obtain ⟨hqn, hqlevel⟩ := h.top q hq
  obtain ⟨j, hj, hjq⟩ := Trail.mem_before.1 hqn
  have hlow := h.lower _ hl
  have hle := ht.level_le hjq
  have hmono := Trail.levelAt_mono (t := c.trail) (Nat.le_of_lt_succ hj)
  have heq := ht.level_eq hp
  rw [Literal.atom_negate] at hlow hle
  omega

/-- A literal of the trail whose atom is not marked is passed by. -/
theorem pass (h : Drafting c (index + 1) top draft d) (hp : c.trail.literals[index]? = some p)
    (hm : Solver.marked d p.atom = false) : Drafting c index top draft d := by
  refine ⟨h.working, h.waiting, h.marks, h.nodup, fun l hl => ⟨?_, (h.top l hl).2⟩, h.lower⟩
  refine (Trail.eq_or_mem_before hp (h.top l hl).1).resolve_left fun e => ?_
  refine h.not_mem_of_unmarked hm ?_
  rw [← e, Literal.atom_negate]
  exact List.mem_map_of_mem (List.mem_append_left _ hl)

theorem mem_top_of_level (h : Drafting c index top draft d) (hl : l ∈ top ++ draft.lower.toList)
    (hlevel : c.atoms.levelOrZero l.atom = c.trail.level) : l ∈ top := by
  refine (List.mem_append.1 hl).resolve_right fun hmem => ?_
  have := (h.lower l hmem).2.2
  omega

theorem resolveAway {left : Clause} (h : Drafting c (index + 1) top draft d)
    (hp : c.trail.literals[index]? = some p) (hperm : top.Perm (p.negate :: left)) :
    Drafting c index left { draft with waiting := left.length } (d.withMark p.atom false) := by
  have hclause : (top ++ draft.lower.toList).Perm (p.negate :: (left ++ draft.lower.toList)) := hperm.append_right _
  have hnodup := (hclause.map Literal.atom).nodup_iff.1 h.nodup
  rw [List.map_cons, List.nodup_cons, Literal.atom_negate] at hnodup
  have hsub : ∀ l ∈ left, l ∈ top := fun l hl => hperm.mem_iff.2 (List.mem_cons_of_mem _ hl)
  refine ⟨h.working.withMark .., rfl, (h.marks.unmark p.atom).congr fun a => ?_, hnodup.2,
    fun l hl => ⟨?_, (h.top l (hsub l hl)).2⟩, h.lower⟩
  · rw [(hclause.map Literal.atom).mem_iff, List.map_cons, List.mem_cons, Literal.atom_negate]
    exact ⟨fun ⟨hne, ha⟩ => ha.resolve_left hne, fun ha => ⟨fun he => hnodup.1 (he ▸ ha), .inr ha⟩⟩
  · refine (Trail.eq_or_mem_before hp (h.top l (hsub l hl)).1).resolve_left fun e => ?_
    refine hnodup.1 (List.mem_map.2 ⟨l, List.mem_append_left _ hl, ?_⟩)
    rw [← e, Literal.atom_negate]

/-- A marked literal of the trail is one of those left, of the current level, and can be taken out of them. -/
theorem exists_left (h : Drafting c (index + 1) top draft d) (ht : Trailed f c) (hp : c.trail.literals[index]? = some p)
    (hm : Solver.marked d p.atom = true) (hne : top ≠ []) : ∃ left : Clause, top.Perm (p.negate :: left) ∧
      p.negate ∉ left ∧ c.atoms.levelOrZero p.atom = c.trail.level ∧ draft.waiting = left.length + 1 ∧
      Drafting c index left { draft with waiting := left.length } (d.withMark p.atom false) := by
  have hmem := h.mem_top ht hp hm hne
  have hperm := List.perm_cons_erase hmem
  refine ⟨top.erase p.negate, hperm, ?_, ?_, h.waiting.trans hperm.length_eq, h.resolveAway hp hperm⟩
  · exact (List.nodup_cons.1 (hperm.nodup_iff.1 (h.nodup.of_map _).of_append_left)).1
  · rw [← Literal.atom_negate]
    exact (h.top _ hmem).2

end Drafting

/-- A clause was taken into a draft: what was there is there still, and all of the clause but for literals of level zero and
the one resolved away. -/
structure Absorbed (c : Context) (index : Nat) (resolved : Option Nat) (clause top : Clause) (draft : Draft)
    (more : Clause) (next : Draft) (e : Context) : Prop where
  drafting : Drafting c index more next e
  old : ∀ m ∈ top ++ draft.lower.toList, m ∈ more ++ next.lower.toList
  new : ∀ m ∈ clause, resolved = some m.atom ∨ c.atoms.levelOrZero m.atom = 0 ∨ m ∈ more ++ next.lower.toList
  source : ∀ m ∈ more, m ∈ top ∨ m ∈ clause ∧ resolved ≠ some m.atom

namespace Absorbed

variable {resolved : Option Nat} {clause rest more : Clause} {draft next : Solver.Draft}

theorem nil (h : Drafting c index top draft d) : Absorbed c index resolved [] top draft top draft d :=
  ⟨h, fun _ => id, by simp, fun _ => .inl⟩

/-- A literal that is resolved away, has level zero or is there already is passed by. -/
theorem pass (h : Absorbed c index resolved rest top draft more next e)
    (hl : resolved = some l.atom ∨ c.atoms.levelOrZero l.atom = 0 ∨ l ∈ more ++ next.lower.toList) :
    Absorbed c index resolved (l :: rest) top draft more next e where
  drafting := h.drafting
  old := h.old
  new := List.forall_mem_cons.2 ⟨hl, h.new⟩
  source m hm := (h.source m hm).imp_right (And.imp_left (List.mem_cons_of_mem _))

theorem addLower (h : Absorbed c index resolved rest top { draft with lower := draft.lower.push l } more next e) :
    Absorbed c index resolved (l :: rest) top draft more next e where
  drafting := h.drafting
  old m hm := by
    refine h.old m ?_
    rw [Array.toList_push, ← List.append_assoc]
    exact List.mem_append_left _ hm
  new := List.forall_mem_cons.2 ⟨.inr (.inr (h.old l (by simp))), h.new⟩
  source m hm := (h.source m hm).imp_right (And.imp_left (List.mem_cons_of_mem _))

theorem addTop (h : Absorbed c index resolved rest (l :: top) { draft with waiting := draft.waiting + 1 } more next e)
    (hr : resolved ≠ some l.atom) : Absorbed c index resolved (l :: rest) top draft more next e where
  drafting := h.drafting
  old m hm := h.old m (List.mem_cons_of_mem _ hm)
  new := List.forall_mem_cons.2 ⟨.inr (.inr (h.old l List.mem_cons_self)), h.new⟩
  source m hm := by
    rcases h.source m hm with hm | hm
    · rcases List.mem_cons.1 hm with rfl | hm
      · exact .inr ⟨List.mem_cons_self, hr⟩
      · exact .inl hm
    · exact .inr (hm.imp_left (List.mem_cons_of_mem _))

/-- **The literals of the current level are those that were there, and those of the clause** but for the one resolved
away. -/
theorem mem_iff (h : Absorbed c index resolved clause top draft more next e) (hd : Drafting c index top draft d)
    (hpos : 0 < c.trail.level) : m ∈ more ↔
      m ∈ top ∨ (m ∈ clause ∧ resolved ≠ some m.atom) ∧ c.atoms.levelOrZero m.atom = c.trail.level := by
  constructor
  · intro hm
    exact (h.source m hm).imp_right fun hnew => ⟨hnew, (h.drafting.top m hm).2⟩
  · rintro (hm | ⟨⟨hm, hne⟩, hlevel⟩)
    · exact h.drafting.mem_top_of_level (h.old m (List.mem_append_left _ hm)) (hd.top m hm).2
    · rcases h.new m hm with hr | hz | hin
      · exact absurd hr hne
      · omega
      · exact h.drafting.mem_top_of_level hin hlevel

end Absorbed
end Context

namespace Solver

open Run Context

variable {f : Formula} {sets : Nat → Prop} {c d : Context} {index : Nat} {top : Clause} {draft : Solver.Draft}
  {key : ClauseKey}

/-- **Taking a false clause into a draft** keeps what the draft has, and takes all of the clause but for literals of level
zero and the one resolved away. -/
theorem answers_absorb (hb : Base f sets c) {resolved : Option Nat} : ∀ (clause : Clause) (top : Clause) (draft : Draft)
    (d : Context), Drafting c index top draft d →
    (∀ m ∈ clause, resolved ≠ some m.atom → m.negate ∈ c.trail.before index) →
    Answers (absorb c.trail.level resolved clause draft) d
      fun next e => ∃ more, Absorbed c index resolved clause top draft more next e
  | [], top, draft, d, h, _ => answers_pure.2 ⟨top, .nil h⟩
  | l :: rest, top, draft, d, h, hfalse => by
    have hrest : ∀ m ∈ rest, resolved ≠ some m.atom → m.negate ∈ c.trail.before index :=
      fun m hm => hfalse m (List.mem_cons_of_mem _ hm)
    have ht := hb.trailed
    unfold absorb
    rw [answers_ite]
    constructor
    · intro hr
      exact (answers_absorb hb rest top draft d h hrest).mono fun next e ⟨more, ha⟩ => ⟨more, ha.pass (.inl hr)⟩
    intro hr
    have hn := hfalse l List.mem_cons_self hr
    have hon := Trail.before_sublist hn
    have hknown := ht.known_of_negate_mem hon
    obtain ⟨r, hrec⟩ := h.working.exists_record ht hon
    have hle : c.atoms.levelOrZero l.atom ≤ c.trail.level := by
      rw [← Literal.atom_negate]
      exact ht.level_le_level hon
    rw [answers_bind, answers_record]
    refine ⟨r, hrec, ?_⟩
    have hlevel : r.level.getD 0 = c.atoms.levelOrZero l.atom :=
      (AtomTable.of_record hrec).1.trans (h.working.levelOrZero _)
    have hmarks : l.atom < d.marks.size := h.working.marksSize ▸ hknown
    rw [answers_bind, gives_markOf.answers hmarks, hlevel, answers_ite]
    constructor
    · intro hskip
      rw [Bool.or_eq_true, beq_iff_eq] at hskip
      exact (answers_absorb hb rest top draft d h hrest).mono fun next e ⟨more, ha⟩ =>
        ⟨more, ha.pass (.inr (hskip.symm.imp id fun hm => ha.old l (h.mem_of_marked ht hm hon)))⟩
    intro htake
    rw [Bool.not_eq_true, Bool.or_eq_false_iff, beq_eq_false_iff_ne] at htake
    have hbumped : Drafting c index top draft { d with atoms := d.atoms.bump l.atom } :=
      h.of_marks (h.working.bump l.atom) rfl
    unfold bumpAtom
    rw [answers_bind, (gives_onAtoms AtomTable.Call.gives_bump).answers
      ⟨h.working.stocked hb.stocked, h.working.count.symm ▸ hknown⟩, answers_bind]
    refine ((gives_setMark (d := { d with atoms := d.atoms.bump l.atom })).answers hmarks).2 ?_
    rw [answers_ite]
    constructor
    · intro hlt
      have hnext := hbumped.addLower htake.1 hknown hon (Nat.pos_of_ne_zero htake.2) hlt
      exact (answers_absorb hb rest top _ _ hnext hrest).mono fun next e ⟨more, ha⟩ => ⟨more, ha.addLower⟩
    · intro hge
      have heq : c.atoms.levelOrZero l.atom = c.trail.level := by omega
      rw [if_pos heq]
      have hnext := hbumped.addTop htake.1 hknown hn heq
      exact (answers_absorb hb rest _ _ _ hnext hrest).mono fun next e ⟨more, ha⟩ => ⟨more, ha.addTop hr⟩

theorem answers_antecedent {ls : Clause} (h : Working c d) (hk : c.clauses.literals? key = some ls) :
    Answers (antecedent key) d fun literals e => literals = ls ∧ Working c e ∧ e.marks = d.marks := by
  obtain ⟨stored, hfind, hlits⟩ := ClauseStore.literals?_eq_some_iff.1 (h.clauses.literals key ▸ hk)
  unfold antecedent
  rw [answers_bind, answers_findClause]
  refine ⟨stored, hfind, ?_⟩
  unfold Solver.bumpClause
  rw [answers_bind, answers_modify, answers_pure]
  exact ⟨hlits, h.bumpClause key, rfl⟩

end Solver

namespace Context

/-- While another literal of the current level stands before it, a literal of the current level has a reason. -/
theorem Drafting.reason_ne_none {left : Clause} {draft : Solver.Draft} (h : Drafting c index left draft d) (ht : Trailed f c)
    (hp : c.trail.literals[index]? = some p) (hlevel : c.atoms.levelOrZero p.atom = c.trail.level)
    (hpos : 0 < c.trail.level) (hne : left ≠ []) : c.atoms.reason p.atom ≠ none := by
  intro hnone
  obtain ⟨q, hq⟩ := List.exists_mem_of_ne_nil left hne
  obtain ⟨hqn, hqlevel⟩ := h.top q hq
  obtain ⟨j, hj, hjq⟩ := Trail.mem_before.1 hqn
  have hqle := ht.level_le hjq
  rw [Literal.atom_negate, hqlevel] at hqle
  have hcause := ht.caused index p hp
  rw [hnone] at hcause
  rcases hcause with ⟨hz, -⟩ | ⟨-, hs⟩
  · omega
  · -- the literal would be the first of its level, and the other one of a lower level
    have hlt := Trail.levelAt_lt_of_mem_starts hj hs
    have := Trail.levelAt_le_level c.trail index
    omega

/-- What is left when the first unique implication point is found: its negation and literals of lower levels. -/
structure Pointed (f : Formula) (c : Context) (asserting : Literal) (lower : Clause) (d : Context) : Prop where
  working : Working c d
  marks : Marks d fun x => x ∈ lower.map Literal.atom
  entails : f.Entails (asserting :: lower)
  nodup : ((asserting :: lower).map Literal.atom).Nodup
  asserting : asserting.negate ∈ c.trail.literals.toList ∧ c.atoms.levelOrZero asserting.atom = c.trail.level
  lower : ∀ l ∈ lower, l.negate ∈ c.trail.literals.toList ∧ 0 < c.atoms.levelOrZero l.atom ∧
    c.atoms.levelOrZero l.atom < c.trail.level

/-- The walk back along the trail from an index, for what is left of a clause at the current level.  It ends at a literal that
is left alone, passes what is not left by, and puts what a literal goes back to at that level in the place of any other. -/
inductive Retraced (c : Context) : Nat → Clause → Literal → Prop
  | last {index : Nat} {p : Literal} (hp : c.trail.literals[index]? = some p) : Retraced c (index + 1) [p.negate] p
  | pass {index : Nat} {top : Clause} {p q : Literal} (hp : c.trail.literals[index]? = some p) (hn : p.negate ∉ top)
    (h : Retraced c index top q) : Retraced c (index + 1) top q
  | resolve {index : Nat} {top left more : Clause} {p q : Literal} (hp : c.trail.literals[index]? = some p)
    (hperm : top.Perm (p.negate :: left)) (hn : p.negate ∉ left) (hne : left ≠ [])
    (hmore : ∀ m, m ∈ more ↔ m ∈ left ∨ c.Antecedent p.atom m ∧ c.atoms.levelOrZero m.atom = c.trail.level)
    (h : Retraced c index more q) : Retraced c (index + 1) top q

end Context

namespace Solver

open Run Context

variable {f : Formula} {sets : Nat → Prop} {c d : Context} {index : Nat} {top : Clause} {draft : Solver.Draft}
  {key : ClauseKey}

theorem answers_absorbReason (hb : Base f sets c) (hpos : 0 < c.trail.level) {p : Literal} {clause rest left : Clause}
    (hp : c.trail.literals[index]? = some p) (hreason : f.Entails (p :: rest))
    (hrest : ∀ m ∈ rest, m.negate ∈ c.trail.before index) (hsub : ∀ m ∈ rest, m ∈ clause)
    (hsup : ∀ m ∈ clause, m = p ∨ m ∈ rest) (h : Drafting c index left draft d)
    (he : f.Entails (p.negate :: (left ++ draft.lower.toList))) :
    Answers (absorb c.trail.level (some p.atom) clause draft) d
      fun next e => ∃ more, Drafting c index more next e ∧ f.Entails (more ++ next.lower.toList) ∧
        ∀ m, m ∈ more ↔ m ∈ left ∨ m ∈ rest ∧ c.atoms.levelOrZero m.atom = c.trail.level := by
  have hne : ∀ m ∈ rest, some p.atom ≠ some m.atom := fun m hm he => by
    have := hb.trailed.atom_ne_of_mem_before hp (hrest m hm)
    rw [Literal.atom_negate] at this
    exact this (Option.some.inj he).symm
  have hothers : ∀ m, m ∈ clause ∧ some p.atom ≠ some m.atom ↔ m ∈ rest := fun m =>
    ⟨fun ⟨hm, hatom⟩ => (hsup m hm).resolve_left fun he => hatom (he ▸ rfl), fun hm => ⟨hsub m hm, hne m hm⟩⟩
  refine (answers_absorb hb clause left draft d h fun m hm hatom => hrest m ((hothers m).1 ⟨hm, hatom⟩)).mono
    fun next e ⟨more, ha⟩ => ⟨more, ha.drafting, ?_, fun m => ?_⟩
  · refine hb.trailed.entails_without_zero hb.denotes (hreason.resolvent he) fun m hm => ?_
    rcases List.mem_append.1 hm with hm | hm
    · rcases ha.new m (hsub m hm) with hr | hz | hin
      · exact absurd hr (hne m hm)
      · exact .inr ⟨Trail.before_sublist (hrest m hm), hz⟩
      · exact .inl hin
    · exact .inl (ha.old m hm)
  · rw [ha.mem_iff h hpos, hothers]

/-- **While others of the current level are left, a literal goes out of a draft for what it goes back to**, and the clause
still follows. -/
theorem answers_exchange (hb : Base f sets c) (hpos : 0 < c.trail.level) {p : Literal} {left : Clause}
    (hp : c.trail.literals[index]? = some p) (hlevel : c.atoms.levelOrZero p.atom = c.trail.level) (hne : left ≠ [])
    (h : Drafting c index left draft d) (he : f.Entails (p.negate :: (left ++ draft.lower.toList))) {α : Type}
    {decided : Solver α} {k : Draft → Solver α} {Q : α → Context → Prop}
    (hk : ∀ {next : Draft} {e : Context} {more : Clause}, Drafting c index more next e →
      f.Entails (more ++ next.lower.toList) →
      (∀ m, m ∈ more ↔ m ∈ left ∨ c.Antecedent p.atom m ∧ c.atoms.levelOrZero m.atom = c.trail.level) →
      Answers (k next) e Q) :
    Answers (do
      match (← record p.atom).reason with
      | none => decided
      | some (.binary other) => k (← absorb c.trail.level (some p.atom) [other] draft)
      | some (.long key) => k (← absorb c.trail.level (some p.atom) (← antecedent key) draft)) d Q := by
  obtain ⟨r, hr⟩ := AtomTable.exists_record (h.working.count ▸ hb.trailed.mem_known (Trail.mem_of_getElem? hp))
  rw [answers_bind, answers_record]
  refine ⟨r, hr, ?_⟩
  have hreason : r.reason = c.atoms.reason p.atom := (AtomTable.of_record hr).2.1.trans (h.working.reason _)
  have hcause := hb.trailed.caused index p hp
  rw [← hreason] at hcause
  cases hrr : r.reason with
  | none => exact absurd (hreason.symm.trans hrr) (h.reason_ne_none hb.trailed hp hlevel hpos hne)
  | some reason =>
    rw [hrr] at hcause hreason
    cases reason with
    | binary other =>
      dsimp only
      rw [answers_bind]
      refine (answers_absorbReason hb hpos hp hcause.2.2 (by simpa using hcause.2.1) (fun _ => id)
        (fun _ => .inr) h he).mono fun next e ⟨more, hd, hent, hmore⟩ => hk hd hent fun m => ?_
      rw [hmore, antecedent_binary_iff hreason.symm, List.mem_singleton]
    | long key =>
      obtain ⟨-, rest, hkey, hbefore⟩ := hcause
      dsimp only
      rw [answers_bind]
      refine (answers_antecedent h.working hkey).mono fun literals e ⟨hl, hwe, hme⟩ => ?_
      rw [hl, answers_bind]
      refine (answers_absorbReason hb hpos hp (hb.denotes.long key _ hkey) hbefore
        (fun _ => List.mem_cons_of_mem _) (fun _ => List.mem_cons.1) (h.of_marks hwe hme) he).mono
        fun next u ⟨more, hd, hent, hmore⟩ => hk hd hent fun m => ?_
      rw [hmore, hb.trailed.antecedent_iff_mem_rest hp hreason.symm hkey hbefore]

/-- **The walk back along the trail resolves down to one literal of the current level**, if there is one. -/
theorem answers_resolve (hb : Base f sets c) (hpos : 0 < c.trail.level) : ∀ (index : Nat) (top : Clause) (draft : Draft)
    (d : Context), Drafting c index top draft d → f.Entails (top ++ draft.lower.toList) → top ≠ [] →
    index ≤ c.trail.size →
    Answers (resolve c.trail.level index draft) d fun r e => Pointed f c r.1 r.2.toList e ∧
      Retraced c index top r.1.negate
  | 0, top, draft, d, h, _, hne, _ => by
    -- a literal of the clause stands before the index
    obtain ⟨q, hq⟩ := List.exists_mem_of_ne_nil top hne
    obtain ⟨j, hj, -⟩ := Trail.mem_before.1 (h.top q hq).1
    exact absurd hj (Nat.not_lt_zero j)
  | index + 1, top, draft, d, h, he, hne, hsize => by
    obtain ⟨p, hp⟩ : ∃ p, c.trail.literals[index]? = some p := ⟨_, Array.getElem?_eq_getElem hsize⟩
    have hmarks : p.atom < d.marks.size := h.working.marksSize ▸ hb.trailed.mem_known (Trail.mem_of_getElem? hp)
    unfold resolve
    rw [answers_bind, answers_get, answers_bind, answers_expect]
    refine ⟨p, by rw [h.working.literals, hp], ?_⟩
    rw [answers_bind, gives_markOf.answers hmarks, answers_ite]
    constructor
    · -- the index is not that of a literal of the clause
      intro hm
      rw [Bool.not_eq_true'] at hm
      have hn : p.negate ∉ top := fun hmem =>
        h.not_mem_of_unmarked hm (List.mem_map.2 ⟨_, List.mem_append_left _ hmem, Literal.atom_negate p⟩)
      exact (answers_resolve hb hpos index top draft d (h.pass hp hm) he hne (Nat.le_of_succ_le hsize)).mono
        fun r e ⟨hr, hw⟩ => ⟨hr, .pass hp hn hw⟩
    · intro hm
      rw [Bool.not_eq_true, Bool.not_eq_false'] at hm
      obtain ⟨left, hperm, hn, hlevel, hwaiting, hnext⟩ := h.exists_left hb.trailed hp hm hne
      have hclause := hperm.append_right draft.lower.toList
      have he' : f.Entails (p.negate :: (left ++ draft.lower.toList)) := fun v hv => (he v hv).mono fun l =>
        hclause.mem_iff.1
      rw [answers_bind, gives_setMark.answers hmarks, hwaiting]
      cases left with
      | nil =>
        refine answers_pure.2 ⟨⟨hnext.working, hnext.marks, he', (hclause.map Literal.atom).nodup_iff.1 h.nodup, ?_,
          h.lower⟩, ?_⟩
        · rw [Literal.negate_negate, Literal.atom_negate]
          exact ⟨Trail.mem_of_getElem? hp, hlevel⟩
        · rw [Literal.negate_negate, List.perm_singleton.1 hperm]
          exact .last hp
      | cons q left =>
        refine answers_exchange hb hpos hp hlevel (List.cons_ne_nil q left) hnext he' fun hd hent hmore => ?_
        -- what was left is left still
        have hmore_ne := List.ne_nil_of_mem ((hmore q).2 (.inl List.mem_cons_self))
        exact (answers_resolve hb hpos index _ _ _ hd hent hmore_ne (Nat.le_of_succ_le hsize)).mono
          fun r e ⟨hr, hw⟩ => ⟨hr, .resolve hp hperm hn (List.cons_ne_nil q left) hmore hw⟩

/-! ## Where the clause asserts -/

theorem indexOfMax_lt : ∀ {l : List Nat}, l ≠ [] → indexOfMax l < l.length
  | [], h => absurd rfl h
  | x :: rest, _ => by
    unfold indexOfMax
    dsimp only
    split
    · exact Nat.zero_lt_succ _
    · rename_i hlt
      have hne : rest ≠ [] := by
        rintro rfl
        simp [indexOfMax] at hlt
      exact Nat.succ_lt_succ (indexOfMax_lt hne)

/-- **No number of a list is greater than the one at the index of the greatest.** -/
theorem le_getD_indexOfMax : ∀ {l : List Nat} {x : Nat}, x ∈ l → x ≤ l.getD (indexOfMax l) 0
  | y :: rest, x, hx => by
    unfold indexOfMax
    dsimp only
    split
    · rename_i hle
      rcases List.mem_cons.1 hx with rfl | hx
      · exact Nat.le_refl _
      · exact Nat.le_trans (le_getD_indexOfMax hx) hle
    · rename_i hlt
      rw [List.getD_cons_succ]
      rcases List.mem_cons.1 hx with rfl | hx
      · exact Nat.le_of_lt (Nat.lt_of_not_le hlt)
      · exact le_getD_indexOfMax hx

theorem answers_levels : ∀ (clause : Clause), (∀ m ∈ clause, m.atom < d.atoms.count) →
    Answers (clause.mapM fun l => return (← record l.atom).level.getD 0) d
      fun levels e => e = d ∧ levels = clause.map fun l => d.atoms.levelOrZero l.atom
  | [], _ => answers_pure.2 ⟨rfl, rfl⟩
  | l :: rest, hknown => by
    obtain ⟨r, hr⟩ := AtomTable.exists_record (hknown l List.mem_cons_self)
    rw [List.mapM_cons, answers_bind, answers_bind, answers_record]
    refine ⟨r, hr, ?_⟩
    rw [answers_pure, answers_bind]
    refine (answers_levels rest fun m hm => hknown m (List.mem_cons_of_mem _ hm)).mono fun levels e ⟨he, hl⟩ => ?_
    rw [answers_pure, List.map_cons, hl, (AtomTable.of_record hr).1]
    exact ⟨he, rfl⟩

/-- The literals but for the first are the same in another order, with one of the greatest level in front. -/
theorem answers_arrange (asserting : Literal) : ∀ (rest : Clause), (∀ m ∈ rest, m.atom < d.atoms.count) →
    Answers (arrange (asserting :: rest)) d fun learnt e => e = d ∧ ∃ others : Clause,
      learnt.clause = asserting :: others ∧ others.Perm rest ∧ (rest = [] → learnt.level = 0) ∧
      (∀ m ∈ rest, d.atoms.levelOrZero m.atom ≤ learnt.level) ∧
      ∀ m ∈ others.head?, d.atoms.levelOrZero m.atom = learnt.level
  | [], _ => answers_pure.2 ⟨rfl, [], rfl, .refl _, fun _ => rfl, by simp, by simp⟩
  | second :: rest, hknown => by
    unfold arrange
    rw [answers_bind]
    refine (answers_levels (second :: rest) hknown).mono fun levels e ⟨he, hl⟩ => ?_
    have hlen : levels.length = (second :: rest).length := by rw [hl, List.length_map]
    have hlt : indexOfMax levels < (second :: rest).length := by
      rw [← hlen]
      exact indexOfMax_lt (List.ne_nil_of_length_eq_add_one hlen)
    have hat : ∀ (i : Nat) (hi : i < (second :: rest).length),
        levels.getD i 0 = d.atoms.levelOrZero ((second :: rest)[i]).atom := by
      intro i hi
      rw [List.getD_eq_getElem?_getD, hl, List.getElem?_map, List.getElem?_eq_getElem hi]
      rfl
    have hswap : Clause.swap? (second :: rest) 0 (indexOfMax levels) =
        some ((second :: rest).toArray.swapIfInBounds 0 (indexOfMax levels)).toList := if_pos ⟨by simp, hlt⟩
    have hlevel : levels[indexOfMax levels]? = some (levels.getD (indexOfMax levels) 0) := by
      rw [List.getD_eq_getElem?_getD, List.getElem?_eq_getElem (hlen ▸ hlt)]
      rfl
    rw [answers_bind, answers_expect]
    refine ⟨_, hswap, ?_⟩
    rw [answers_bind, answers_expect]
    refine ⟨_, hlevel, ?_⟩
    rw [answers_pure]
    refine ⟨he, _, rfl, Clause.perm_of_swap? hswap, nofun, fun m hm => ?_, fun m hm => ?_⟩
    · refine le_getD_indexOfMax ?_
      rw [hl]
      exact List.mem_map.2 ⟨m, hm, rfl⟩
    · rw [Option.mem_def, List.head?_eq_getElem?, Array.getElem?_toList,
        Array.getElem?_eq_getElem (by simp), Array.getElem_swapIfInBounds_left (by simpa using hlt),
        Option.some.injEq] at hm
      rw [hat _ hlt, ← hm]
      rfl

end Solver

namespace Context

/-- The literals of a conflict. -/
def literalsOf (c : Context) : Conflict → Clause
  | .binary a b => [a, b]
  | .long key => (c.clauses.literals? key).getD []

/-- A conflict of the current level: one of its literals has that level. -/
def Here (c : Context) (conflict : Conflict) : Prop :=
  ∃ l, c.Blames l conflict ∧ c.atoms.levelOrZero l.atom = c.trail.level

variable {f : Formula} {settled : Nat → Prop} {c d : Context}

theorem Blames.mem_literalsOf {conflict : Conflict} {l : Literal} (h : c.Blames l conflict) : l ∈ c.literalsOf conflict := by
  cases conflict with
  | binary a b => simpa [literalsOf] using h.2
  | long key =>
    obtain ⟨ls, hk, hl⟩ := h
    rwa [literalsOf, hk, Option.getD_some]

theorem Here.alike {conflict : Conflict} (h : c.Here conflict) (ha : Alike c d) : d.Here conflict := by
  obtain ⟨l, hl, hlevel⟩ := h
  exact ⟨l, hl.alike ha, by rw [ha.levelOrZero, ha.level, hlevel]⟩

/-- What stands at the head or comes after it has the current level. -/
theorem Propagates.level_eq {r : Propagated} {i : Nat} {l : Literal} (h : Propagates f settled c r d)
    (hc : c.trail.Layered) (hfresh : c.Fresh) (hi : c.trail.head ≤ i) (hl : d.trail.literals[i]? = some l) :
    d.atoms.levelOrZero l.atom = c.trail.level := by
  have hmem := Trail.mem_of_getElem? hl
  rcases h.reasoned l hmem with hold | ⟨r, hr, -⟩
  · obtain ⟨j, hj⟩ := Trail.mem_literals.1 hold
    have hji : j = i := h.sound.trailed.index_inj (h.extended.getElem? hj) hl
    rw [h.extended.level l hold]
    exact hfresh i l hi (hji ▸ hj)
  by_cases hlt : i < c.trail.size
  · have hli : c.trail.literals[i]? = some c.trail.literals[i] := Array.getElem?_eq_getElem hlt
    have he : c.trail.literals[i] = l := Option.some.inj ((h.extended.getElem? hli).symm.trans hl)
    rw [he] at hli
    rw [h.extended.level l (Trail.mem_of_getElem? hli)]
    exact hfresh i l hi hli
  · -- what comes to the end of the trail comes to the current level
    rw [h.sound.trailed.level_eq_of_reason hl (hr ▸ nofun), h.extended.levelAt]
    refine Nat.le_antisymm (Trail.levelAt_le_level ..) ?_
    rw [← hc.levelAt_size]
    exact Trail.levelAt_mono (Nat.le_of_not_lt hlt)

/-- **Propagating literals of the current level ends in a conflict of that level**, if in one. -/
theorem Propagates.here {conflict : Conflict} (h : Propagates f settled c (.conflict conflict) d)
    (hc : c.trail.Layered) (hfresh : c.Fresh) : d.Here conflict := by
  obtain ⟨i, l, hi, hl, hblames⟩ := h.late conflict rfl
  exact ⟨l.negate, hblames, by rw [Literal.atom_negate, h.extended.trail_level, h.level_eq hc hfresh hi hl]⟩

/-- **Propagating literals of the current level** gives every literal that comes an antecedent of that level. -/
theorem Propagates.anchored {r : Propagated} {bottom : Nat} (h : Propagates f settled c r d) (hc : Trailed f c)
    (ha : c.Anchored bottom) (hfresh : c.Fresh) : d.Anchored bottom := by
  intro l hl hlt hr
  by_cases hold : l ∈ c.trail.literals.toList
  · exact ha.keep hc h.sound.trailed (fun m hm _ => h.extended.level m hm) hold hl (h.extended.reason l hold)
      (fun key ls _ => h.reordered.literals_mem) hlt hr
  · obtain ⟨m, i, hi, hm, hant⟩ := (h.kindled l hl).resolve_left hold
    obtain ⟨j, hj⟩ := Trail.mem_literals.1 hl
    have hlevel := h.level_eq hc.layered hfresh hi hm
    rw [Literal.atom_negate] at hlevel
    refine ⟨m, hant, ?_⟩
    rw [hlevel, h.level_eq hc.layered hfresh (Nat.le_of_not_lt fun hjlt => hold ?_) hj]
    -- what stands before the head stood there
    have hjc : j < c.trail.size := Nat.lt_of_lt_of_le hjlt hc.layered.head
    have hlj : c.trail.literals[j]? = some c.trail.literals[j] := Array.getElem?_eq_getElem hjc
    rw [Option.some.inj ((h.extended.getElem? hlj).symm.trans hj)] at hlj
    exact Trail.mem_of_getElem? hlj

/-- **What there is to say of a clause learnt above level zero.** -/
structure Learnable (f : Formula) (c : Context) (learnt : LearntClause) (first : Literal) (rest : Clause) : Prop where
  clause : learnt.clause = first :: rest
  entails : f.Entails (first :: rest)
  nodup : ((first :: rest).map Literal.atom).Nodup
  asserting : first.negate ∈ c.trail.literals.toList ∧ c.atoms.levelOrZero first.atom = c.trail.level
  others : ∀ m ∈ rest, m.negate ∈ c.trail.literals.toList ∧ 0 < c.atoms.levelOrZero m.atom ∧
    c.atoms.levelOrZero m.atom ≤ learnt.level
  second : ∀ m ∈ rest.head?, c.atoms.levelOrZero m.atom = learnt.level
  unit : rest = [] → learnt.level = 0
  below : learnt.level < c.trail.level

/-- Some of the lower literals, with one of the greatest level in front, make a clause to learn if it still follows. -/
theorem Pointed.learnable {asserting : Literal} {lower kept others : Clause} {learnt : LearntClause}
    (h : Pointed f c asserting lower d) (hpos : 0 < c.trail.level) (he : f.Entails (asserting :: kept))
    (hsub : kept.Sublist lower) (hc : learnt.clause = asserting :: others) (hp : others.Perm kept)
    (hunit : kept = [] → learnt.level = 0) (hle : ∀ m ∈ kept, c.atoms.levelOrZero m.atom ≤ learnt.level)
    (hsecond : ∀ m ∈ others.head?, c.atoms.levelOrZero m.atom = learnt.level) :
    Learnable f c learnt asserting others where
  clause := hc
  entails v hv := (he v hv).mono fun _ => (hp.cons _).mem_iff.2
  nodup := (((hp.cons asserting).map Literal.atom).nodup_iff).2 (h.nodup.sublist ((hsub.cons_cons _).map _))
  asserting := h.asserting
  others m hm :=
    have hm := hp.mem_iff.1 hm
    have ⟨hn, hlevel, _⟩ := h.lower m (hsub.subset hm)
    ⟨hn, hlevel, hle m hm⟩
  second := hsecond
  unit hnil := hunit (List.nil_perm.1 (hnil ▸ hp))
  below := by
    cases others with
    | nil => rwa [hunit (List.nil_perm.1 hp)]
    | cons second others =>
      rw [← hsecond second rfl]
      exact (h.lower second (hsub.subset (hp.mem_iff.1 List.mem_cons_self))).2.2

end Context

namespace Solver

open Run Context

variable {f : Formula} {sets : Nat → Prop} {c d : Context} {index : Nat} {top : Clause} {draft : Solver.Draft}
  {key : ClauseKey}

variable {α : Type} {Q : α → Context → Prop}

theorem answers_conflictLiterals {conflict : Conflict} {k : Clause → Solver α} (hb : Base f sets c) (h : Working c d)
    (hr : Refuted f c conflict) (hk : ∀ e, f.Entails (c.literalsOf conflict) →
      (∀ m ∈ c.literalsOf conflict, m.negate ∈ c.trail.literals.toList) → Working c e → e.marks = d.marks →
      Answers (k (c.literalsOf conflict)) e Q) :
    Answers (match conflict with
      | .binary a b => do
        let literals ← pure [a, b]
        k literals
      | .long key => do
        let literals ← antecedent key
        k literals) d Q := by
  cases conflict with
  | binary a b =>
    dsimp only
    rw [answers_bind, answers_pure]
    exact hk _ hr.1 (by simpa [literalsOf] using hr.2) h rfl
  | long key =>
    obtain ⟨ls, hls, hfalse⟩ := hr
    have he : c.literalsOf (.long key) = ls := by rw [literalsOf, hls, Option.getD_some]
    rw [he] at hk
    dsimp only
    rw [answers_bind]
    refine (answers_antecedent h hls).mono fun literals e ⟨hl, hw, hm⟩ => ?_
    subst hl
    exact hk _ (hb.denotes.long key _ hls) hfalse hw hm

/-- **The literals of a conflict of the current level make a first draft.** -/
theorem answers_startDraft {conflict : Conflict} (hb : Base f sets c)
    (hm : c.marks = Array.replicate c.atoms.count false) (hw : Working c d) (hmarks : d.marks = c.marks)
    (he : f.Entails (c.literalsOf conflict)) (hfalse : ∀ m ∈ c.literalsOf conflict, m.negate ∈ c.trail.literals.toList)
    (hh : c.Here conflict) (hpos : 0 < c.trail.level) :
    Answers (absorb c.trail.level none (c.literalsOf conflict) {}) d fun draft e => ∃ top,
      Drafting c c.trail.size top draft e ∧ f.Entails (top ++ draft.lower.toList) ∧ top ≠ [] ∧
      ∀ m, m ∈ top ↔ m ∈ c.literalsOf conflict ∧ c.atoms.levelOrZero m.atom = c.trail.level := by
  have hstart : Drafting c c.trail.size [] {} d := (Drafting.start hm).of_marks hw hmarks
  refine (answers_absorb hb _ [] {} d hstart fun m hmem _ => ?_).mono fun draft e ⟨top, ha⟩ => ?_
  · rw [Trail.before_of_size_le (Nat.le_refl _)]
    exact hfalse m hmem
  have htop : ∀ m, m ∈ top ↔ m ∈ c.literalsOf conflict ∧ c.atoms.levelOrZero m.atom = c.trail.level := fun m => by
    rw [ha.mem_iff hstart hpos]
    simp
  refine ⟨top, ha.drafting, ?_, ?_, htop⟩
  · refine hb.trailed.entails_without_zero hb.denotes he fun m hmem => ?_
    rcases ha.new m hmem with hres | hz | hin
    · cases hres
    · exact .inr ⟨hfalse m hmem, hz⟩
    · exact .inl hin
  · obtain ⟨l, hl, hlevel⟩ := hh
    exact List.ne_nil_of_mem ((htop l).2 ⟨Blames.mem_literalsOf hl, hlevel⟩)

/-! ## The clause that resolution finds -/

/-- **Above level zero a conflict of the current level resolves to a clause** with one literal of that level. -/
theorem answers_resolvent {conflict : Conflict} (hb : Base f sets c)
    (hm : c.marks = Array.replicate c.atoms.count false) (hr : Refuted f c conflict) (hh : c.Here conflict)
    (hpos : 0 < c.trail.level) :
    Answers (resolvent conflict) c fun clause d => ∃ asserting lower top, clause = asserting :: lower ∧
      Pointed f c asserting lower d ∧ Retraced c c.trail.size top asserting.negate ∧
      ∀ m, m ∈ top ↔ m ∈ c.literalsOf conflict ∧ c.atoms.levelOrZero m.atom = c.trail.level := by
  unfold resolvent
  rw [answers_bind, answers_get]
  refine answers_conflictLiterals hb (.refl hm) hr fun d he hfalse hw hmarks => ?_
  rw [answers_bind]
  refine (answers_startDraft hb hm hw hmarks he hfalse hh hpos).mono fun draft d ⟨top, hd, hent, hne, htop⟩ => ?_
  rw [answers_bind, answers_get, hd.working.literals, answers_bind]
  refine (answers_resolve hb hpos c.trail.literals.size top draft d hd hent hne (Nat.le_refl _)).mono
    fun r d ⟨hp, hretraced⟩ => ?_
  rw [answers_bind, answers_count, answers_pure]
  exact ⟨r.1, r.2.toList, top, rfl, { hp with working := ⟨hp.working.toAlike.trans (.of_eq rfl rfl rfl rfl rfl),
    hp.working.course, hp.working.head, hp.working.marksSize⟩ }, hretraced, htop⟩

/-- **Minimization answers**, with a clause without some literals that are backed. -/
theorem answers_minimized {asserting : Literal} {lower : Clause} (hb : Base f sets c) (h : Pointed f c asserting lower d) :
    Answers (minimized (asserting :: lower)) d fun r e =>
      Minimized c (fun _ => True) asserting lower r.1 r.2 e := by
  have hfalse : ∀ l ∈ lower, l.negate ∈ c.trail.literals.toList := fun l hl => (h.lower l hl).1
  unfold minimized
  rw [answers_bind, answers_get]
  cases d.options.minimization.value with
  | none =>
    exact answers_pure.2 ⟨h.working, h.marks.congr fun x => by simp, ⟨lower, rfl, .refl lower fun _ _ => trivial⟩, nofun⟩
  | cheap =>
    rw [answers_bind]
    exact (answers_minimizeCheap hb h.working h.marks hfalse).mono fun _ _ hmin => answers_pure.2 hmin.2.weaken
  | recursive =>
    exact (answers_minimizeRecursive hb.trailed h.working h.marks hfalse).mono fun _ _ hmin => hmin.weaken

end Solver

namespace Context

/-- A clause learnt is what minimization leaves of the clause that resolution finds where the trail is walked back: the
asserting literal in front, and the others in some order. -/
structure Taught (f : Formula) (c : Context) (conflict : Conflict) (learnt : LearntClause) (asserting : Literal)
    (lower others : Clause) (d : Context) : Prop where
  resolvent : Solver.resolvent conflict c = .ok (asserting :: lower) d
  pointed : Pointed f c asserting lower d
  retraced : ∃ top, Retraced c c.trail.size top asserting.negate ∧
    ∀ m, m ∈ top ↔ m ∈ c.literalsOf conflict ∧ c.atoms.levelOrZero m.atom = c.trail.level
  minimized : ∃ kept found e, Solver.minimized (asserting :: lower) d = .ok (asserting :: kept, found) e ∧
    learnt.clause = asserting :: others ∧ others.Perm kept

end Context

namespace Solver

open Run Context

variable {f : Formula} {sets : Nat → Prop} {c d : Context}

/-- **A conflict above level zero that has a literal of the current level teaches a clause** that follows from the formula
and asserts at a lower level. -/
theorem answers_deduce {conflict : Conflict} (hb : Base f sets c)
    (hm : c.marks = Array.replicate c.atoms.count false) (hr : Refuted f c conflict) (hh : c.Here conflict)
    (hpos : 0 < c.trail.level) :
    Answers (deduce conflict) c fun learnt d => Rested c d ∧
      ∃ first lower rest e, Learnable f c learnt first rest ∧ Taught f c conflict learnt first lower rest e := by
  obtain ⟨clause, d, hresolvent, asserting, lower, top, rfl, hp, hretraced, htop⟩ := answers_resolvent hb hm hr hh hpos
  obtain ⟨⟨minimal, found⟩, e, hminimized, hmin⟩ := answers_minimized hb hp
  dsimp only at hmin
  rw [deduce_eq, answers_bind]
  refine ⟨_, d, hresolvent, answers_bind.2 ⟨_, e, hminimized, ?_⟩⟩
  dsimp only
  rw [answers_bind, answers_count, answers_bind]
  have hwork : Working c { e with
      counters := { e.counters with totLiterals := e.counters.totLiterals + minimal.length } } :=
    ⟨hmin.working.toAlike.trans (.of_eq rfl rfl rfl rfl rfl), hmin.working.course, hmin.working.head, hmin.working.marksSize⟩
  refine (answers_clearMarks _ _ _ hwork hmin.marks fun a ha => hmin.marks.lt hmin.working (List.mem_append.1 ha)).mono fun _ g ⟨hw, hclear⟩ => ?_
  have hclean := hw.clean (hclear.congr fun x => ⟨fun hx => hx.2 (List.mem_append.2 hx.1), False.elim⟩)
  have hentails := hmin.entails hb hp.entails fun l hl => (hp.lower l hl).1
  obtain ⟨kept, rfl, hsifted⟩ := hmin.clause
  have hsub := hsifted.sublist
  have hkept : ∀ m ∈ kept, m.atom < g.atoms.count := fun m hmem =>
    hw.count ▸ hb.trailed.known_of_negate_mem (hp.lower m (hsub.subset hmem)).1
  refine (answers_arrange asserting kept hkept).mono
    fun learnt u ⟨hu, others, hcl, hperm, hunit, hle, hsecond⟩ => ?_
  rw [hu]
  simp only [hw.levelOrZero] at hle hsecond
  exact ⟨⟨hw.toAlike, hw.course, hw.head, hclean⟩, asserting, lower, others, d,
    hp.learnable hpos hentails hsub hcl hperm hunit hle hsecond, hresolvent, hp, ⟨top, hretraced, htop⟩, kept, found, e,
    hminimized, hcl, hperm⟩

/-- **An analysis answers with that clause**, and tells of it. -/
theorem answers_analyzeConflict_taught {conflict : Conflict} (hb : Base f sets c)
    (hm : c.marks = Array.replicate c.atoms.count false) (hr : Refuted f c conflict) (hh : c.Here conflict)
    (hpos : 0 < c.trail.level) :
    Answers (analyzeConflict conflict) c fun learnt d => Rested c d ∧
      ∃ first lower rest e, Learnable f c learnt first rest ∧ Taught f c conflict learnt first lower rest e := by
  unfold analyzeConflict
  rw [answers_bind]
  refine (answers_deduce hb hm hr hh hpos).mono fun learnt d ⟨hd, hlearnt⟩ => ?_
  rw [answers_bind, answers_modify, answers_pure]
  exact ⟨⟨hd.toAlike.trans (.of_eq rfl rfl rfl rfl rfl), hd.course, hd.head, hd.marks⟩, hlearnt⟩

theorem answers_analyzeConflict {conflict : Conflict} (hb : Base f sets c)
    (hm : c.marks = Array.replicate c.atoms.count false) (hr : Refuted f c conflict) (hh : c.Here conflict)
    (hpos : 0 < c.trail.level) :
    Answers (analyzeConflict conflict) c
      fun learnt d => Rested c d ∧ ∃ first rest, Learnable f c learnt first rest :=
  (answers_analyzeConflict_taught hb hm hr hh hpos).mono fun _ _ ⟨hd, first, _, rest, _, hl, _⟩ =>
    ⟨hd, first, rest, hl⟩

end Solver
end Cdcl
