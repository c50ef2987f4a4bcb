import Cdcl.Proofs.Invariant
import Cdcl.Proofs.Outcome
import Cdcl.Solver.Minimization
/-!
# Minimization — what is left of a clause says no less

A literal of a clause is dropped where its atom has a reason whose other atoms are in the clause, were marked on the way, or
have level zero (`Backed`).  Reasons go back along the trail, so a valuation that makes the asserting literal and what is
kept false makes every dropped literal false too (`entails_of_backed`): the clause that is left follows from the formula
where the whole clause does.

An analysis changes marks and activities alone (`Working`).  A chase along reasons that fails takes back the marks it has
set, and has found a chain of reasons to an atom without one, or of a level that the clause seems not to have (`Hopeless`).
Minimization always answers: what it asks for are atoms and reasons of literals on the trail, and a chase ends because
what it puts on the stack is marked.
-/
namespace Cdcl

namespace Context

open Solver (marked)

variable {f : Formula} {settled s more : Nat → Prop} {c d : Context} {a : Nat} {l : Literal}

/-- What an analysis may make of a context before it has taken its marks back. -/
structure Working (c d : Context) : Prop extends Alike c d where
  course : d.course = c.course
  head : d.trail.head = c.trail.head
  marksSize : d.marks.size = c.atoms.count

theorem Working.refl (h : c.marks = Array.replicate c.atoms.count false) : Working c c :=
  ⟨.refl c, rfl, rfl, by rw [h, Array.size_replicate]⟩

/-- The context with the mark of an atom set. -/
def withMark (d : Context) (a : Nat) (mark : Bool) : Context := { d with marks := d.marks.setIfInBounds a mark }

theorem marked_withMark (d : Context) (a : Nat) (mark : Bool) (b : Nat) :
    marked (d.withMark a mark) b = if b = a ∧ a < d.marks.size then mark else marked d b := by
  simp only [marked, withMark, Array.getD_eq_getD_getElem?, Array.getElem?_setIfInBounds]
  grind

theorem lt_size_of_marked (h : marked d a = true) : a < d.marks.size := by
  refine Nat.lt_of_not_le fun hle => ?_
  rw [marked, Array.getD_eq_getD_getElem?, Array.getElem?_eq_none hle] at h
  cases h

theorem marked_unmark (d : Context) (a b : Nat) :
    marked (d.withMark a false) b = true ↔ b ≠ a ∧ marked d b = true := by
  rw [marked_withMark]
  by_cases hb : b = a
  · subst hb
    refine ⟨fun hm => ?_, fun hm => absurd rfl hm.1⟩
    split at hm
    · cases hm
    · rename_i hout
      exact absurd ⟨rfl, lt_size_of_marked hm⟩ hout
  · rw [if_neg fun he => hb he.1, and_iff_right hb]

theorem Working.withMark (h : Working c d) (a : Nat) (mark : Bool) : Working c (d.withMark a mark) :=
  ⟨h.toAlike.trans (.of_eq rfl rfl rfl rfl rfl), h.course, h.head, by simp [Context.withMark, h.marksSize]⟩

/-- Exactly the atoms of a set are marked. -/
def Marks (d : Context) (s : Nat → Prop) : Prop := ∀ a, marked d a = true ↔ s a

theorem Marks.congr (h : Marks d s) (hs : ∀ a, s a ↔ more a) : Marks d more := fun a => (h a).trans (hs a)

theorem Marks.mark (h : Marks d s) (ha : a < d.marks.size) : Marks (d.withMark a true) fun x => x = a ∨ s x := fun x => by
  show _ ↔ x = a ∨ s x
  rw [marked_withMark, ← h x]
  by_cases hx : x = a <;> simp [hx, ha]

theorem Marks.unmark (h : Marks d s) (a : Nat) : Marks (d.withMark a false) fun x => x ≠ a ∧ s x := fun x =>
  (marked_unmark d a x).trans (and_congr_right fun _ => h x)

theorem marks_of_clean (h : c.marks = Array.replicate c.atoms.count false) : Marks c fun _ => False := fun a => by
  simp only [marked, h, Array.getD_eq_getD_getElem?, Array.getElem?_replicate]
  split <;> simp

theorem Working.clean (h : Working c d) (hm : Marks d fun _ => False) :
    d.marks = Array.replicate c.atoms.count false := by
  refine Array.ext (by rw [h.marksSize, Array.size_replicate]) fun i hi hi' => ?_
  rw [Array.getElem_replicate]
  have := (hm i).1
  rw [marked, Array.getD_eq_getD_getElem?, Array.getElem?_eq_getElem hi, Option.getD_some] at this
  exact Bool.eq_false_iff.2 this

/-- A context that an analysis has left without marks. -/
structure Rested (c d : Context) : Prop extends Alike c d where
  course : d.course = c.course
  head : d.trail.head = c.trail.head
  marks : d.marks = Array.replicate c.atoms.count false

theorem Rested.trail (h : Rested c d) : d.trail = c.trail :=
  Trail.ext h.literals h.starts h.head (root_eq_of_course h.course)

theorem Working.lt_marks (h : Working c d) (ha : a < d.atoms.count) : a < d.marks.size := by
  rw [h.marksSize, ← h.count]
  exact ha

/-- Only atoms there are can be marked. -/
theorem Marks.lt (h : Marks d s) (hw : Working c d) (ha : s a) : a < c.atoms.count :=
  hw.marksSize ▸ lt_size_of_marked ((h a).2 ha)

theorem Working.exists_record (h : Working c d) (ht : Trailed f c) (hl : l.negate ∈ c.trail.literals.toList) :
    ∃ r, d.atoms.records[l.atom]? = some r :=
  AtomTable.exists_record (h.count ▸ ht.known_of_negate_mem hl)

/-! ## What reasons explain -/

/-- An atom has a reason, and the other atoms of that are in a set or have level zero. -/
structure Backed (c : Context) (s : Nat → Prop) (a : Nat) : Prop where
  reason : c.atoms.reason a ≠ none
  others : ∀ m, c.Antecedent a m → s m.atom ∨ c.atoms.levelOrZero m.atom = 0

theorem Backed.mono (h : c.Backed s a) (hs : ∀ a, s a → more a) : c.Backed more a :=
  ⟨h.reason, fun m hm => (h.others m hm).imp_left (hs _)⟩

/-- A chain of reasons leads from an atom to one that has none, or to one of a level that the clause seems not to have, and
meets no atom of the clause. -/
inductive Hopeless (c : Context) (clause : Clause) : Nat → Prop
  | bare {a : Nat} (hr : c.atoms.reason a = none) : Hopeless c clause a
  | off {a : Nat} {m : Literal} (hm : c.Antecedent a m) (hmem : m.atom ∉ clause.map Literal.atom)
    (hlevel : c.atoms.levelOrZero m.atom ≠ 0)
    (hbit : ∀ n ∈ clause, Solver.levelBit (c.atoms.levelOrZero n.atom) ≠ Solver.levelBit (c.atoms.levelOrZero m.atom)) :
    Hopeless c clause a
  | back {a : Nat} {m : Literal} (hm : c.Antecedent a m) (hmem : m.atom ∉ clause.map Literal.atom)
    (hlevel : c.atoms.levelOrZero m.atom ≠ 0) (h : Hopeless c clause m.atom) : Hopeless c clause a

/-- The literal an atom makes true follows from the negations of what it goes back to. -/
theorem Trailed.exists_reason {i : Nat} (ht : Trailed f c) (hd : Denotes f c) (hi : c.trail.literals[i]? = some l)
    (hr : c.atoms.reason l.atom ≠ none) : ∃ rest, f.Entails (l :: rest) ∧ ∀ m ∈ rest, c.Antecedent l.atom m := by
  have hcause := ht.caused i l hi
  cases hreason : c.atoms.reason l.atom with
  | none => exact absurd hreason hr
  | some reason =>
    rw [hreason] at hcause
    cases reason with
    | binary other => exact ⟨[other], hcause.2.2, fun m hm => List.mem_singleton.1 hm ▸ .binary hreason⟩
    | long key =>
      obtain ⟨-, rest, hkey, hbefore⟩ := hcause
      refine ⟨rest, hd.long key _ hkey, fun m hm => .long key _ hreason hkey (List.mem_cons_of_mem _ hm) fun he => ?_⟩
      exact ht.atom_ne_of_mem_before hi (hbefore m hm) (by rw [Literal.atom_negate, he])

/-- **Backed literals may be dropped.**  Whatever makes the rest of the clause false makes them false as well. -/
theorem entails_of_backed {asserting : Literal} {lower kept : Clause} (ht : Trailed f c) (hd : Denotes f c)
    (he : f.Entails (asserting :: lower)) (hl : ∀ l ∈ lower, l.negate ∈ c.trail.literals.toList)
    (hdrop : ∀ l ∈ lower, l ∈ kept ∨ c.Backed s l.atom) (hs : ∀ a, s a → a ∈ lower.map Literal.atom ∨ c.Backed s a) :
    f.Entails (asserting :: kept) := by
  intro v hv
  refine Decidable.byContradiction fun hn => ?_
  rw [Clause.holds_cons, not_or] at hn
  have hkept : ∀ l ∈ kept, ¬l.Holds v := fun l hlk hlv => hn.2 ⟨l, hlk, hlv⟩
  -- along the trail: what is in the clause or backed holds as the trail has it
  have htrue : ∀ (i : Nat) (q : Literal), c.trail.literals[i]? = some q →
      q.atom ∈ lower.map Literal.atom ∨ c.Backed s q.atom → q.Holds v := by
    intro i
    induction i using Nat.strongRecOn with
    | _ i ih =>
      intro q hi hq
      have hqt := Trail.mem_of_getElem? hi
      have hbacked : c.Backed s q.atom → q.Holds v := fun hb => by
        obtain ⟨rest, hent, hrest⟩ := ht.exists_reason hd hi hb.reason
        obtain ⟨m, hm, hmv⟩ := hent v hv
        rcases List.mem_cons.1 hm with rfl | hm
        · exact hmv
        · obtain ⟨k, hk, hkm⟩ := Trail.mem_before.1 (ht.antecedent_before hi (hrest m hm))
          have hneg : m.negate.Holds v := by
            rcases hb.others m (hrest m hm) with hsm | hz
            · exact ih k hk m.negate hkm (by rw [Literal.atom_negate]; exact hs _ hsm)
            · rw [← Literal.atom_negate] at hz
              obtain ⟨n, hn, hnv⟩ := ht.entails_of_level_zero hd (Trail.mem_of_getElem? hkm) hz v hv
              rwa [List.mem_singleton.1 hn] at hnv
          rw [Literal.holds_negate] at hneg
          exact absurd hmv hneg
      rcases hq with hq | hq
      · obtain ⟨l, hll, hla⟩ := List.mem_map.1 hq
        have hlq : l.negate = q := ht.eq_of_atom (hl l hll) hqt (by rw [Literal.atom_negate, hla])
        rcases hdrop l hll with hk | hx
        · rw [← hlq, Literal.holds_negate]
          exact hkept l hk
        · exact hbacked (hla ▸ hx)
      · exact hbacked hq
  obtain ⟨m, hm, hmv⟩ := he v hv
  rcases List.mem_cons.1 hm with rfl | hm
  · exact hn.1 hmv
  · obtain ⟨i, hi⟩ := Trail.mem_literals.1 (hl m hm)
    have := htrue i m.negate hi (.inl (List.mem_map.2 ⟨m, hm, (Literal.atom_negate m).symm⟩))
    rw [Literal.holds_negate] at this
    exact this hmv

end Context

/-! ## What is kept of a clause -/

/-- Some literals of a clause are dropped, which have one property, and the others are kept, which have another. -/
inductive Sifted (P Q : Literal → Prop) : Clause → Clause → Prop
  | nil : Sifted P Q [] []
  | drop {m : Literal} {clause kept : Clause} (hm : P m) (h : Sifted P Q clause kept) : Sifted P Q (m :: clause) kept
  | keep {m : Literal} {clause kept : Clause} (hm : Q m) (h : Sifted P Q clause kept) : Sifted P Q (m :: clause) (m :: kept)

namespace Sifted

variable {P Q R S : Literal → Prop} {clause kept left : Clause} {m : Literal}

theorem refl : ∀ clause : Clause, (∀ m ∈ clause, Q m) → Sifted P Q clause clause
  | [], _ => .nil
  | m :: rest, h => .keep (h m List.mem_cons_self) (refl rest fun n hn => h n (List.mem_cons_of_mem _ hn))

theorem mono (h : Sifted P Q clause kept) (hP : ∀ m ∈ clause, P m → R m) (hQ : ∀ m ∈ clause, Q m → S m) :
    Sifted R S clause kept := by
  induction h with
  | nil => exact .nil
  | drop hm _ ih =>
    rw [List.forall_mem_cons] at hP hQ
    exact .drop (hP.1 hm) (ih hP.2 hQ.2)
  | keep hm _ ih =>
    rw [List.forall_mem_cons] at hP hQ
    exact .keep (hQ.1 hm) (ih hP.2 hQ.2)

theorem sublist (h : Sifted P Q clause kept) : kept.Sublist clause := by
  induction h with
  | nil => exact .refl _
  | drop _ _ ih => exact ih.cons _
  | keep _ _ ih => exact ih.cons_cons _

theorem mem_or (h : Sifted P Q clause kept) (hm : m ∈ clause) : m ∈ kept ∨ P m := by
  induction h with
  | nil => cases hm
  | drop hp _ ih => exact (List.mem_cons.1 hm).elim (fun he => .inr (he ▸ hp)) ih
  | keep _ _ ih =>
    exact (List.mem_cons.1 hm).elim (fun he => .inl (he ▸ List.mem_cons_self)) fun hm =>
      (ih hm).imp_left (List.mem_cons_of_mem _)

theorem of_mem (h : Sifted P Q clause kept) (hm : m ∈ kept) : Q m := by
  induction h with
  | nil => cases hm
  | drop _ _ ih => exact ih hm
  | keep hq _ ih => exact (List.mem_cons.1 hm).elim (fun he => he ▸ hq) ih

end Sifted

namespace Solver

open Run Context

variable {f : Formula} {sets s : Nat → Prop} {c d : Context} {a : Nat} {l : Literal}

/-- The mark of an atom is there. -/
theorem gives_markOf : Gives (markOf a) d (a < d.marks.size) (marked d a) d := by
  unfold markOf
  rw [gives_bind_get]
  cases hm : d.marks[a]? with
  | none => exact .inr ⟨Nat.not_lt.2 (Array.getElem?_eq_none_iff.1 hm), d, rfl⟩
  | some mark =>
    rw [marked, Array.getD_eq_getD_getElem?, hm]
    exact .inl rfl

theorem gives_setMark {mark : Bool} : Gives (setMark a mark) d (a < d.marks.size) () (d.withMark a mark) := by
  unfold setMark
  exact gives_bind_get.2 (gives_bind_require decide_eq_true fun _ => gives_modify)

theorem answers_clearMarks : ∀ (atoms : List Nat) (d : Context) (s : Nat → Prop), Working c d → Marks d s →
    (∀ a ∈ atoms, a < c.atoms.count) →
    Answers (clearMarks atoms) d fun _ e => Working c e ∧ Marks e fun x => s x ∧ x ∉ atoms
  | [], _, _, hw, hm, _ => answers_pure.2 ⟨hw, hm.congr fun x => by simp⟩
  | a :: rest, d, s, hw, hm, hknown => by
    rw [List.forall_mem_cons] at hknown
    show Answers (setMark a false >>= fun _ => clearMarks rest) _ _
    rw [answers_bind, gives_setMark.answers (hw.marksSize ▸ hknown.1)]
    refine (answers_clearMarks rest _ _ (hw.withMark a false) (hm.unmark a) hknown.2).mono fun _ e ⟨hwe, hme⟩ =>
      ⟨hwe, hme.congr fun x => ?_⟩
    rw [List.mem_cons, not_or, and_comm (a := x ≠ a), and_assoc]

/-! ## The cheap way -/

theorem answers_settled (h : Working c d) (hm : Marks d s) (ha : a < d.atoms.count) :
    Answers (Solver.settled a) d fun b e => e = d ∧ (b = true ↔ s a ∨ d.atoms.levelOrZero a = 0) := by
  obtain ⟨r, hr⟩ := AtomTable.exists_record ha
  unfold Solver.settled
  rw [answers_bind, answers_record]
  refine ⟨r, hr, ?_⟩
  rw [answers_bind, gives_markOf.answers (h.lt_marks ha), answers_pure]
  rw [(AtomTable.of_record hr).1, Bool.or_eq_true, hm, beq_iff_eq]
  exact ⟨rfl, Iff.rfl⟩

theorem answers_allSettled (h : Working c d) (hm : Marks d s) : ∀ clause : Clause, (∀ m ∈ clause, m.atom < d.atoms.count) →
    Answers (allSettled a clause) d fun b e => e = d ∧
      (b = true ↔ ∀ m ∈ clause, m.atom ≠ a → s m.atom ∨ d.atoms.levelOrZero m.atom = 0)
  | [], _ => answers_pure.2 ⟨rfl, by simp⟩
  | m :: rest, hknown => by
    have ih := answers_allSettled h hm rest fun n hn => hknown n (List.mem_cons_of_mem _ hn)
    unfold allSettled
    rw [answers_ite]
    constructor
    · intro he
      refine ih.mono fun b e ⟨hed, hb⟩ => ⟨hed, ?_⟩
      rw [hb, List.forall_mem_cons]
      exact ⟨fun h => ⟨fun hne => absurd he hne, h⟩, And.right⟩
    · intro hne
      rw [answers_bind]
      refine (answers_settled h hm (hknown m List.mem_cons_self)).mono fun b e ⟨hed, hb⟩ => ?_
      rw [hed, answers_ite]
      refine ⟨fun hbt => ih.mono fun b e ⟨hed, hb'⟩ => ⟨hed, ?_⟩, fun hbf => answers_pure.2 ⟨rfl, ?_⟩⟩
      · rw [hb', List.forall_mem_cons]
        exact ⟨fun h => ⟨fun _ => hb.1 hbt, h⟩, And.right⟩
      · refine ⟨nofun, fun h => absurd (hb.2 (h m List.mem_cons_self hne)) hbf⟩

/-- **A literal is cheaply redundant if it is backed by what is marked.** -/
theorem answers_cheaplyRedundant (hb : Base f sets c) (h : Working c d) (hm : Marks d s)
    (hl : l.negate ∈ c.trail.literals.toList) :
    Answers (cheaplyRedundant l) d fun b e => e = d ∧ (b = true ↔ c.Backed s l.atom) := by
  obtain ⟨r, hr⟩ := h.exists_record hb.trailed hl
  have hknown : ∀ m, c.Antecedent l.atom m → m.atom < d.atoms.count := fun m hant =>
    h.count ▸ hb.trailed.known_of_negate_mem (hb.trailed.antecedent_mem hl (Literal.atom_negate l ▸ hant))
  unfold cheaplyRedundant
  rw [answers_bind, answers_record]
  refine ⟨r, hr, ?_⟩
  have hreason : c.atoms.reason l.atom = r.reason := ((AtomTable.of_record hr).2.1.trans (h.reason _)).symm
  cases hrr : r.reason with
  | none => exact answers_pure.2 ⟨rfl, nofun, fun hback => absurd (hreason.trans hrr) hback.reason⟩
  | some reason =>
    rw [hrr] at hreason
    cases reason with
    | binary other =>
      refine (answers_settled h hm (hknown other (.binary hreason))).mono fun b e ⟨he, hbt⟩ => ⟨he, ?_⟩
      rw [hbt, h.levelOrZero]
      refine ⟨fun hs => ⟨hreason ▸ nofun, fun m hant => ?_⟩, fun hback => hback.others other (.binary hreason)⟩
      rwa [(antecedent_binary_iff hreason).1 hant]
    | long key =>
      obtain ⟨ls, hkey⟩ := hb.trailed.exists_long hl (by rwa [Literal.atom_negate])
      obtain ⟨stored, hfind, hlits⟩ := ClauseStore.literals?_eq_some_iff.1 (h.clauses.literals key ▸ hkey)
      rw [answers_bind, answers_findClause]
      refine ⟨stored, hfind, ?_⟩
      rw [hlits]
      refine (answers_allSettled h hm _ (h.count ▸ (hb.shaped.long key _ hkey).2.2)).mono fun b e ⟨he, hbt⟩ => ⟨he, ?_⟩
      simp only [hbt, h.levelOrZero]
      refine ⟨fun hs => ⟨hreason ▸ nofun, fun m hant => ?_⟩, fun hback m hmem hne => ?_⟩
      · obtain ⟨hmem, hne⟩ := (antecedent_long_iff hreason hkey).1 hant
        exact hs m hmem hne
      · exact hback.others m ((antecedent_long_iff hreason hkey).2 ⟨hmem, hne⟩)

theorem answers_dropping {test : Literal → Solver Bool} {P : Literal → Prop} : ∀ clause : Clause,
    (∀ m ∈ clause, Answers (test m) d fun b e => e = d ∧ (b = true ↔ P m)) →
    Answers (dropping test clause) d fun kept e => e = d ∧ Sifted P (fun m => ¬P m) clause kept
  | [], _ => answers_pure.2 ⟨rfl, .nil⟩
  | m :: rest, h => by
    unfold dropping
    rw [answers_bind]
    refine (h m List.mem_cons_self).mono fun drop e ⟨he, hdrop⟩ => ?_
    rw [he, answers_bind]
    refine (answers_dropping rest fun n hn => h n (List.mem_cons_of_mem _ hn)).mono fun kept e ⟨he, hk⟩ => ?_
    rw [he, answers_pure]
    cases drop with
    | true => exact ⟨rfl, .drop (hdrop.1 rfl) hk⟩
    | false => exact ⟨rfl, .keep (fun hp => nomatch hdrop.2 hp) hk⟩

/-! ## Along chains of reasons -/

end Solver

namespace Context

open Solver (marked)

/-- How many atoms are not marked. -/
def unmarked (d : Context) : Nat := d.marks.toList.count false

theorem unmarked_le (h : Working c d) : d.unmarked ≤ c.atoms.count := by
  have := List.count_le_length (a := false) (l := d.marks.toList)
  rwa [Array.length_toList, h.marksSize] at this

theorem unmarked_withMark (hm : marked d a = false) (ha : a < d.marks.size) :
    (d.withMark a true).unmarked + 1 = d.unmarked := by
  have hlt : a < d.marks.toList.length := by simpa using ha
  have hat : d.marks.toList[a] = false := by
    rw [marked, Array.getD_eq_getD_getElem?, Array.getElem?_eq_getElem ha] at hm
    simpa using hm
  have hpos : 0 < d.marks.toList.count false := List.count_pos_iff.2 (hat ▸ List.getElem_mem _)
  unfold unmarked withMark
  rw [Array.toList_setIfInBounds, List.count_set (by simpa using ha), hat]
  rw [if_pos (BEq.rfl), if_neg (by decide)]
  omega

/-- A mask has the bits of the levels of a clause. -/
def Masks (c : Context) (clause : Clause) (mask : Nat) : Prop :=
  ∀ i, mask.testBit i = true ↔ ∃ m ∈ clause, Solver.levelBit (c.atoms.levelOrZero m.atom) = i

/-- A chase for an atom, with some atoms marked before: every atom it is to explain is on the stack or backed, and what is
on the stack is false, has a reason, and is hopeless only if the goal is. -/
structure Chasing (c d : Context) (clause : Clause) (before : Nat → Prop) (goal : Nat) (ch : Solver.Chase) : Prop where
  working : Working c d
  marks : Marks d fun x => before x ∨ x ∈ ch.found
  fresh : ∀ x ∈ ch.found, ¬before x
  stack : ∀ l ∈ ch.stack, l.negate ∈ c.trail.literals.toList ∧ c.atoms.reason l.atom ≠ none ∧
    (c.Hopeless clause l.atom → c.Hopeless clause goal)
  todo : ∀ x, x = goal ∨ x ∈ ch.found → x ∈ ch.stack.map Literal.atom ∨ c.Backed (fun y => before y ∨ y ∈ ch.found) x

/-- What comes of a chase: the atoms it has marked, and either they and the goal are backed, or the goal is hopeless. -/
structure Chased (c : Context) (clause : Clause) (before : Nat → Prop) (goal : Nat) (r : Bool × List Nat) (d : Context) :
    Prop where
  working : Working c d
  marks : Marks d fun x => before x ∨ x ∈ r.2
  fresh : ∀ x ∈ r.2, ¬before x
  backed : r.1 = true → ∀ x, x = goal ∨ x ∈ r.2 → c.Backed (fun y => before y ∨ y ∈ r.2) x
  hopeless : r.1 = false → c.Hopeless clause goal

/-- What comes of going through literals of the reason of one: some were marked and put on the stack, and either all are
settled then, or the one is hopeless. -/
structure Explained (c : Context) (clause : Clause) (before : Nat → Prop) (l : Literal) (literals : Clause)
    (ch : Solver.Chase) (d : Context) (r : Bool × Solver.Chase) (e : Context) : Prop where
  working : Working c e
  marks : Marks e fun x => before x ∨ x ∈ r.2.found
  more : ∃ more : List Literal, r.2.stack = more ++ ch.stack ∧ r.2.found = more.map Literal.atom ++ ch.found ∧
    (∀ m ∈ more, m.negate ∈ c.trail.literals.toList ∧ c.atoms.reason m.atom ≠ none ∧ ¬before m.atom ∧
      (c.Hopeless clause m.atom → c.Hopeless clause l.atom)) ∧ more.length + e.unmarked = d.unmarked
  settled : r.1 = true → ∀ m ∈ literals, m.atom ≠ l.atom →
    (before m.atom ∨ m.atom ∈ r.2.found) ∨ c.atoms.levelOrZero m.atom = 0
  hopeless : r.1 = false → c.Hopeless clause l.atom

section

variable {before : Nat → Prop} {goal : Nat} {literals : Clause} {ch : Solver.Chase} {r : Bool × Solver.Chase} {d e : Context}
  {m : Literal} {stack : List Literal} {found : List Nat}

theorem Explained.found_subset (h : Explained c clause before l literals ch d r e) {x : Nat} (hx : x ∈ ch.found) :
    x ∈ r.2.found := by
  obtain ⟨more, -, hfound, -⟩ := h.more
  rw [hfound]
  exact List.mem_append_right _ hx

/-- A literal that is settled already changes nothing. -/
theorem Explained.skip (h : Explained c clause before l literals ch d r e)
    (hm : m.atom ≠ l.atom → (before m.atom ∨ m.atom ∈ ch.found) ∨ c.atoms.levelOrZero m.atom = 0) :
    Explained c clause before l (m :: literals) ch d r e :=
  have hhead : m.atom ≠ l.atom → (before m.atom ∨ m.atom ∈ r.2.found) ∨ c.atoms.levelOrZero m.atom = 0 := fun hne =>
    (hm hne).imp_left (Or.imp_right h.found_subset)
  { h with settled := fun ht => List.forall_mem_cons.2 ⟨hhead, h.settled ht⟩ }

/-- A literal that was marked and put on the stack is among those. -/
theorem Explained.push (h : Explained c clause before l literals { stack := m :: ch.stack, found := m.atom :: ch.found }
      (d.withMark m.atom true) r e) (hfewer : (d.withMark m.atom true).unmarked + 1 = d.unmarked)
    (hmn : m.negate ∈ c.trail.literals.toList) (hr : c.atoms.reason m.atom ≠ none) (hnew : ¬before m.atom)
    (hback : c.Hopeless clause m.atom → c.Hopeless clause l.atom) : Explained c clause before l (m :: literals) ch d r e where
  working := h.working
  marks := h.marks
  more := by
    obtain ⟨more, hstack, hfound, hmore, hleft⟩ := h.more
    refine ⟨more ++ [m], by simp [hstack], by simp [hfound], fun n hn => ?_, ?_⟩
    · rcases List.mem_append.1 hn with hn | hn
      · exact hmore n hn
      · rw [List.mem_singleton.1 hn]
        exact ⟨hmn, hr, hnew, hback⟩
    · rw [List.length_append, List.length_singleton]
      omega
  settled ht := List.forall_mem_cons.2 ⟨fun _ => .inl (.inr (h.found_subset List.mem_cons_self)), h.settled ht⟩
  hopeless := h.hopeless

/-- Nothing marked yet. -/
theorem Explained.start (hw : Working c d) (hm : Marks d fun x => before x ∨ x ∈ ch.found) {b : Bool}
    (ht : b = true → ∀ m ∈ literals, m.atom ≠ l.atom → (before m.atom ∨ m.atom ∈ ch.found) ∨ c.atoms.levelOrZero m.atom = 0)
    (hf : b = false → c.Hopeless clause l.atom) : Explained c clause before l literals ch d (b, ch) d :=
  ⟨hw, hm, ⟨[], rfl, rfl, nofun, Nat.zero_add _⟩, ht, hf⟩

theorem Explained.fresh (h : Explained c clause before l literals ch d r e) (hf : ∀ x ∈ ch.found, ¬before x) :
    ∀ x ∈ r.2.found, ¬before x := by
  obtain ⟨more, -, hfound, hmore, -⟩ := h.more
  intro x hx
  rw [hfound] at hx
  rcases List.mem_append.1 hx with hx | hx
  · obtain ⟨m, hm, rfl⟩ := List.mem_map.1 hx
    exact (hmore m hm).2.2.1
  · exact hf x hx

/-- **Where all of a reason is settled its literal is backed**, and the chase goes on with what was put on the stack. -/
theorem Chasing.explained (h : Chasing c d clause before goal { stack := l :: stack, found })
    (he : Explained c clause before l literals { stack, found } d r e) (hr : r.1 = true)
    (hlit : ∀ m, c.Antecedent l.atom m → m ∈ literals ∧ m.atom ≠ l.atom) : Chasing c e clause before goal r.2 := by
  obtain ⟨hl, hreason, hhope⟩ := h.stack l List.mem_cons_self
  obtain ⟨more, hstack, hfound, hmore, -⟩ := he.more
  refine ⟨he.working, he.marks, he.fresh h.fresh, fun m hm => ?_, fun x hx => ?_⟩
  · rw [hstack] at hm
    rcases List.mem_append.1 hm with hm | hm
    · obtain ⟨hmn, hmr, -, hback⟩ := hmore m hm
      exact ⟨hmn, hmr, fun hh => hhope (hback hh)⟩
    · exact h.stack m (List.mem_cons_of_mem _ hm)
  · rw [hfound, List.mem_append] at hx
    rw [hstack, List.map_append, List.mem_append]
    by_cases hxm : x ∈ more.map Literal.atom
    · exact .inl (.inl hxm)
    rcases h.todo x (hx.imp_right fun hx => hx.resolve_left hxm) with hs | hback
    · rw [List.map_cons] at hs
      rcases List.mem_cons.1 hs with rfl | hs
      · exact .inr ⟨hreason, fun m hm => he.settled hr m (hlit m hm).1 (hlit m hm).2⟩
      · exact .inl (.inr hs)
    · exact .inr (hback.mono fun y => Or.imp_right he.found_subset)

/-- The stack and what is not marked get smaller. -/
theorem Explained.measure (h : Explained c clause before l literals { stack, found } d r e) {fuel : Nat}
    (hfuel : (l :: stack).length + d.unmarked ≤ fuel + 1) : r.2.stack.length + e.unmarked ≤ fuel := by
  obtain ⟨more, hstack, -, -, hleft⟩ := h.more
  rw [List.length_cons] at hfuel
  rw [hstack, List.length_append]
  dsimp only
  omega

end

end Context

namespace Solver

open Run Context

variable {f : Formula} {sets before : Nat → Prop} {c d : Context} {clause : Clause} {mask a goal : Nat} {l : Literal}

/-- **Going through a reason** marks what is not settled yet and puts it on the stack, or gives up because the literal is
hopeless. -/
theorem answers_explain (ht : Trailed f c) (hmask : c.Masks clause mask) (hin : ∀ m ∈ clause, before m.atom)
    (hl : l.negate ∈ c.trail.literals.toList) : ∀ (literals : Clause) (ch : Chase) (d : Context), Working c d →
    Marks d (fun x => before x ∨ x ∈ ch.found) → (∀ m ∈ literals, m.atom ≠ l.atom → c.Antecedent l.atom m) →
    Answers (explain mask l.atom literals ch) d fun r e => Explained c clause before l literals ch d r e
  | [], ch, d, hw, hm, _ => answers_pure.2 (.start hw hm (fun _ => by simp) nofun)
  | m :: rest, ch, d, hw, hm, hant => by
    have hrest : ∀ n ∈ rest, n.atom ≠ l.atom → c.Antecedent l.atom n :=
      fun n hnr => hant n (List.mem_cons_of_mem _ hnr)
    unfold explain
    rw [answers_ite]
    refine ⟨fun he => ?_, fun hne => ?_⟩
    · exact (answers_explain ht hmask hin hl rest ch d hw hm hrest).mono fun r e h => h.skip fun hne => absurd he hne
    have hantm := hant m List.mem_cons_self hne
    have hmn := ht.antecedent_mem hl (Literal.atom_negate l ▸ hantm)
    obtain ⟨r, hr⟩ := hw.exists_record ht hmn
    rw [answers_bind, answers_record]
    refine ⟨r, hr, ?_⟩
    have hknown : m.atom < d.marks.size := hw.marksSize ▸ ht.known_of_negate_mem hmn
    rw [answers_bind, gives_markOf.answers hknown, (AtomTable.of_record hr).1, (AtomTable.of_record hr).2.1, hw.levelOrZero,
      hw.reason, answers_ite, Bool.or_eq_true, hm, beq_iff_eq]
    refine ⟨fun hs => ?_, fun hs => ?_⟩
    · exact (answers_explain ht hmask hin hl rest ch d hw hm hrest).mono fun r e h => h.skip fun _ => hs
    obtain ⟨hnew, hlevel⟩ := not_or.1 hs
    have hout : m.atom ∉ clause.map Literal.atom := fun hmem => by
      obtain ⟨n, hn, he⟩ := List.mem_map.1 hmem
      exact hnew (.inl (he ▸ hin n hn))
    rw [answers_ite, Bool.and_eq_true, Option.isSome_iff_ne_none]
    refine ⟨fun hs => ?_, fun hs => answers_pure.2 (.start hw hm nofun fun _ => ?_)⟩
    · rw [answers_bind, gives_setMark.answers hknown]
      have hm' : Marks (d.withMark m.atom true) fun x => before x ∨ x ∈ m.atom :: ch.found :=
        (hm.mark hknown).congr fun x => by rw [List.mem_cons, or_left_comm]
      have hfewer : (d.withMark m.atom true).unmarked + 1 = d.unmarked :=
        unmarked_withMark (Bool.eq_false_iff.2 fun hmk => hnew ((hm _).1 hmk)) hknown
      exact (answers_explain ht hmask hin hl rest { stack := m :: ch.stack, found := m.atom :: ch.found } _
        (hw.withMark m.atom true) hm' hrest).mono fun r e h =>
          h.push hfewer hmn hs.1 (fun hb => hnew (.inl hb)) fun hh => .back hantm hout hlevel hh
    · by_cases hreason : c.atoms.reason m.atom = none
      · exact .back hantm hout hlevel (.bare hreason)
      · exact .off hantm hout hlevel fun n hn he => hs ⟨hreason, (hmask _).2 ⟨n, hn, he⟩⟩

/-- The literals of a reason are what its literal goes back to, and that literal. -/
theorem answers_reasonLiterals (ht : Trailed f c) (hw : Working c d) (hl : l.negate ∈ c.trail.literals.toList) :
    Answers (reasonLiterals (c.atoms.reason l.atom)) d fun literals e => e = d ∧
      ∀ m, c.Antecedent l.atom m ↔ m ∈ literals ∧ m.atom ≠ l.atom := by
  unfold reasonLiterals
  cases hr : c.atoms.reason l.atom with
  | none => exact answers_pure.2 ⟨rfl, fun m => by simp [not_antecedent_of_none hr]⟩
  | some reason =>
    cases reason with
    | binary other =>
      refine answers_pure.2 ⟨rfl, fun m => ?_⟩
      rw [antecedent_binary_iff hr, List.mem_singleton]
      refine ⟨fun he => ⟨he, fun ha => ?_⟩, And.left⟩
      subst he
      exact ht.antecedent_atom_ne hl (.binary (by rwa [Literal.atom_negate])) (by rwa [Literal.atom_negate])
    | long key =>
      obtain ⟨ls, hkey⟩ := ht.exists_long hl (by rwa [Literal.atom_negate])
      obtain ⟨stored, hfind, hlits⟩ := ClauseStore.literals?_eq_some_iff.1 (hw.clauses.literals key ▸ hkey)
      dsimp only
      rw [answers_bind, answers_findClause]
      refine ⟨stored, hfind, ?_⟩
      rw [answers_pure, hlits]
      exact ⟨rfl, fun m => antecedent_long_iff hr hkey⟩

/-- **A chase that succeeds has backed its goal and all it marked, and one that fails has a hopeless goal.**  Whatever comes
on the stack is marked, so what is on the stack and what is not marked bound the chase. -/
theorem answers_chase (ht : Trailed f c) (hmask : c.Masks clause mask) (hin : ∀ m ∈ clause, before m.atom) :
    ∀ (fuel : Nat) (ch : Chase) (d : Context), Chasing c d clause before goal ch → ch.stack.length + d.unmarked ≤ fuel →
    Answers (chase mask fuel ch) d fun r e => Chased c clause before goal r e
  | fuel, { stack := [], found }, d, h, _ => by
    unfold chase
    exact answers_pure.2 ⟨h.working, h.marks, h.fresh, fun _ x hx => (h.todo x hx).resolve_left (by simp), nofun⟩
  | 0, { stack := l :: stack, found }, d, h, hfuel => absurd hfuel (by simp)
  | fuel + 1, { stack := l :: stack, found }, d, h, hfuel => by
    obtain ⟨hl, -, hhope⟩ := h.stack l List.mem_cons_self
    obtain ⟨r, hr⟩ := h.working.exists_record ht hl
    unfold chase
    rw [answers_bind, answers_record]
    refine ⟨r, hr, ?_⟩
    rw [(AtomTable.of_record hr).2.1, h.working.reason, answers_bind]
    refine (answers_reasonLiterals ht h.working hl).mono fun literals e ⟨he, hlit⟩ => ?_
    rw [he, answers_bind]
    refine (answers_explain ht hmask hin hl literals { stack, found } d h.working h.marks
      fun m hm hne => (hlit m).2 ⟨hm, hne⟩).mono fun r' e hexplained => ?_
    obtain ⟨ok, next⟩ := r'
    cases ok with
    | false =>
      exact answers_pure.2 ⟨hexplained.working, hexplained.marks, hexplained.fresh h.fresh, nofun,
        fun _ => hhope (hexplained.hopeless rfl)⟩
    | true =>
      exact answers_chase ht hmask hin fuel next e (h.explained hexplained rfl fun m => (hlit m).1)
        (hexplained.measure hfuel)

/-- **A literal that chains of reasons make redundant is backed, with all that was marked.**  If it is not, it is hopeless,
and marks are as before. -/
theorem answers_redundant (ht : Trailed f c) (hmask : c.Masks clause mask) (hin : ∀ m ∈ clause, before m.atom)
    (h : Working c d) (hm : Marks d before) (hl : l.negate ∈ c.trail.literals.toList)
    (hr : c.atoms.reason l.atom ≠ none) :
    Answers (redundant mask l) d fun r e => Chased c clause before l.atom r e ∧
      ∀ x ∈ r.2, c.Backed (fun y => before y ∨ y ∈ r.2) x := by
  unfold redundant
  rw [answers_bind, answers_get, answers_bind]
  have hch : Chasing c d clause before l.atom { stack := [l], found := [] } := by
    refine ⟨h, hm.congr fun x => by simp, nofun, fun m hm => ?_, fun x hx => .inl ?_⟩
    · rw [List.mem_singleton.1 hm]
      exact ⟨hl, hr, id⟩
    · rw [List.map_singleton, List.mem_singleton]
      exact hx.resolve_right (by simp)
  have hfuel : [l].length + d.unmarked ≤ d.atoms.count + 1 := by
    have := unmarked_le h
    rw [h.count, List.length_singleton]
    omega
  refine (answers_chase ht hmask hin _ _ d hch hfuel).mono fun r e he => ?_
  obtain ⟨ok, found⟩ := r
  cases ok with
  | true => exact answers_pure.2 ⟨he, fun x hx => he.backed rfl x (.inr hx)⟩
  | false =>
    show Answers (clearMarks found >>= fun _ => pure (false, [])) _ _
    rw [answers_bind]
    refine (answers_clearMarks found e _ he.working he.marks fun x hx => he.marks.lt he.working (.inr hx)).mono fun _ u ⟨hwu, hmu⟩ => ?_
    refine answers_pure.2 ⟨⟨hwu, hmu.congr fun x => ?_, nofun, nofun, fun _ => he.hopeless rfl⟩, nofun⟩
    exact ⟨fun hx => .inl (hx.1.resolve_right hx.2), fun hx =>
      have hx := hx.resolve_right (by simp)
      ⟨.inl hx, fun hin => he.fresh x hin hx⟩⟩

/-- **What is kept is hopeless, and what is dropped is backed**, by the atoms of the clause and those marked. -/
theorem answers_droppingRedundant (ht : Trailed f c) (hmask : c.Masks clause mask) :
    ∀ (literals : Clause) (found : List Nat) (d : Context), Working c d →
    Marks d (fun x => x ∈ clause.map Literal.atom ∨ x ∈ found) →
    (∀ m ∈ literals, m.negate ∈ c.trail.literals.toList) →
    (∀ x ∈ found, c.Backed (fun y => y ∈ clause.map Literal.atom ∨ y ∈ found) x) →
    Answers (droppingRedundant mask literals found) d fun r e => Working c e ∧
      Marks e (fun x => x ∈ clause.map Literal.atom ∨ x ∈ r.2) ∧
      Sifted (fun m => c.Backed (fun y => y ∈ clause.map Literal.atom ∨ y ∈ r.2) m.atom)
        (fun m => c.Hopeless clause m.atom) literals r.1 ∧
      (∀ x ∈ found, x ∈ r.2) ∧ ∀ x ∈ r.2, c.Backed (fun y => y ∈ clause.map Literal.atom ∨ y ∈ r.2) x
  | [], found, d, hw, hm, _, hf => answers_pure.2 ⟨hw, hm, .nil, fun _ => id, hf⟩
  | m :: rest, found, d, hw, hm, hn, hf => by
    have hrest : ∀ n ∈ rest, n.negate ∈ c.trail.literals.toList := fun n hnr => hn n (List.mem_cons_of_mem _ hnr)
    obtain ⟨r, hr⟩ := hw.exists_record ht (hn m List.mem_cons_self)
    unfold droppingRedundant
    rw [answers_bind, answers_record]
    refine ⟨r, hr, ?_⟩
    rw [(AtomTable.of_record hr).2.1, hw.reason, answers_ite, Option.isNone_iff_eq_none]
    refine ⟨fun hnone => ?_, fun hsome => ?_⟩
    · rw [answers_bind]
      refine (answers_droppingRedundant ht hmask rest found d hw hm hrest hf).mono
        fun r' e ⟨hwe, hme, hsifted, hin, hback⟩ => ?_
      exact answers_pure.2 ⟨hwe, hme, .keep (.bare hnone) hsifted, hin, hback⟩
    · rw [answers_bind]
      refine (answers_redundant ht hmask (fun n hn => .inl (List.mem_map_of_mem hn)) hw hm (hn m List.mem_cons_self)
        hsome).mono fun r' e ⟨hchased, hmore⟩ => ?_
      obtain ⟨drop, more⟩ := r'
      have hswap : ∀ y, (y ∈ clause.map Literal.atom ∨ y ∈ found) ∨ y ∈ more ↔
          y ∈ clause.map Literal.atom ∨ y ∈ more ++ found := fun y => by
        rw [List.mem_append, or_assoc, or_comm (a := y ∈ found)]
      rw [answers_bind]
      refine (answers_droppingRedundant ht hmask rest (more ++ found) e hchased.working (hchased.marks.congr hswap) hrest
        fun x hx => ?_).mono fun r'' u ⟨hwu, hmu, hsifted, hin, hback⟩ => ?_
      · rcases List.mem_append.1 hx with hx | hx
        · exact (hmore x hx).mono fun y => (hswap y).1
        · exact (hf x hx).mono fun y hy => (hswap y).1 (.inl hy)
      · obtain ⟨kept, left⟩ := r''
        rw [answers_pure]
        refine ⟨hwu, hmu, ?_, fun x hx => hin x (List.mem_append_right _ hx), hback⟩
        cases drop with
        | true => exact .drop ((hchased.backed rfl _ (.inl rfl)).mono fun y hy => ((hswap y).1 hy).imp_right (hin y)) hsifted
        | false => exact .keep (hchased.hopeless rfl) hsifted

theorem answers_levelMask : ∀ (clause : Clause) (mask : Nat), (∀ m ∈ clause, m.atom < d.atoms.count) →
    Answers (levelMask mask clause) d fun mask' e => e = d ∧ ∀ i, mask'.testBit i = true ↔
      mask.testBit i = true ∨ ∃ m ∈ clause, levelBit (d.atoms.levelOrZero m.atom) = i
  | [], _, _ => answers_pure.2 ⟨rfl, by simp⟩
  | m :: rest, mask, hknown => by
    obtain ⟨r, hr⟩ := AtomTable.exists_record (hknown m List.mem_cons_self)
    unfold levelMask
    rw [answers_bind, answers_record]
    refine ⟨r, hr, (answers_levelMask rest _ fun n hn => hknown n (List.mem_cons_of_mem _ hn)).mono
      fun mask' e ⟨he, hbits⟩ => ⟨he, fun i => ?_⟩⟩
    rw [hbits, (AtomTable.of_record hr).1, Nat.testBit_or, Nat.one_shiftLeft, Nat.testBit_two_pow, Bool.or_eq_true,
      decide_eq_true_iff, or_assoc]
    simp

/-! ## Minimized clauses -/

end Solver

namespace Context

/-- What a minimization leaves of a clause, given by its literals of lower levels.  What it drops is backed by these and by
atoms that were marked on the way, which are so too. -/
structure Minimized (c : Context) (kept? : Literal → Prop) (asserting : Literal) (lower minimal : Clause)
    (found : List Nat) (d : Context) : Prop where
  working : Working c d
  marks : Marks d fun x => x ∈ lower.map Literal.atom ∨ x ∈ found
  clause : ∃ kept, minimal = asserting :: kept ∧
    Sifted (fun m => c.Backed (fun x => x ∈ lower.map Literal.atom ∨ x ∈ found) m.atom) kept? lower kept
  backed : ∀ x ∈ found, c.Backed (fun x => x ∈ lower.map Literal.atom ∨ x ∈ found) x

variable {kept? : Literal → Prop} {asserting : Literal} {lower minimal : Clause} {found : List Nat}

theorem Minimized.weaken (h : Minimized c kept? asserting lower minimal found d) :
    Minimized c (fun _ => True) asserting lower minimal found d :=
  have ⟨kept, he, hsifted⟩ := h.clause
  { h with clause := ⟨kept, he, hsifted.mono (fun _ _ => id) fun _ _ _ => trivial⟩ }

/-- **A minimized clause follows from the formula** if the whole clause does. -/
theorem Minimized.entails (h : Minimized c kept? asserting lower minimal found d) (hb : Base f settled c)
    (he : f.Entails (asserting :: lower)) (hl : ∀ l ∈ lower, l.negate ∈ c.trail.literals.toList) : f.Entails minimal := by
  obtain ⟨kept, rfl, hsifted⟩ := h.clause
  exact entails_of_backed hb.trailed hb.denotes he hl (fun l hll => hsifted.mem_or hll)
    fun a ha => ha.imp_right (h.backed a)

end Context

namespace Solver

open Run Context

variable {f : Formula} {sets : Nat → Prop} {c d : Context} {asserting : Literal} {lower : Clause}

/-- **What is cheaply dropped is backed by the clause**, and nothing else is dropped. -/
theorem answers_minimizeCheap (hb : Base f sets c) (h : Working c d) (hm : Marks d fun x => x ∈ lower.map Literal.atom)
    (hl : ∀ l ∈ lower, l.negate ∈ c.trail.literals.toList) :
    Answers (minimizeCheap (asserting :: lower)) d fun minimal e => e = d ∧
      Minimized c (fun m => ¬c.Backed (fun x => x ∈ lower.map Literal.atom) m.atom) asserting lower minimal [] e := by
  unfold minimizeCheap
  rw [answers_bind]
  refine (answers_dropping lower fun m hmem => answers_cheaplyRedundant hb h hm (hl m hmem)).mono
    fun kept e ⟨hed, hsifted⟩ => ?_
  rw [hed, answers_pure]
  exact ⟨rfl, h, hm.congr fun x => by simp, ⟨kept, rfl, hsifted.mono (fun m _ hback => hback.mono fun _ => .inl)
    fun _ _ => id⟩, nofun⟩

/-- **What is recursively dropped is backed by the clause and by what is backed itself**, and what is kept is hopeless. -/
theorem answers_minimizeRecursive (ht : Trailed f c) (h : Working c d) (hm : Marks d fun x => x ∈ lower.map Literal.atom)
    (hl : ∀ l ∈ lower, l.negate ∈ c.trail.literals.toList) :
    Answers (minimizeRecursive (asserting :: lower)) d fun r e =>
      Minimized c (fun m => c.Hopeless lower m.atom) asserting lower r.1 r.2 e := by
  have hknown : ∀ m ∈ lower, m.atom < d.atoms.count := fun m hmem => h.count ▸ ht.known_of_negate_mem (hl m hmem)
  unfold minimizeRecursive
  rw [answers_bind]
  refine (answers_levelMask lower 0 hknown).mono fun mask e ⟨hed, hbits⟩ => ?_
  have hmask : c.Masks lower mask := fun i => by simp [hbits, h.levelOrZero]
  rw [hed, answers_bind]
  refine (answers_droppingRedundant ht hmask lower [] d h (hm.congr fun x => by simp) hl nofun).mono
    fun r e ⟨hwe, hme, hsifted, _, hback⟩ => ?_
  obtain ⟨kept, found⟩ := r
  rw [answers_pure]
  exact ⟨hwe, hme, ⟨kept, rfl, hsifted⟩, hback⟩

end Solver
end Cdcl
