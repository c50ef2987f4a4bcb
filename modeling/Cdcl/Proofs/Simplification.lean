import Cdcl.Proofs.Propagation
import Cdcl.Proofs.Storing
import Cdcl.Solver.Simplification
/-!
# Simplification — level zero takes clauses away and makes them shorter

A clause with a literal true at level zero follows from level zero, and a clause without its literals false at level zero
follows from the formula.  So a simplification keeps the invariant.  It makes no new partners: where all is propagated,
neither watch of a clause that level zero does not satisfy is false, so the watches stay, also when the two are all that
is left (`meets_simplifyClause`).
-/
namespace Cdcl
namespace Context

variable {f : Formula} {settled : Nat → Prop} {c d e : Context} {l : Literal} {key : ClauseKey}

namespace Rooted

theorem trueAtRoot_iff (h : Rooted f settled c) : c.atoms.trueAtRoot l = true ↔ l ∈ c.trail.literals.toList := by
  rw [AtomTable.trueAtRoot, Bool.and_eq_true, h.trailed.isTrue_iff_mem, beq_iff_eq]
  exact ⟨And.left, fun hl => ⟨hl, h.levelOrZero_eq hl⟩⟩

theorem falseAtRoot_iff (h : Rooted f settled c) :
    c.atoms.falseAtRoot l = true ↔ l.negate ∈ c.trail.literals.toList := by
  rw [AtomTable.falseAtRoot, Bool.and_eq_true, h.trailed.isFalse_iff_mem, beq_iff_eq]
  refine ⟨And.left, fun hl => ⟨hl, ?_⟩⟩
  rw [← Literal.atom_negate]
  exact h.levelOrZero_eq hl

/-- **Level zero leaves the two watches of a clause it does not satisfy.** -/
theorem watches_free (h : Rooted f settled c) {a b : Literal} {rest : Clause}
    (hk : c.clauses.literals? key = some (a :: b :: rest)) (hs : ∀ m ∈ a :: b :: rest, m ∉ c.trail.literals.toList) :
    a.negate ∉ c.trail.literals.toList ∧ b.negate ∉ c.trail.literals.toList := by
  have hcurrent := h.current
  rw [Current, Trail.before_of_size_le (Nat.le_refl _)] at hcurrent
  exact ⟨fun ha => hs b (by simp) (hcurrent a b (.first hk) ha), fun hb => hs a (by simp) (hcurrent b a (.second hk) hb)⟩

/-- **What level zero leaves of a clause follows** from the formula. -/
theorem entails_atRoot (h : Rooted f settled c) {a b : Literal} {rest : Clause} (he : f.Entails (a :: b :: rest)) :
    f.Entails (a :: b :: rest.filter fun l => !c.atoms.falseAtRoot l) := by
  refine h.trailed.entails_without_zero h.denotes he fun m hm => ?_
  rcases List.mem_cons.1 hm with rfl | hm
  · exact .inl (by simp)
  rcases List.mem_cons.1 hm with rfl | hm
  · exact .inl (by simp)
  cases hfalse : c.atoms.falseAtRoot m with
  | false =>
    refine .inl (List.mem_cons_of_mem _ (List.mem_cons_of_mem _ ?_))
    exact List.mem_filter.2 ⟨hm, by simp [hfalse]⟩
  | true =>
    have hmt := h.falseAtRoot_iff.1 hfalse
    exact .inr ⟨hmt, Literal.atom_negate m ▸ h.levelOrZero_eq hmt⟩

end Rooted

theorem Relit.cleared {a b : Literal} {rest left : Clause} (h : Relit c key (a :: b :: left) d)
    (hk : c.clauses.literals? key = some (a :: b :: rest))
    (hn : ∀ l ∈ c.trail.literals.toList, c.atoms.reason l.atom ≠ some (.long key)) : Cleared c key d := by
  refine h.toSameTrail.cleared (fun x y hp => ?_) (fun k hne => (h.literals k).trans (if_neg hne)) hn
  cases hp with
  | binary hb => exact .binary (h.binary x ▸ hb)
  | first hm =>
    rw [h.literals] at hm
    split at hm
    · cases hm
      exact .first hk
    · exact .first hm
  | second hm =>
    rw [h.literals] at hm
    split at hm
    · cases hm
      exact .second hk
    · exact .second hm

/-- **A clause may be made shorter behind its watches**, where its first literal is not true. -/
theorem Sound.shortened {a b : Literal} {rest left : Clause} (h : Sound f settled c)
    (hk : c.clauses.literals? key = some (a :: b :: rest)) (hs : left.Sublist rest) (hne : left ≠ [])
    (he : f.Entails (a :: b :: left)) (ha : a ∉ c.trail.literals.toList) (hr : Relit c key (a :: b :: left) d)
    (hw : d.watches = c.watches) (hm : d.marks = c.marks) : Sound f settled d := by
  obtain ⟨-, hnodup, -⟩ := h.shaped.long key _ hk
  have hsub : (a :: b :: left).Sublist (a :: b :: rest) := (hs.cons_cons b).cons_cons a
  refine ⟨h.relit hr hk ?_ (hnodup.sublist (hsub.map _)) (fun l hl => hsub.subset hl) he (fun l _ hold hl _ => ?_)
    (.of_swap hk (.inl rfl)), ?_, by rw [hm, hr.atoms, h.marks]⟩
  · cases left with
    | nil => exact absurd rfl hne
    | cons third left => simp
  · cases hold
    exact absurd hl ha
  · rw [hw]
    exact h.listed.reorder hk hr.literals (by simp)

/-! ## Binary clauses -/

/-- The binary clauses of a literal have gone. -/
structure Thinned (c : Context) (l : Literal) (d : Context) : Prop extends SameTrail c d where
  clauses : d.clauses = c.clauses
  count : ∀ m x, (d.watches.binaryOf m).toList.count x =
    if m = l ∨ x = l then 0 else (c.watches.binaryOf m).toList.count x
  sizes : d.watches.binary.size = c.watches.binary.size ∧ d.watches.long.size = c.watches.long.size

theorem Thinned.mem_iff (h : Thinned c l d) {m x : Literal} :
    x ∈ (d.watches.binaryOf m).toList ↔ ¬(m = l ∨ x = l) ∧ x ∈ (c.watches.binaryOf m).toList := by
  rw [← List.count_pos_iff, ← List.count_pos_iff, h.count]
  split <;> simp [*]

theorem Thinned.trimmed (h : Thinned c l d) : Trimmed c d where
  toSameTrail := h.toSameTrail
  partners a b hp := by
    cases hp with
    | binary hm => exact .binary (h.mem_iff.1 hm).2
    | first hk => exact .first (h.clauses ▸ hk)
    | second hk => exact .second (h.clauses ▸ hk)
  reasons _ _ _ _ := by rw [h.clauses]

/-- **The binary clauses of a literal true at level zero may go.** -/
theorem Base.thin (hb : Base f settled c) (h : Thinned c l d) (hl : l ∈ c.trail.upTo 0) : Base f settled d := by
  refine hb.recast h.toSameTrail (fun _ => id) (fun k p rest hk _ _ => ⟨rest, h.clauses ▸ hk, fun _ => id⟩) ?_
    (h.clauses ▸ hb.slotted) ?_ fun k hk hlt a b hp hm => hb.below k hk hlt a b (h.trimmed.partners a b hp) hm
  · refine ⟨by rw [h.sizes.1, h.atoms, hb.shaped.binarySize], by rw [h.sizes.2, h.atoms, hb.shaped.longSize],
      ?_, fun x y hxy => ?_, fun x y => ?_, h.atoms ▸ hb.shaped.bounded⟩
    · rw [h.clauses, h.atoms]
      exact hb.shaped.long
    · rw [h.atoms]
      exact hb.shaped.binary x y (h.mem_iff.1 hxy).2
    · rw [h.count, h.count, hb.shaped.symmetric x y]
      simp only [or_comm]
  · refine ⟨h.atoms ▸ hb.denotes.known, fun x y hxy => hb.denotes.binary x y (h.mem_iff.1 hxy).2,
      h.clauses ▸ hb.denotes.long, h.units ▸ hb.denotes.units, fun v hbin hlong hz => ?_⟩
    rw [h.trail] at hz
    rw [h.clauses] at hlong
    refine hb.denotes.complete v (fun x y hxy => ?_) hlong hz
    by_cases hin : x = l ∨ y = l
    · rcases hin with rfl | rfl
      · exact ⟨_, List.mem_cons_self, hz _ hl⟩
      · exact ⟨_, by simp, hz _ hl⟩
    · exact hbin x y (h.mem_iff.2 ⟨hin, hxy⟩)

end Context

namespace Solver

open Run Context

variable {f : Formula} {settled : Nat → Prop} {c : Context} {l : Literal} {key : ClauseKey}

theorem meets_removeBinaryOf (h : Sound f settled c) (hl : l ∈ c.trail.upTo 0) :
    Meets (onWatches (Watches.Call.removeBinaryOf l)) c (fun _ d => Sound f settled d ∧ Thinned c l d)
      (fun _ => False) := by
  rw [meets_onWatches]
  unfold Watches.Call.removeBinaryOf
  rw [meets_bind, meets_get, meets_bind, meets_require]
  intro _
  rw [meets_modifyGet]
  have hknown := h.trailed.mem_known (Trail.upTo_subset_literals hl)
  have hthin : Thinned c l { c with watches := (c.watches.removeBinaryOf l).2 } :=
    ⟨⟨rfl, rfl, rfl, rfl⟩, rfl, Watches.count_removeBinaryOf (h.shaped.index_lt hknown).1 h.shaped.symmetric,
      Watches.binary_removeBinaryOf_size .., rfl⟩
  exact ⟨⟨h.toBase.thin hthin hl, h.listed, h.marks⟩, hthin⟩

theorem meets_dropBinary : ∀ (list : List Literal) (c : Context), Sound f settled c →
    (∀ l ∈ list, l ∈ c.trail.upTo 0) →
    Meets (dropBinary list) c (fun _ d => Sound f settled d ∧ Trimmed c d) (fun _ => False)
  | [], c, h, _ => ⟨h, .refl c⟩
  | l :: rest, c, h, hl => by
    unfold dropBinary
    rw [meets_bind]
    refine (meets_removeBinaryOf h (hl l List.mem_cons_self)).mono (fun _ d ⟨hd, ht⟩ => ?_) fun _ => id
    refine (meets_dropBinary rest d hd fun m hm => ?_).mono (fun _ e ⟨he, ht'⟩ => ⟨he, ht.trimmed.trans ht'⟩) fun _ => id
    rw [ht.trail]
    exact hl m (List.mem_cons_of_mem _ hm)

/-! ## Long clauses -/

/-- A clause that level zero satisfies goes, unless it is a reason. -/
theorem meets_dropSatisfied {old : Clause} (h : Rooted f settled c) (hk : c.clauses.literals? key = some old)
    (hs : ∃ l ∈ old, l ∈ c.trail.literals.toList) (hlocked : c.locked key = false) :
    Meets (removeLong key) c (fun _ d => Sound f settled d ∧ Cleared c key d) (fun _ => False) := by
  have hreason := not_reason_of_locked h.trailed hk hlocked
  refine (meets_removeLong_sound h.toSound hk hreason fun _ v _ hz => ?_).mono
    (fun _ d ⟨hd, hr⟩ => ⟨hd, hr.cleared (h.trailed.not_reason hk hreason)⟩) fun _ => id
  obtain ⟨l, hl, hlt⟩ := hs
  exact ⟨l, hl, hz l (h.upTo_zero.symm ▸ hlt)⟩

/-- What level zero leaves of a clause it does not satisfy: the watches, and what is not false of the rest. -/
theorem atRoot_eq {stored : StoredClause} (h : Rooted f settled c) (hfind : c.clauses.find key = .ok stored)
    (hs : ∀ m ∈ stored.literals, m ∉ c.trail.literals.toList) :
    ∃ a b rest, stored.literals = a :: b :: rest ∧
      stored.atRoot c.atoms = a :: b :: rest.filter fun l => !c.atoms.falseAtRoot l := by
  have hk := ClauseStore.literals?_of_find hfind
  obtain ⟨a, b, rest, hlits⟩ := h.shaped.exists_watched hk
  refine ⟨a, b, rest, hlits, ?_⟩
  rw [hlits] at hk hs
  obtain ⟨ha, hb⟩ := h.watches_free hk hs
  rw [← h.falseAtRoot_iff, Bool.not_eq_true] at ha hb
  rw [StoredClause.atRoot, hlits, List.filter_cons_of_pos (by simp [ha]), List.filter_cons_of_pos (by simp [hb])]

/-- A clause of which the two watches are left becomes a binary clause. -/
theorem meets_makeBinary {a b : Literal} {rest : Clause} {t : ClauseStore} (h : Rooted f settled c)
    (hk : c.clauses.literals? key = some (a :: b :: rest)) (hs : ∀ m ∈ a :: b :: rest, m ∉ c.trail.literals.toList)
    (he : f.Entails [a, b]) (hslotted : t.Slotted)
    (hnew : ∀ k, t.literals? k = if k = key then some [a, b] else c.clauses.literals? k) :
    Meets (do
      removeLong key
      onWatches (Watches.Call.watchBinary a b)) { c with clauses := t }
      (fun _ d => Sound f settled d ∧ Cleared c key d) (fun _ => False) := by
  obtain ⟨-, hnodup, hknown⟩ := h.shaped.long key _ hk
  have hne : a.atom ≠ b.atom := fun e => by simp [e] at hnodup
  have hkey : t.literals? key = some [a, b] := by rw [hnew, if_pos rfl]
  rw [meets_bind]
  refine (meets_removeLong hslotted hkey).mono (fun _ d ⟨u, hr, hd⟩ => ?_) fun _ => id
  rw [hd, meets_onWatches]
  refine Watches.meets_watchBinary fun _ _ => ?_
  have hka := h.shaped.knows (hknown a (by simp))
  have hkb := h.shaped.knows (hknown b (by simp))
  -- as if the binary clause had come first, and the long one, which follows from it, had gone then
  have hpaired : Paired c a b { c with watches := c.watches.watchBinary a b } :=
    ⟨⟨rfl, rfl, rfl, rfl⟩, rfl, Watches.count_watchBinary hka hkb fun e => hne (congrArg Literal.atom e), by
      simp [Watches.watchBinary]⟩
  have hpair := h.toBase.pair (.of_entails h.denotes he) hpaired hne (hknown a (by simp)) (hknown b (by simp))
    (fun k _ hlt => absurd hlt (by rw [h.level]; exact Nat.not_lt_zero k))
  have hgone : ∀ k, u.literals? k = if k = key then none else c.clauses.literals? k := fun k => by
    rw [hr.literals, hnew]
    split <;> rfl
  have hremoved : RemovedLong { c with watches := c.watches.watchBinary a b } key { c with
      clauses := u, watches := ((c.watches.unwatchLong a key).unwatchLong b key).watchBinary a b } :=
    ⟨⟨rfl, rfl, rfl, rfl⟩, hgone, hr.slotted, fun _ => rfl, by simp [Watches.watchBinary, Watches.unwatchLong]⟩
  have hreason : ∀ l others, a :: b :: rest = l :: others → l ∈ c.trail.literals.toList →
      c.atoms.reason l.atom ≠ some (.long key) := fun l others hold hl => by
    cases hold
    exact absurd hl (hs _ List.mem_cons_self)
  refine ⟨⟨hpair.removeLong hremoved hk hreason fun _ v hbin _ => ?_, ?_, h.marks⟩,
    SameTrail.cleared ⟨rfl, rfl, rfl, rfl⟩ (fun x y hp => ?_) (fun k hne => (hgone k).trans (if_neg hne))
      (h.trailed.not_reason hk hreason)⟩
  · exact (hbin a b (hpaired.mem_iff.2 (.inl (.inl ⟨rfl, rfl⟩)))).mono (by simp)
  · exact Watches.listed_unwatch h.listed hk hgone
  · rcases hpaired.partners (hremoved.partners hp) with hp | ⟨rfl, rfl⟩ | ⟨rfl, rfl⟩
    · exact hp
    · exact .first hk
    · exact .second hk

/-- Whether a literal of a clause is true at level zero can be told if they are all known. -/
theorem gives_someTrueAtRoot : ∀ clause : Clause,
    Gives (someTrueAtRoot clause) c (∀ l ∈ clause, l.atom < c.atoms.count) (clause.any c.atoms.trueAtRoot) c
  | [] => gives_pure
  | l :: rest => by
    unfold someTrueAtRoot
    refine gives_bind_record (fun ok => ok l List.mem_cons_self) fun r hr => ?_
    have htest : (r.value == some l.positive && r.level.getD 0 == 0) = c.atoms.trueAtRoot l := by
      have hrecord := AtomTable.of_record hr
      rw [hrecord.1, hrecord.2.2, AtomTable.trueAtRoot, Bool.eq_iff_iff, Bool.and_eq_true, Bool.and_eq_true,
        AtomTable.isTrue_iff, beq_iff_eq]
    rw [htest, List.any_cons]
    cases c.atoms.trueAtRoot l with
    | true => exact gives_pure
    | false => exact (gives_someTrueAtRoot rest).mono fun ok m hm => ok m (List.mem_cons_of_mem _ hm)

/-- **A clause may lose its literals false at level zero**, and becomes a binary clause when two are left. -/
theorem meets_simplifyClause (h : Rooted f settled c) :
    Meets (simplifyClause key) c (fun _ d => Sound f settled d ∧ Cleared c key d) (fun d => d = c) := by
  unfold simplifyClause
  rw [meets_bind, meets_findClause]
  refine ⟨fun stored hfind => ?_, fun _ _ => rfl⟩
  have hk := ClauseStore.literals?_of_find hfind
  rw [meets_bind]
  refine (gives_someTrueAtRoot stored.literals).meets ?_
  rw [meets_ite]
  constructor
  · intro hsat
    obtain ⟨l, hl, hlt⟩ := List.any_eq_true.1 hsat
    rw [meets_bind]
    refine gives_isLocked.meets ?_
    rw [meets_ite]
    refine ⟨fun _ => ⟨h.toSound, .refl c key⟩, fun hlocked => ?_⟩
    exact (meets_dropSatisfied h hk ⟨l, hl, h.trueAtRoot_iff.1 hlt⟩ (by simpa using hlocked)).mono (fun _ _ => id)
      fun _ => False.elim
  · intro hsat
    have hs : ∀ m ∈ stored.literals, m ∉ c.trail.literals.toList := fun m hm hmt =>
      hsat (List.any_eq_true.2 ⟨m, hm, h.trueAtRoot_iff.2 hmt⟩)
    obtain ⟨a, b, rest, hlits, hatRoot⟩ := atRoot_eq h hfind hs
    rw [hlits] at hk hs
    rw [meets_bind, meets_get]
    dsimp only
    rw [meets_bind, meets_require]
    intro _
    rw [meets_ite, hatRoot]
    refine ⟨fun _ => ⟨h.toSound, .refl c key⟩, fun _ => ?_⟩
    dsimp only
    have he := h.entails_atRoot (h.denotes.long key _ hk)
    have hsub : (rest.filter fun l => !c.atoms.falseAtRoot l).Sublist rest := List.filter_sublist
    generalize (rest.filter fun l => !c.atoms.falseAtRoot l) = left at he hsub ⊢
    rw [meets_bind, meets_modify, meets_bind, meets_onClauses]
    refine (ClauseStore.meets_noteLiteralsRemoved (ClauseStore.slotted_setLiterals h.slotted key _) key _).mono
      (fun _ t ⟨hslotted, hlt⟩ => ?_) fun _ => False.elim
    have hnew : ∀ k, t.literals? k = if k = key then some (a :: b :: left) else c.clauses.literals? k := fun k => by
      rw [hlt, ClauseStore.literals?_setLiterals hk]
    rw [meets_ite]
    constructor
    · intro hnil
      rw [List.isEmpty_iff] at hnil
      subst hnil
      exact (meets_makeBinary h hk hs he hslotted hnew).mono (fun _ _ => id) fun _ => False.elim
    · intro hne
      have hrelit : Relit c key (a :: b :: left) { c with clauses := t } :=
        ⟨⟨rfl, rfl, rfl, rfl⟩, hnew, hslotted, fun _ => rfl, rfl, rfl⟩
      have hnil : left ≠ [] := fun e => hne (List.isEmpty_iff.2 e)
      refine ⟨h.toSound.shortened hk hsub hnil he (hs a List.mem_cons_self) hrelit rfl rfl,
        hrelit.cleared hk (h.trailed.not_reason hk fun l others hold hl => ?_)⟩
      cases hold
      exact absurd hl (hs _ List.mem_cons_self)

/-! ## All clauses -/

theorem meets_simplifyAll (h : Rooted f settled c) :
    Meets simplifyAll c (fun _ d => Sound f settled d ∧ Trimmed c d) (fun d => Sound f settled d ∧ Trimmed c d) := by
  unfold simplifyAll
  rw [meets_bind, meets_get, meets_bind]
  refine (meets_dropBinary _ c h.toSound fun l hl => h.upTo_zero.symm ▸ hl).mono (fun _ d ⟨hd, ht⟩ => ?_)
    fun _ => False.elim
  rw [meets_bind, meets_get, meets_bind]
  refine (meets_forM (I := fun _ e => Sound f settled e ∧ Trimmed c e) (fun key _ e ⟨he, ht⟩ => ?_) _ d ⟨hd, ht⟩).mono
    (fun _ e ⟨he, ht⟩ => ?_) fun _ => id
  · exact (meets_simplifyClause (h.trimmed he ht)).mono (fun _ u ⟨hu, ht'⟩ => ⟨hu, ht.trans ht'.toTrimmed⟩)
      fun u hu => hu ▸ ⟨he, ht⟩
  · rw [meets_modify]
    have halike : Alike e { e with schedule := { e.schedule with
        simplifiedAt := some e.trail.size, simplifyIn := literalCount e } } := .of_eq rfl rfl rfl rfl rfl
    exact ⟨halike.sound he rfl, ⟨ht.trail, ht.atoms, ht.units, ht.course⟩,
      fun a b hp => ht.partners a b (halike.partners hp), ht.reasons⟩

/-- Where all is propagated there is nothing to propagate. -/
theorem propagate_of_head (h : c.trail.head = c.trail.size) : propagate c = .ok .complete c := by
  have hdone : c.trail.propagated = true := decide_eq_true (Nat.le_of_eq h.symm)
  have hnone : c.trail.literals[c.trail.head]? = none := Array.getElem?_eq_none (Nat.le_of_eq h.symm)
  unfold propagate
  rw [bind_of_ok (get_apply c)]
  generalize c.trail.literals.size - c.trail.head + c.atoms.count = fuel
  cases fuel with
  | zero =>
    unfold propagateFor
    rw [bind_of_ok (get_apply c), if_pos hdone]
    rfl
  | succ fuel =>
    unfold propagateFor
    rw [bind_of_ok (get_apply c), hnone]
    rfl

theorem answers_propagate_rest (h : c.trail.head = c.trail.size) {Q : Propagated → Context → Prop}
    (hq : Q .complete c) : Answers propagate c Q := ⟨_, c, propagate_of_head h, hq⟩

/-- **A simplification at level zero keeps the invariant**, the trail and the values. -/
theorem meets_simplify (h : Rooted f settled c) :
    Meets simplify c (fun _ d => Sound f settled d ∧ Trimmed c d) (fun d => Sound f settled d ∧ Trimmed c d) := by
  unfold simplify
  rw [meets_bind, meets_get, meets_ite]
  refine ⟨fun _ => ⟨h.toSound, .refl c⟩, fun _ => ?_⟩
  rw [meets_ite]
  refine ⟨fun _ => ⟨h.toSound, .refl c⟩, fun _ => ?_⟩
  rw [meets_bind]
  refine (answers_propagate_rest h.head ?_).meets
  dsimp only
  rw [meets_bind, meets_get, meets_ite]
  exact ⟨fun _ => ⟨h.toSound, .refl c⟩, fun _ => meets_simplifyAll h⟩

end Solver
end Cdcl
