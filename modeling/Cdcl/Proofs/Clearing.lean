import Cdcl.Proofs.Passage
import Cdcl.Proofs.Readiness
import Cdcl.Proofs.Stopping
/-!
# Clearing — a simplification leaves nothing that level zero says

What a simplification leaves of a clause is told by the clause and by level zero (`Context.left`, `Context.pairs`): the keys
are gone through one after the other, and what becomes of one clause changes neither the trail nor the other clauses
(`Pared.cons`).  So where it has gone through all of them, a literal with a value is in no clause but in those that are
reasons (`Simplified`), and a further simplification finds nothing to do (`Rooted.spent`).
-/
namespace Cdcl

namespace Context

/-- Whether level zero makes a clause true. -/
def satisfies (c : Context) (clause : Clause) : Bool := clause.any c.atoms.trueAtRoot

/-- A clause without its literals that are false at level zero. -/
def stripped (c : Context) (clause : Clause) : Clause := clause.filter fun l => !c.atoms.falseAtRoot l

/-- What a simplification leaves under the key of a clause. -/
def left (c : Context) (key : ClauseKey) (clause : Clause) : Option Clause :=
  if c.satisfies clause then if c.locked key then some clause else none
  else if (c.stripped clause).length = 2 then none else some (c.stripped clause)

/-- Whether a simplification makes the binary clause of two literals of a clause. -/
def pairs (c : Context) (a b : Literal) (clause : Clause) : Bool :=
  !c.satisfies clause && (c.stripped clause == [a, b] || c.stripped clause == [b, a])

/-- The clause of a key was simplified. -/
structure Pared (c : Context) (key : ClauseKey) (old : Clause) (d : Context) : Prop extends SameTrail c d where
  literals : ∀ k, d.clauses.literals? k = if k = key then c.left key old else c.clauses.literals? k
  binary : ∀ a b, (d.watches.binaryOf a).toList.count b =
    (c.watches.binaryOf a).toList.count b + if c.pairs a b old then 1 else 0

/-- The clauses of some keys were simplified. -/
structure ParedAll (c : Context) (keys : List ClauseKey) (d : Context) : Prop extends SameTrail c d where
  literals : ∀ k, d.clauses.literals? k =
    if k ∈ keys then (c.clauses.literals? k).bind (c.left k) else c.clauses.literals? k
  binary : ∀ a b, (d.watches.binaryOf a).toList.count b = (c.watches.binaryOf a).toList.count b +
    keys.countP fun k => (c.clauses.literals? k).any (c.pairs a b)

/-- The binary clauses of some literals have gone. -/
structure Swept (c : Context) (list : List Literal) (d : Context) : Prop extends SameTrail c d where
  clauses : d.clauses = c.clauses
  count : ∀ m x, (d.watches.binaryOf m).toList.count x =
    if m ∈ list ∨ x ∈ list then 0 else (c.watches.binaryOf m).toList.count x

variable {f : Formula} {settled : Nat → Prop} {c d e : Context} {l : Literal} {key : ClauseKey} {old ls : Clause}
  {keys : List ClauseKey}

/-! ## One clause after the other -/

/-- Whether a clause is a reason is told by the clause and the trail. -/
theorem SameTrail.locked (h : SameTrail c d) (hk : d.clauses.literals? key = c.clauses.literals? key) :
    d.locked key = c.locked key := by
  rw [Bool.eq_iff_iff, locked_iff, locked_iff, hk, h.atoms]

theorem SameTrail.left (h : SameTrail c d) (hk : d.clauses.literals? key = c.clauses.literals? key) :
    d.left key = c.left key := by
  funext clause
  unfold Context.left satisfies stripped
  rw [h.locked hk, h.atoms]

theorem SameTrail.pairs (h : SameTrail c d) {a b : Literal} : d.pairs a b = c.pairs a b := by
  funext clause
  unfold Context.pairs satisfies stripped
  rw [h.atoms]

theorem ParedAll.nil (c : Context) : ParedAll c [] c := ⟨⟨rfl, rfl, rfl, rfl⟩, by simp, by simp⟩

/-- **A clause is simplified, and then others**: what becomes of these does not depend on the first. -/
theorem Pared.cons (h : Pared c key old d) (hk : c.clauses.literals? key = some old) (hkeys : key ∉ keys)
    (h' : ParedAll d keys e) : ParedAll c (key :: keys) e := by
  have hother : ∀ k ∈ keys, d.clauses.literals? k = c.clauses.literals? k := fun k hmem => by
    rw [h.literals, if_neg fun he : k = key => hkeys (he ▸ hmem)]
  refine ⟨h.toSameTrail.trans h'.toSameTrail, fun k => ?_, fun a b => ?_⟩
  · rw [h'.literals]
    by_cases hmem : k ∈ keys
    · rw [if_pos hmem, if_pos (List.mem_cons_of_mem _ hmem), hother k hmem, h.left (hother k hmem)]
    · rw [if_neg hmem, h.literals]
      by_cases he : k = key
      · rw [if_pos he, if_pos (he ▸ List.mem_cons_self), he, hk, Option.bind_some]
      · rw [if_neg he, if_neg fun hc => (List.mem_cons.1 hc).elim he hmem]
  · have hcount : keys.countP (fun k => (d.clauses.literals? k).any (d.pairs a b)) =
        keys.countP fun k => (c.clauses.literals? k).any (c.pairs a b) :=
      List.countP_congr fun k hmem => by rw [hother k hmem, h.pairs]
    rw [h'.binary, h.binary, hcount, List.countP_cons, hk, Option.any_some]
    omega

theorem Swept.nil (c : Context) : Swept c [] c := ⟨⟨rfl, rfl, rfl, rfl⟩, rfl, by simp⟩

theorem Thinned.cons {list : List Literal} (h : Thinned c l d) (h' : Swept d list e) : Swept c (l :: list) e := by
  refine ⟨h.toSameTrail.trans h'.toSameTrail, h'.clauses.trans h.clauses, fun m x => ?_⟩
  rw [h'.count, h.count]
  simp only [List.mem_cons]
  grind

theorem Swept.trimmed {list : List Literal} (h : Swept c list d) : Trimmed c d where
  toSameTrail := h.toSameTrail
  partners a b hp := by
    cases hp with
    | binary hb =>
      rw [← List.count_pos_iff, h.count] at hb
      split at hb
      · exact absurd hb (Nat.lt_irrefl 0)
      · exact .binary (List.count_pos_iff.1 hb)
    | first hk => exact .first (h.clauses ▸ hk)
    | second hk => exact .second (h.clauses ▸ hk)
  reasons _ _ _ _ := by rw [h.clauses]

/-! ## Level zero -/

theorem Rooted.satisfies_iff (h : Rooted f settled c) :
    c.satisfies ls = true ↔ ∃ l ∈ ls, l ∈ c.trail.literals.toList := by
  unfold satisfies
  simp only [List.any_eq_true, h.trueAtRoot_iff]

theorem Rooted.not_satisfies_iff (h : Rooted f settled c) :
    c.satisfies ls = false ↔ ∀ l ∈ ls, l ∉ c.trail.literals.toList := by
  rw [← Bool.not_eq_true, h.satisfies_iff]
  simp only [not_exists, not_and]

/-- **A locked clause is true at level zero.** -/
theorem Rooted.satisfies_of_locked (h : Rooted f settled c) (hk : c.clauses.literals? key = some ls)
    (hl : c.locked key = true) : c.satisfies ls = true := by
  obtain ⟨first, rest, hk', ht, -⟩ := locked_iff.1 hl
  rw [hk, Option.some.injEq] at hk'
  subst hk'
  exact h.satisfies_iff.2 ⟨first, List.mem_cons_self, h.trailed.isTrue_iff_mem.1 ht⟩

/-- What is left of a clause that level zero does not make true has no value. -/
theorem Rooted.value_of_mem_stripped (h : Rooted f settled c) (hs : c.satisfies ls = false) (hl : l ∈ c.stripped ls) :
    c.atoms.value l.atom = none := by
  obtain ⟨hl, hfalse⟩ := List.mem_filter.1 hl
  refine h.trailed.value_eq_none (h.not_satisfies_iff.1 hs l hl) fun hn => ?_
  simp [h.falseAtRoot_iff.2 hn] at hfalse

/-- **Two literals at least are left** of a clause that level zero does not make true: its watches. -/
theorem Rooted.stripped_eq (h : Rooted f settled c) (hk : c.clauses.literals? key = some ls)
    (hs : c.satisfies ls = false) : ∃ a b rest, ls = a :: b :: rest ∧ c.stripped ls = a :: b :: c.stripped rest := by
  obtain ⟨stored, hfind, rfl⟩ := ClauseStore.literals?_eq_some_iff.1 hk
  obtain ⟨a, b, rest, hlits, hroot⟩ := Solver.atRoot_eq h hfind (h.not_satisfies_iff.1 hs)
  exact ⟨a, b, rest, hlits, hroot⟩

/-! ## What is left of one clause -/

theorem left_of_locked (hs : c.satisfies ls = true) (hl : c.locked key = true) : c.left key ls = some ls := by
  rw [left, if_pos hs, if_pos hl]

theorem left_of_free (hs : c.satisfies ls = true) (hl : c.locked key = false) : c.left key ls = none := by
  rw [left, if_pos hs, if_neg (by rw [hl]; nofun)]

theorem left_of_two (hs : c.satisfies ls = false) (hlen : (c.stripped ls).length = 2) : c.left key ls = none := by
  rw [left, if_neg (by rw [hs]; nofun), if_pos hlen]

theorem left_of_more (hs : c.satisfies ls = false) (hlen : (c.stripped ls).length ≠ 2) :
    c.left key ls = some (c.stripped ls) := by
  rw [left, if_neg (by rw [hs]; nofun), if_neg hlen]

theorem pairs_of_satisfies (hs : c.satisfies ls = true) (a b : Literal) : c.pairs a b ls = false := by
  rw [pairs, hs]
  rfl

theorem pairs_of_more (hlen : (c.stripped ls).length ≠ 2) (a b : Literal) : c.pairs a b ls = false := by
  have hne : ∀ x y : Literal, c.stripped ls ≠ [x, y] := fun x y he => hlen (congrArg List.length he)
  rw [pairs, beq_eq_false_iff_ne.2 (hne a b), beq_eq_false_iff_ne.2 (hne b a), Bool.or_false, Bool.and_false]

/-- The binary clause made of what is left is that of its two literals, in either order. -/
theorem pairs_iff_of_two {a b x y : Literal} (hs : c.satisfies ls = false) (he : c.stripped ls = [a, b]) :
    c.pairs x y ls = true ↔ x = a ∧ y = b ∨ x = b ∧ y = a := by
  rw [pairs, hs, he]
  simp only [Bool.not_false, Bool.true_and, Bool.or_eq_true, beq_iff_eq, List.cons.injEq, and_true]
  grind

/-- A clause that stays as it is was simplified. -/
theorem Pared.stay (hk : c.clauses.literals? key = some old) (hl : c.left key old = some old)
    (hp : ∀ a b, c.pairs a b old = false) : Pared c key old c where
  toSameTrail := ⟨rfl, rfl, rfl, rfl⟩
  literals k := by
    split
    · rename_i he
      rw [he, hk, hl]
    · rfl
  binary a b := by rw [hp]; rfl

theorem Pared.remove (hr : RemovedLong c key d) (hl : c.left key old = none) (hp : ∀ a b, c.pairs a b old = false) :
    Pared c key old d where
  toSameTrail := hr.toSameTrail
  literals k := by rw [hr.literals, hl]
  binary a b := by rw [hr.binary, hp]; rfl

theorem Pared.relit (hr : Relit c key ls d) (hl : c.left key old = some ls) (hp : ∀ a b, c.pairs a b old = false) :
    Pared c key old d where
  toSameTrail := hr.toSameTrail
  literals k := by rw [hr.literals, hl]
  binary a b := by rw [hr.binary, hp]; rfl

end Context

namespace Solver

open Run Context

variable {f : Formula} {settled : Nat → Prop} {c d : Context} {l : Literal} {key : ClauseKey} {old : Clause}

/-- A clause of which two literals are left becomes a binary clause. -/
theorem meets_makeBinary_pared {a b : Literal} {t : ClauseStore} (hslotted : t.Slotted) (hne : a ≠ b)
    (hnew : ∀ k, t.literals? k = if k = key then some [a, b] else c.clauses.literals? k)
    (hs : c.satisfies old = false) (he : c.stripped old = [a, b]) :
    Meets (do
      removeLong key
      onWatches (Watches.Call.watchBinary a b)) { c with clauses := t } (fun _ d => Pared c key old d)
      (fun _ => True) := by
  have hkey : t.literals? key = some [a, b] := by rw [hnew, if_pos rfl]
  rw [meets_bind]
  refine (meets_removeLong hslotted hkey).mono (fun _ d ⟨u, hr, hd⟩ => ?_) fun _ _ => trivial
  rw [hd, meets_onWatches]
  refine Watches.meets_watchBinary fun hka hkb => ⟨⟨rfl, rfl, rfl, rfl⟩, fun k => ?_, fun x y => ?_⟩
  · rw [left_of_two hs (by rw [he]; rfl)]
    show u.literals? k = _
    rw [hr.literals, hnew]
    split <;> rfl
  · refine (Watches.count_watchBinary hka hkb hne x y).trans (congrArg₂ (· + ·) rfl ?_)
    simp only [pairs_iff_of_two hs he]

/-- **A clause is simplified as it and level zero tell.** -/
theorem meets_simplifyClause_pared (h : Rooted f settled c) (hk : c.clauses.literals? key = some old) :
    Meets (simplifyClause key) c (fun _ d => Pared c key old d) (fun _ => True) := by
  obtain ⟨stored, hfind, rfl⟩ := ClauseStore.literals?_eq_some_iff.1 hk
  unfold simplifyClause
  rw [meets_bind, meets_findClause]
  refine ⟨fun s hs => ?_, fun _ _ => trivial⟩
  obtain rfl : stored = s := Except.ok.inj (hfind.symm.trans hs)
  rw [meets_bind]
  refine (gives_someTrueAtRoot stored.literals).meets ?_
  rw [meets_ite]
  constructor
  · intro (hsat : c.satisfies stored.literals = true)
    rw [meets_bind]
    refine gives_isLocked.meets ?_
    rw [meets_ite]
    refine ⟨fun hl => .stay hk (left_of_locked hsat hl) (pairs_of_satisfies hsat), fun hl => ?_⟩
    rw [Bool.not_eq_true] at hl
    refine (meets_removeLong_sound h.toSound hk (not_reason_of_locked h.trailed hk hl) fun _ v _ hz => ?_).mono
      (fun _ d ⟨_, hr⟩ => .remove hr (left_of_free hsat hl) (pairs_of_satisfies hsat)) fun _ _ => trivial
    obtain ⟨l, hm, hlt⟩ := h.satisfies_iff.1 hsat
    exact ⟨l, hm, hz l (h.upTo_zero.symm ▸ hlt)⟩
  · intro hsat
    have hsat : c.satisfies stored.literals = false := Bool.not_eq_true _ ▸ hsat
    obtain ⟨hlen, hnodup, -⟩ := h.shaped.long key _ hk
    obtain ⟨a, b, rest, hlits, hstripped⟩ := h.stripped_eq hk hsat
    have hatRoot : stored.atRoot c.atoms = c.stripped stored.literals := rfl
    rw [meets_bind, meets_get]
    dsimp only
    rw [meets_bind, meets_require]
    intro _
    rw [meets_ite, hatRoot]
    refine ⟨fun hnone => ?_, fun _ => ?_⟩
    · have hle : (c.stripped stored.literals).length ≤ stored.literals.length := List.length_filter_le ..
      have hsame : c.stripped stored.literals = stored.literals :=
        List.filter_sublist.eq_of_length (Nat.le_antisymm hle (Nat.sub_eq_zero_iff_le.1 hnone))
      have hmore : (c.stripped stored.literals).length ≠ 2 := by
        rw [hsame]
        omega
      exact .stay hk ((left_of_more hsat hmore).trans (congrArg some hsame)) (pairs_of_more hmore)
    · have hnew := fun left => ClauseStore.literals?_setLiterals hk left
      rw [hstripped]
      dsimp only
      rw [meets_bind, meets_modify, meets_bind, meets_onClauses]
      refine (ClauseStore.meets_noteLiteralsRemoved (ClauseStore.slotted_setLiterals h.slotted key _) key _).mono
        (fun _ t ⟨hslotted, hlt⟩ => ?_) fun _ _ => trivial
      rw [meets_ite]
      refine ⟨fun hnil => ?_, fun hne => ?_⟩
      · rw [List.isEmpty_iff] at hnil
        rw [hnil] at hstripped hlt
        refine meets_makeBinary_pared hslotted (fun he => ?_) (fun k => (hlt k).trans (hnew _ k)) hsat hstripped
        rw [hlits] at hnodup
        simp [he] at hnodup
      · have hmore : (c.stripped stored.literals).length ≠ 2 := by
          rw [hstripped]
          rw [List.isEmpty_iff] at hne
          simpa using hne
        have hrelit : Relit c key (a :: b :: c.stripped rest) { c with clauses := t } :=
          ⟨⟨rfl, rfl, rfl, rfl⟩, fun k => (hlt k).trans (hnew _ k), hslotted, fun _ => rfl, rfl, rfl⟩
        exact .relit hrelit ((left_of_more hsat hmore).trans (congrArg some hstripped)) (pairs_of_more hmore)

/-! ## All clauses -/

/-- **The binary clauses of literals true at level zero go**, and no others. -/
theorem meets_dropBinary_swept : ∀ (list : List Literal) (c : Context), Sound f settled c →
    (∀ l ∈ list, l ∈ c.trail.upTo 0) →
    Meets (dropBinary list) c (fun _ d => Sound f settled d ∧ Swept c list d) (fun _ => False)
  | [], c, h, _ => ⟨h, .nil c⟩
  | l :: rest, c, h, hl => by
    unfold dropBinary
    rw [meets_bind]
    refine (meets_removeBinaryOf h (hl l List.mem_cons_self)).mono (fun _ d hd => ?_) fun _ => id
    obtain ⟨hd, ht⟩ := hd
    have hrest : ∀ m ∈ rest, m ∈ d.trail.upTo 0 := fun m hm => by
      rw [ht.trail]
      exact hl m (List.mem_cons_of_mem _ hm)
    exact (meets_dropBinary_swept rest d hd hrest).mono (fun _ _ he => he.imp_right ht.cons) fun _ => id

/-- **Each of some clauses is simplified**, whatever became of those before it. -/
theorem meets_simplifyEach : ∀ (keys : List ClauseKey) (c : Context), Rooted f settled c → Listing keys c →
    Meets (keys.forM simplifyClause) c (fun _ d => Sound f settled d ∧ ParedAll c keys d) (fun _ => True)
  | [], c, h, _ => ⟨h.toSound, .nil c⟩
  | key :: rest, c, h, hl => by
    obtain ⟨ls, hk⟩ := hl.found key List.mem_cons_self
    show Meets (simplifyClause key >>= fun _ => rest.forM simplifyClause) c _ _
    rw [meets_bind]
    refine ((meets_simplifyClause h).and (meets_simplifyClause_pared h hk)).mono (fun _ d ⟨⟨hd, hc⟩, hp⟩ => ?_)
      fun _ _ => trivial
    refine (meets_simplifyEach rest d (h.trimmed hd hc.toTrimmed) (hl.tail hc.elsewhere)).mono
      (fun _ e ⟨he, hp'⟩ => ⟨he, hp.cons hk (List.nodup_cons.1 hl.nodup).1 hp'⟩) fun _ _ => trivial

end Solver

namespace Context

variable {f : Formula} {settled : Nat → Prop} {c d e : Context} {key : ClauseKey} {ls : Clause}

/-- The clause of a key is the reason of its first literal. -/
def Grounds (c : Context) (key : ClauseKey) (clause : Clause) : Prop :=
  ∃ first rest, clause = first :: rest ∧ first ∈ c.trail.literals.toList ∧ c.atoms.reason first.atom = some (.long key)

/-- What becomes of a clause of three literals or more when level zero is used up. -/
inductive Fate (c : Context) (key : ClauseKey) (old : Clause) (d : Context) : Prop
  | stays (hr : c.Grounds key old) (hd : d.clauses.literals? key = some old)
  | goes (hr : ¬c.Grounds key old) (ht : ∃ l ∈ old, l ∈ c.trail.literals.toList) (hd : d.clauses.literals? key = none)
  | shrinks (hn : ∀ l ∈ old, l ∉ c.trail.literals.toList) (hlen : 3 ≤ (c.stripped old).length)
    (hd : d.clauses.literals? key = some (c.stripped old))
  | pairs (a b : Literal) (hn : ∀ l ∈ old, l ∉ c.trail.literals.toList) (he : c.stripped old = [a, b])
    (hd : d.clauses.literals? key = none) (hb : b ∈ (d.watches.binaryOf a).toList)

/-- **Level zero has been used up.**  Each clause has met its fate, and where a literal has a value, no clause has it but a
reason. -/
structure Simplified (c d : Context) : Prop where
  trail : d.trail = c.trail
  atoms : d.atoms = c.atoms
  fate : ∀ key old, c.clauses.literals? key = some old → Fate c key old d
  found : ∀ key ls, d.clauses.literals? key = some ls → ∃ old, c.clauses.literals? key = some old
  binary : ∀ a b, (d.watches.binaryOf a).toList.count b =
    (if a ∈ c.trail.literals.toList ∨ b ∈ c.trail.literals.toList then 0 else (c.watches.binaryOf a).toList.count b) +
      (c.clauses.inputKeys ++ c.clauses.learntKeys).countP fun key => (c.clauses.literals? key).any (c.pairs a b)
  unvalued : ∀ a b, b ∈ (d.watches.binaryOf a).toList → d.atoms.value a.atom = none ∧ d.atoms.value b.atom = none
  long : ∀ key ls, d.clauses.literals? key = some ls → (∀ l ∈ ls, d.atoms.value l.atom = none) ∨ d.Grounds key ls

theorem Rooted.locked_iff_grounds (h : Rooted f settled c) (hk : c.clauses.literals? key = some ls) :
    c.locked key = true ↔ c.Grounds key ls := by
  rw [locked_iff, hk]
  simp only [Option.some.injEq, h.trailed.isTrue_iff_mem]
  rfl

/-- What a simplification leaves of each clause is its fate. -/
theorem Rooted.fate (h : Rooted f settled c) (hk : c.clauses.literals? key = some ls)
    (hd : d.clauses.literals? key = c.left key ls)
    (hb : ∀ a b, c.pairs a b ls = true → b ∈ (d.watches.binaryOf a).toList) : Fate c key ls d := by
  have hgrounds := h.locked_iff_grounds hk
  cases hs : c.satisfies ls with
  | true =>
    cases hl : c.locked key with
    | true => exact .stays (hgrounds.1 hl) (hd.trans (left_of_locked hs hl))
    | false =>
      refine .goes (fun hr => ?_) (h.satisfies_iff.1 hs) (hd.trans (left_of_free hs hl))
      rw [hgrounds.2 hr] at hl
      cases hl
  | false =>
    have hn := h.not_satisfies_iff.1 hs
    obtain ⟨a, b, rest, -, hstripped⟩ := h.stripped_eq hk hs
    by_cases hlen : (c.stripped ls).length = 2
    · have he : c.stripped ls = [a, b] := by
        rw [hstripped] at hlen ⊢
        simpa using hlen
      exact .pairs a b hn he (hd.trans (left_of_two hs hlen)) (hb a b ((pairs_iff_of_two hs he).2 (.inl ⟨rfl, rfl⟩)))
    · refine .shrinks hn ?_ (hd.trans (left_of_more hs hlen))
      rw [hstripped] at hlen ⊢
      simp only [List.length_cons] at hlen ⊢
      omega

/-- Where all is propagated, a binary clause without a true literal has no literal with a value. -/
theorem Rooted.value_of_binary (h : Rooted f settled c) {a b : Literal} (hb : b ∈ (c.watches.binaryOf a).toList)
    (hb' : b ∉ c.trail.literals.toList) (ha : a ∉ c.trail.literals.toList) : c.atoms.value a.atom = none := by
  have hcurrent := h.current
  rw [Current, Trail.before_of_size_le (Nat.le_refl _)] at hcurrent
  exact h.trailed.value_eq_none ha fun hn => hb' (hcurrent a b (.binary hb) hn)

theorem Rooted.values_of_binary (h : Rooted f settled c) {a b : Literal} (hb : b ∈ (c.watches.binaryOf a).toList)
    (hno : ¬(a ∈ c.trail.literals.toList ∨ b ∈ c.trail.literals.toList)) :
    c.atoms.value a.atom = none ∧ c.atoms.value b.atom = none := by
  obtain ⟨hna, hnb⟩ := not_or.1 hno
  refine ⟨h.value_of_binary hb hnb hna, h.value_of_binary ?_ hna hnb⟩
  rw [← List.count_pos_iff, ← h.shaped.symmetric]
  exact List.count_pos_iff.2 hb

theorem Rooted.values_of_pairs (h : Rooted f settled c) {a b : Literal} (hp : c.pairs a b ls = true) :
    c.atoms.value a.atom = none ∧ c.atoms.value b.atom = none := by
  rw [Context.pairs, Bool.and_eq_true, Bool.not_eq_true', Bool.or_eq_true, beq_iff_eq, beq_iff_eq] at hp
  obtain ⟨hs, hp⟩ := hp
  exact ⟨h.value_of_mem_stripped hs (by rcases hp with hp | hp <;> simp [hp]),
    h.value_of_mem_stripped hs (by rcases hp with hp | hp <;> simp [hp])⟩

/-- What a fate leaves under the key is a reason, or has no literal with a value. -/
theorem Fate.values_or_grounds {old : Clause} (hf : Fate c key old d) (h : Rooted f settled c)
    (hk : d.clauses.literals? key = some ls) : (∀ l ∈ ls, c.atoms.value l.atom = none) ∨ c.Grounds key ls := by
  cases hf with
  | stays hr hd =>
    rw [hk, Option.some.injEq] at hd
    exact .inr (hd ▸ hr)
  | goes _ _ hd => cases hk.symm.trans hd
  | shrinks hn _ hd =>
    rw [hk, Option.some.injEq] at hd
    subst hd
    exact .inl fun l hl => h.value_of_mem_stripped (h.not_satisfies_iff.2 hn) hl
  | pairs _ _ _ _ hd _ => cases hk.symm.trans hd

/-- What is left of each clause, once the binary clauses and then all long ones have been gone through. -/
theorem Swept.literals {list : List Literal} (h : Swept c list d)
    (hp : ParedAll d (d.clauses.inputKeys ++ d.clauses.learntKeys) e) (k : ClauseKey) :
    e.clauses.literals? k = (c.clauses.literals? k).bind (c.left k) := by
  have hsame : d.clauses.literals? k = c.clauses.literals? k := by rw [h.clauses]
  rw [hp.literals, hsame, h.left hsame]
  split
  · rfl
  · rename_i hk
    cases hlits : c.clauses.literals? k with
    | none => rfl
    | some ls =>
      obtain ⟨stored, hfind, -⟩ := ClauseStore.literals?_eq_some_iff.1 hlits
      exact absurd (ClauseStore.mem_keys_of_find (h.clauses.symm ▸ hfind)) hk

/-- **What a simplification of all clauses leaves is simplified.** -/
theorem Rooted.simplified (h : Rooted f settled c) (hsweep : Swept c c.trail.literals.toList d)
    (hpared : ParedAll d (d.clauses.inputKeys ++ d.clauses.learntKeys) e) : Simplified c e := by
  have hleft := hsweep.literals hpared
  have hbinary : ∀ a b, (e.watches.binaryOf a).toList.count b =
      (if a ∈ c.trail.literals.toList ∨ b ∈ c.trail.literals.toList then 0 else (c.watches.binaryOf a).toList.count b) +
        (c.clauses.inputKeys ++ c.clauses.learntKeys).countP fun key => (c.clauses.literals? key).any (c.pairs a b) :=
    fun a b => by rw [hpared.binary, hsweep.count, hsweep.clauses, hsweep.pairs]
  have hatoms : e.atoms = c.atoms := hpared.atoms.trans hsweep.atoms
  have htrail : e.trail = c.trail := hpared.trail.trans hsweep.trail
  have hfound : ∀ key ls, e.clauses.literals? key = some ls → ∃ old, c.clauses.literals? key = some old :=
    fun key ls hk => by
      rw [hleft] at hk
      obtain ⟨old, hold, -⟩ := Option.bind_eq_some_iff.1 hk
      exact ⟨old, hold⟩
  have hfate : ∀ key old, c.clauses.literals? key = some old → Fate c key old e := fun key old hk => by
    refine h.fate hk (by rw [hleft, hk, Option.bind_some]) fun a b hp => ?_
    obtain ⟨stored, hfind, -⟩ := ClauseStore.literals?_eq_some_iff.1 hk
    have hcount : 0 < (c.clauses.inputKeys ++ c.clauses.learntKeys).countP fun key =>
        (c.clauses.literals? key).any (c.pairs a b) :=
      List.countP_pos_iff.2 ⟨key, ClauseStore.mem_keys_of_find hfind, by rw [hk, Option.any_some, hp]⟩
    rw [← List.count_pos_iff, hbinary]
    omega
  refine ⟨htrail, hatoms, hfate, hfound, hbinary, fun a b hb => ?_, fun key ls hk => ?_⟩
  · -- a binary clause was kept, or made of what is left of a clause
    rw [hatoms]
    rw [← List.count_pos_iff, hbinary] at hb
    rcases Nat.add_pos_iff_pos_or_pos.1 hb with hkept | hmade
    · split at hkept
      · exact absurd hkept (Nat.lt_irrefl 0)
      · rename_i hno
        exact h.values_of_binary (List.count_pos_iff.1 hkept) hno
    · obtain ⟨key, -, hp⟩ := List.countP_pos_iff.1 hmade
      obtain ⟨old, -, hp⟩ := (Option.any_eq_true _ _).1 hp
      exact h.values_of_pairs hp
  · obtain ⟨old, hold⟩ := hfound key ls hk
    rw [hatoms]
    refine ((hfate key old hold).values_or_grounds h hk).imp_right fun ⟨first, rest, he, ht, hreason⟩ => ?_
    exact ⟨first, rest, he, htrail.symm ▸ ht, hatoms.symm ▸ hreason⟩

end Context

/-! ## A further simplification -/

namespace Watches

theorem removeBinaryOf_of_empty {w : Watches} {l : Literal} (h : w.binaryOf l = #[]) : w.removeBinaryOf l = (0, w) := by
  have hsame : w.binary.setIfInBounds l.index #[] = w.binary := by
    refine Array.ext_getElem? fun i => ?_
    rw [Array.getElem?_setIfInBounds]
    split
    · rename_i hi
      subst hi
      split
      · rename_i hlt
        rw [binaryOf, Array.getD_eq_getD_getElem?, Array.getElem?_eq_getElem hlt, Option.getD_some] at h
        rw [Array.getElem?_eq_getElem hlt, h]
      · rename_i hlt
        rw [Array.getElem?_eq_none (Nat.le_of_not_lt hlt)]
    · rfl
  unfold removeBinaryOf takeBinary
  dsimp only
  rw [h, hsame]
  rfl

end Watches

namespace Context

/-- A simplification has nothing to do. -/
structure Spent (c : Context) : Prop where
  shaped : Shaped c
  binary : ∀ l ∈ c.trail.literals.toList, c.watches.knows l = true ∧ c.watches.binaryOf l = #[]
  long : ∀ key ∈ c.clauses.inputKeys ++ c.clauses.learntKeys, ∃ stored, c.clauses.find key = .ok stored ∧
    (c.locked key = true ∧ stored.satisfiedAtRoot c.atoms = true ∨
      stored.satisfiedAtRoot c.atoms = false ∧ stored.atRoot c.atoms = stored.literals)

variable {f : Formula} {settled : Nat → Prop} {c d : Context}

/-- **A simplified context has nothing to simplify.** -/
theorem Rooted.spent (h : Rooted f settled d) (ht : d.clauses.Tallied) (hs : Simplified c d) : Spent d where
  shaped := h.shaped
  binary l hl := by
    refine ⟨h.shaped.knows (h.trailed.mem_known hl), Array.eq_empty_of_size_eq_zero (Nat.eq_zero_of_not_pos fun hpos => ?_)⟩
    have hnone := (hs.unvalued l _ (Array.mem_toList_iff.2 (Array.getElem_mem hpos))).1
    rw [(h.trailed.value l).2 hl] at hnone
    cases hnone
  long key hk := by
    obtain ⟨stored, hfind⟩ := ht.keys.2 key hk
    have hlits := ClauseStore.literals?_of_find hfind
    refine ⟨stored, hfind, ?_⟩
    rcases hs.long key _ hlits with hnone | hgrounds
    · have hsat : stored.satisfiedAtRoot d.atoms = false :=
        h.not_satisfies_iff.2 fun l hl hm => by cases (hnone l hl).symm.trans ((h.trailed.value l).2 hm)
      have hsame : ∀ l ∈ stored.literals, d.atoms.falseAtRoot l = false := fun l hl => by
        rw [← Bool.not_eq_true, h.falseAtRoot_iff]
        exact fun hm => by cases (hnone l hl).symm.trans (Literal.atom_negate l ▸ (h.trailed.value l.negate).2 hm)
      exact .inr ⟨hsat, List.filter_eq_self.2 fun l hl => by rw [hsame l hl]; rfl⟩
    · exact .inl ⟨(h.locked_iff_grounds hlits).2 hgrounds, h.satisfies_of_locked hlits ((h.locked_iff_grounds hlits).2 hgrounds)⟩

end Context

namespace Solver

open Run Context

variable {f : Formula} {settled : Nat → Prop} {c d : Context} {key : ClauseKey}

theorem answers_removeBinaryOf_empty {l : Literal} (hl : c.watches.knows l = true) (he : c.watches.binaryOf l = #[]) :
    Answers (onWatches (Watches.Call.removeBinaryOf l)) c fun _ d => d = c := by
  rw [answers_onWatches]
  unfold Watches.Call.removeBinaryOf
  rw [answers_bind, answers_get, answers_bind, answers_require, answers_modifyGet, Watches.removeBinaryOf_of_empty he, hl, he]
  exact ⟨by simp, rfl⟩

theorem answers_dropBinary_empty : ∀ list : List Literal,
    (∀ l ∈ list, c.watches.knows l = true ∧ c.watches.binaryOf l = #[]) → Answers (dropBinary list) c fun _ d => d = c
  | [], _ => ⟨_, _, rfl, rfl⟩
  | l :: rest, h => by
    obtain ⟨hl, hempty⟩ := h l List.mem_cons_self
    unfold dropBinary
    rw [answers_bind]
    refine (answers_removeBinaryOf_empty hl hempty).mono fun _ d hd => ?_
    rw [hd]
    exact answers_dropBinary_empty rest fun m hm => h m (List.mem_cons_of_mem _ hm)

theorem answers_simplifyClause_spent (h : c.Spent) (hk : key ∈ c.clauses.inputKeys ++ c.clauses.learntKeys) :
    Answers (simplifyClause key) c fun _ d => d = c := by
  obtain ⟨stored, hfind, hstored⟩ := h.long key hk
  unfold simplifyClause
  rw [answers_bind, answers_findClause]
  refine ⟨stored, hfind, ?_⟩
  obtain ⟨-, -, hknown⟩ := h.shaped.long key _ (ClauseStore.literals?_of_find hfind)
  rw [answers_bind, (gives_someTrueAtRoot stored.literals).answers hknown]
  rcases hstored with ⟨hlocked, hsat⟩ | ⟨hsat, hroot⟩
  · rw [if_pos (show stored.literals.any c.atoms.trueAtRoot = true from hsat), answers_bind, answers_isLocked h.shaped,
      if_pos hlocked]
    exact answers_pure.2 rfl
  · rw [if_neg (by rw [show stored.literals.any c.atoms.trueAtRoot = false from hsat]; nofun), answers_bind, answers_get]
    dsimp only
    rw [answers_bind, answers_require]
    refine ⟨List.all_eq_true.2 fun l hl => decide_eq_true (hknown l hl), ?_⟩
    rw [hroot, if_pos (Nat.sub_self _)]
    exact answers_pure.2 rfl

/-- **Where there is nothing to simplify, a simplification only notes that it was made.** -/
theorem answers_simplifyAll_spent (h : c.Spent) :
    Answers simplifyAll c fun _ d => ∃ schedule, d = { c with schedule } := by
  unfold simplifyAll
  rw [answers_bind, answers_get, answers_bind]
  refine (answers_dropBinary_empty _ h.binary).mono fun _ d hd => ?_
  rw [hd, answers_bind, answers_get, answers_bind]
  refine (answers_forM (I := fun keys d => (∀ key ∈ keys, key ∈ c.clauses.inputKeys ++ c.clauses.learntKeys) ∧ d = c)
    (fun key rest d ⟨hkeys, hd⟩ => ?_) _ c ⟨fun _ => id, rfl⟩).mono fun _ e ⟨_, he⟩ => ?_
  · rw [hd]
    exact (answers_simplifyClause_spent h (hkeys key List.mem_cons_self)).mono fun _ e he =>
      ⟨fun k hk => hkeys k (List.mem_cons_of_mem _ hk), he⟩
  · rw [he, answers_modify]
    exact ⟨_, rfl⟩

/-- **A further simplification changes no clause**, whether or not it is time to. -/
theorem answers_simplify_spent (h : c.Spent) (hl : c.trail.level = 0) (hhead : c.trail.head = c.trail.size) :
    Answers simplify c fun _ d => ∃ schedule, d = { c with schedule } := by
  unfold simplify
  rw [answers_bind, answers_get, if_neg (by omega)]
  refine answers_ite.2 ⟨fun _ => answers_pure.2 ⟨c.schedule, rfl⟩, fun _ => ?_⟩
  rw [answers_bind]
  refine answers_propagate_rest hhead ?_
  dsimp only
  rw [answers_bind, answers_get]
  exact answers_ite.2 ⟨fun _ => answers_pure.2 ⟨c.schedule, rfl⟩, fun _ => answers_simplifyAll_spent h⟩

/-- **A simplification of all clauses leaves them simplified.** -/
theorem meets_simplifyAll_simplified (h : Rooted f settled c) (ht : c.clauses.Tallied) :
    Meets simplifyAll c (fun _ d => Simplified c d) (fun _ => True) := by
  unfold simplifyAll
  rw [meets_bind, meets_get, meets_bind]
  refine ((meets_dropBinary_swept _ c h.toSound fun l hl => h.upTo_zero.symm ▸ hl).and
    (within_dropBinary (R := Still) _ c).meets).mono (fun _ d ⟨⟨hd, hsweep⟩, hs⟩ => ?_) fun _ _ => trivial
  obtain ⟨hnodup, hfound⟩ := (hs.tallied ht).keys
  rw [meets_bind, meets_get, meets_bind]
  refine (meets_simplifyEach _ d (h.trimmed hd hsweep.trimmed) ⟨hnodup, fun key hk => ?_⟩).mono
    (fun _ e ⟨_, hpared⟩ => ?_) fun _ _ => trivial
  · obtain ⟨stored, hfind⟩ := hfound key hk
    exact ⟨_, ClauseStore.literals?_of_find hfind⟩
  · rw [meets_modify]
    exact h.simplified hsweep ⟨⟨hpared.trail, hpared.atoms, hpared.units, hpared.course⟩, hpared.literals, hpared.binary⟩

/-- **A simplification that is not skipped leaves all clauses simplified**, and nothing for a further one to do. -/
theorem answers_simplify_simplified (h : Rooted f settled c) (ht : c.clauses.Tallied) (hs : c.state ≠ .unsatisfiable)
    (hidle : simplifyIdle c = false) :
    Answers simplify c fun _ d => Simplified c d ∧ d.clauses.Tallied ∧ Rooted f settled d := by
  have hroot := h.level
  unfold simplify
  rw [answers_bind, answers_get, if_neg (by omega), if_neg hs, answers_bind]
  refine answers_propagate_rest h.head ?_
  dsimp only
  rw [answers_bind, answers_get, if_neg (by rw [hidle]; nofun)]
  refine Meets.answers_of_stops ((meets_simplifyAll_simplified h ht).and ((meets_simplifyAll h).and
    (within_simplifyAll (R := Still) c).meets)) (stops_simplifyAll h ht) |>.mono fun _ d ⟨hd, ⟨hsound, htrim⟩, hstill⟩ => ?_
  exact ⟨hd, hstill.tallied ht, h.trimmed hsound htrim⟩

end Solver

namespace Session

open Run Context Solver

variable {s : Session} {k : Call} {d : Context}

/-- **Simplification is complete, exact and idempotent.**  Wherever a call simplifies at level zero, unless it is known that
there is no model or the simplification is skipped, it goes through and has used up level zero then.  The counts are those of
the clauses left, and a further simplification changes nothing but when the next one is due, be it skipped or not. -/
theorem simplify_exact (h : s.Followed) (hst : s.steps k s.context .simplify d) (hl : d.trail.level = 0)
    (hs : d.state ≠ .unsatisfiable) (hidle : simplifyIdle d = false) :
    ∃ e, simplify d = .ok () e ∧ Simplified d e ∧ e.clauses.Sums ∧ ∀ schedule,
      (∃ next, simplify { e with schedule } = .ok () { e with schedule := next }) ∧
      ∃ next, simplifyAll { e with schedule } = .ok () { e with schedule := next } := by
  obtain ⟨f, ⟨⟨settled, hd⟩, -, hasks⟩, -⟩ := h.held.ready hst
  obtain ⟨hcurrent, hhead⟩ := (hasks.resolve_left (by omega)).resolve_left hs
  have hrooted : Rooted f settled d := ⟨hd, hl, hcurrent, hhead⟩
  obtain ⟨⟨⟩, e, he, hsimplified, htally, hrest⟩ :=
    answers_simplify_simplified hrooted (tallied_of_steps h.tallied hst) hs hidle
  refine ⟨e, he, hsimplified, htally.sums, fun schedule => ?_⟩
  have hspent := hrest.spent htally hsimplified
  have halike : Alike e { e with schedule } := .of_eq rfl rfl rfl rfl rfl
  have hagain : Spent { e with schedule } := ⟨halike.shaped hspent.shaped, hspent.binary, hspent.long⟩
  obtain ⟨_, g, hg, next, hnext⟩ := answers_simplify_spent hagain hrest.level hrest.head
  obtain ⟨_, g', hg', next', hnext'⟩ := answers_simplifyAll_spent hagain
  exact ⟨⟨next, hnext ▸ hg⟩, next', hnext' ▸ hg'⟩

/-- With two clauses that leave the first atom one value only, which it has at level zero: both go. -/
theorem simplify_exact_or : ∃ s : Session, s.Followed ∧ s.steps .simplify s.context .simplify s.context ∧
    s.context.trail.level = 0 ∧ s.context.state ≠ .unsatisfiable ∧ simplifyIdle s.context = false ∧
    s.context.trail.literals = #[x₀] ∧ (s.context.watches.binaryOf x₀).size = 2 ∧
    ∃ e, simplify s.context = .ok () e ∧ Simplified s.context e ∧ e.clauses.Sums ∧ ∀ schedule,
      (∃ next, simplify { e with schedule } = .ok () { e with schedule := next }) ∧
      ∃ next, simplifyAll { e with schedule } = .ok () { e with schedule := next } := by
  have h : ((start {} .default).run [.freshAtom, .freshAtom, .addClause [x₀, x₁], .addClause [x₀, x₁.negate],
      .decide x₀.negate, .undo x₀.negate, .assertHere]).map (fun s => (s.context.trail.level, s.context.state,
        simplifyIdle s.context, s.context.trail.literals, (s.context.watches.binaryOf x₀).size)) =
      some (0, .input, false, #[x₀], 2) := by
    simp only [Session.run, Session.call, Session.after, addClause, normal_or, normal_or_negate]
    decide +kernel
  obtain ⟨s, hs, hview⟩ := Option.map_eq_some_iff.1 h
  simp only [Prod.mk.injEq] at hview
  obtain ⟨hl, hstate, hidle, htrail, hsize⟩ := hview
  have hfollowed : s.Followed := .run _ (.start {} .default) hs
  have hst : s.steps .simplify s.context .simplify s.context := .inl ⟨rfl, rfl⟩
  have hne : s.context.state ≠ .unsatisfiable := by
    rw [hstate]
    decide
  exact ⟨s, hfollowed, hst, hl, hne, hidle, htrail, hsize, simplify_exact (k := .simplify) hfollowed hst hl hne hidle⟩

end Session
end Cdcl
