import Cdcl.Proofs.Analysis
import Cdcl.Proofs.Backjump
import Cdcl.Proofs.Storing
import Cdcl.Solver.Search
/-!
# Learning — the learnt clause is stored and asserts its first literal

A clause that follows from the formula, with its first literal without a value and the others false, may be stored and
its first literal assigned, if the second one was not false in a settled level below (`meets_learn`).  Going back from
the conflict to where the clause asserts brings this about (`Learnable.asserting`).

A unit is assigned where it was learnt, with level zero noted, and stands in the pending units as well.
-/
namespace Cdcl
namespace Context

/-- A clause that may be learnt here: all its literals but the first are false. -/
structure Asserting (f : Formula) (settled : Nat → Prop) (c : Context) (first : Literal) (rest : Clause) : Prop where
  entails : f.Entails (first :: rest)
  nodup : ((first :: rest).map Literal.atom).Nodup
  known : ∀ l ∈ first :: rest, l.atom < c.atoms.count
  free : c.atoms.value first.atom = none
  others : ∀ m ∈ rest, m.negate ∈ c.trail.literals.toList
  apart : ∀ second ∈ rest.head?, c.Apart settled first second

variable {f : Formula} {settled : Nat → Prop} {c d e : Context} {l first second : Literal} {rest : Clause}

/-! ## From the conflict to where the clause asserts -/

section

variable {learnt : LearntClause} {target : Nat}

theorem Learnable.alike (h : Learnable f c learnt first rest) (ha : Alike c d) : Learnable f d learnt first rest where
  clause := h.clause
  entails := h.entails
  nodup := h.nodup
  asserting := by
    rw [ha.literals, ha.levelOrZero, ha.level]
    exact h.asserting
  others m hm := by
    rw [ha.literals, ha.levelOrZero]
    exact h.others m hm
  second m hm := by
    rw [ha.levelOrZero]
    exact h.second m hm
  unit := h.unit
  below := by
    rw [ha.level]
    exact h.below

theorem Learnable.first_free (h : Learnable f c learnt first rest) (ht : Trailed f c) {k : Nat}
    (hk : k < c.trail.level) : first ∉ c.trail.upTo k ∧ first.negate ∉ c.trail.upTo k := by
  refine ⟨fun hm => ht.not_mem_negate (Trail.upTo_subset_literals hm) h.asserting.1, fun hm => ?_⟩
  have := ht.level_le_of_mem_upTo hm
  rw [Literal.atom_negate, h.asserting.2] at this
  omega

theorem Learnable.mem_upTo (h : Learnable f c learnt first rest) (ht : Trailed f c) {k : Nat} (hk : learnt.level ≤ k)
    {m : Literal} (hm : m ∈ rest) : m.negate ∈ c.trail.upTo k := by
  obtain ⟨hn, hpos, hle⟩ := h.others m hm
  rw [← Literal.atom_negate] at hpos hle
  exact (ht.mem_upTo_iff_level_le hn hpos).2 (Nat.le_trans hle hk)

theorem Learnable.known (h : Learnable f c learnt first rest) (ht : Trailed f c) :
    ∀ l ∈ first :: rest, l.atom < c.atoms.count := by
  refine List.forall_mem_cons.2 ⟨?_, fun m hm => ?_⟩
  · rw [← Literal.atom_negate]
    exact ht.mem_known h.asserting.1
  · rw [← Literal.atom_negate]
    exact ht.mem_known (h.others m hm).1

/-- **Between the level where a clause asserts and that of its conflict, it may be learnt**, if no level from there on is
settled below. -/
theorem Learnable.asserting_jumped (h : Learnable f c learnt first rest) (ht : Trailed f c) (hj : Jumped c target d)
    (hd : Trailed f d) (hle : learnt.level ≤ target) (hlt : target < c.trail.level)
    (hs : ∀ k, settled k → k < target → learnt.level = 0 ∨ k < learnt.level) : Asserting f settled d first rest where
  entails := h.entails
  nodup := h.nodup
  known l hl := by
    rw [hj.count]
    exact h.known ht l hl
  free := by
    obtain ⟨hf, hn⟩ := h.first_free ht hlt
    rw [← hj.literals] at hf hn
    exact hd.value_eq_none hf hn
  others m hm := by
    rw [hj.literals]
    exact h.mem_upTo ht hle hm
  apart second hsecond k hk hkt := by
    rw [hj.level] at hkt
    rw [hj.upTo k (Nat.le_of_lt hkt)]
    refine ⟨fun hm => absurd hm (h.first_free ht (by omega)).2, fun hm => ?_⟩
    -- the second literal has the level where the clause asserts, which is above every settled level below
    have hlevel := ht.level_le_of_mem_upTo hm
    rw [Literal.atom_negate, h.second second hsecond] at hlevel
    have hpos := (h.others second (List.mem_of_mem_head? hsecond)).2.1
    rw [h.second second hsecond] at hpos
    have := hs k hk hkt
    omega

/-- A clause learnt after a decision, in wait of the level where it asserts. -/
structure Awaited (f : Formula) (c : Context) (learnt : LearntClause) (first : Literal) (rest : Clause) : Prop where
  clause : learnt.clause = first :: rest
  entails : f.Entails (first :: rest)
  nodup : ((first :: rest).map Literal.atom).Nodup
  known : ∀ l ∈ first :: rest, l.atom < c.atoms.count
  here : learnt.level ≤ c.trail.level → first ∉ c.trail.upTo learnt.level ∧ first.negate ∉ c.trail.upTo learnt.level ∧
    ∀ m ∈ rest, m.negate ∈ c.trail.upTo learnt.level
  apart : learnt.level ≤ c.trail.level → ∀ second ∈ rest.head?, ∀ k < learnt.level, second.negate ∉ c.trail.upTo k
  unit : rest = [] ↔ learnt.level = 0

theorem Learnable.awaited (h : Learnable f c learnt first rest) (ht : Trailed f c) : Awaited f c learnt first rest where
  clause := h.clause
  entails := h.entails
  nodup := h.nodup
  known := h.known ht
  here _ := ⟨(h.first_free ht h.below).1, (h.first_free ht h.below).2, fun _ hm => h.mem_upTo ht (Nat.le_refl _) hm⟩
  apart _ second hsecond k hk hm := by
    have := ht.level_le_of_mem_upTo hm
    rw [Literal.atom_negate, h.second second hsecond] at this
    omega
  unit := by
    refine ⟨h.unit, fun hz => List.eq_nil_iff_forall_not_mem.2 fun m hm => ?_⟩
    have := (h.others m hm).2
    omega

theorem Awaited.carry {g : Formula} (h : Awaited f c learnt first rest) (hfg : ∀ v, g.Holds v → f.Holds v)
    (hcount : c.atoms.count ≤ d.atoms.count) (hlevel : d.trail.level ≤ c.trail.level)
    (hupTo : ∀ k ≤ d.trail.level, d.trail.upTo k = c.trail.upTo k) : Awaited g d learnt first rest where
  clause := h.clause
  entails := h.entails.mono hfg
  nodup := h.nodup
  known l hl := Nat.lt_of_lt_of_le (h.known l hl) hcount
  here hle := by
    rw [hupTo _ hle]
    exact h.here (Nat.le_trans hle hlevel)
  apart hle second hsecond k hk := by
    rw [hupTo k (Nat.le_trans (Nat.le_of_lt hk) hle)]
    exact h.apart (Nat.le_trans hle hlevel) second hsecond k hk
  unit := h.unit

/-- **A clause that has waited for its level may be learnt there.** -/
theorem Awaited.asserting (h : Awaited f c learnt first rest) (ht : Trailed f c) (hl : learnt.level = c.trail.level) :
    Asserting f settled c first rest := by
  obtain ⟨hf, hn, hrest⟩ := h.here (Nat.le_of_eq hl)
  rw [hl, Trail.upTo_of_level_le (Nat.le_refl _)] at hf hn hrest
  refine ⟨h.entails, h.nodup, h.known, ht.value_eq_none hf hn, hrest, fun second hsecond k _ hk => ?_⟩
  exact ⟨fun hm => absurd (Trail.upTo_subset_literals hm) hn, fun hm =>
    absurd hm (h.apart (Nat.le_of_eq hl) second hsecond k (hl ▸ hk))⟩

/-- The second literal became false at the level of the clause, and not below. -/
theorem Awaited.second_level (h : Awaited f c learnt first rest) (ht : Trailed f c) (hu : c.pendingUnits = #[])
    (hl : learnt.level = c.trail.level) (hpos : 0 < c.trail.level) :
    ∃ second ∈ rest.head?, c.atoms.levelOrZero second.atom = c.trail.level := by
  cases rest with
  | nil =>
    rw [← hl, h.unit.1 rfl] at hpos
    exact absurd hpos (Nat.lt_irrefl 0)
  | cons second rest =>
    have hmem := Trail.upTo_subset_literals ((h.here (Nat.le_of_eq hl)).2.2 second List.mem_cons_self)
    refine ⟨second, rfl, ?_⟩
    rw [← Literal.atom_negate]
    refine Nat.le_antisymm (ht.level_le_level hmem) (Nat.le_of_not_lt fun hlt => ?_)
    exact h.apart (Nat.le_of_eq hl) second rfl _ (hl ▸ hlt) ((ht.mem_upTo_iff_of_units hu hmem).2 (Nat.le_refl _))

theorem Learnable.second_level_jumped (h : Learnable f c learnt first rest) (ht : Trailed f c) (hj : Jumped c target d)
    (hl : learnt.level = target) (hpos : 0 < target) :
    ∃ second ∈ rest.head?, d.atoms.levelOrZero second.atom = d.trail.level := by
  cases rest with
  | nil =>
    rw [← hl, h.unit rfl] at hpos
    exact absurd hpos (Nat.lt_irrefl 0)
  | cons second rest =>
    have hmem := h.mem_upTo ht (Nat.le_of_eq hl) (List.mem_cons_self (a := second))
    refine ⟨second, rfl, ?_⟩
    rw [← Literal.atom_negate, hj.levels _ (hj.literals ▸ hmem), Literal.atom_negate, h.second second rfl, hj.level, hl]

end

/-! ## Learning -/

theorem Pushed.setLevel {level : Nat} {reason : Option Reason} (h : Pushed c l level reason d) (hl : l.atom < c.atoms.count)
    {units : Array Literal} (hu : ∀ u ∈ d.pendingUnits.toList, u ∈ units.toList) :
    Pushed c l 0 reason { d with atoms := d.atoms.setLevel l.atom 0, pendingUnits := units } where
  trail := h.trail
  count := (AtomTable.count_setLevel ..).trans h.count
  value a := (AtomTable.value_setLevel ..).trans (h.value a)
  level a := by
    show (d.atoms.setLevel l.atom 0).levelOrZero a = _
    rw [AtomTable.levelOrZero_setLevel, h.level, h.count]
    by_cases ha : a = l.atom
    · rw [if_pos ⟨ha, ha ▸ hl⟩, if_pos ha]
    · rw [if_neg fun e => ha e.1, if_neg ha, if_neg ha]
  reason a := (AtomTable.reason_setLevel ..).trans (h.reason a)
  leveled hc := AtomTable.leveled_setLevel (h.leveled hc) ((h.value l.atom).trans (if_pos rfl)) _
  units u hm := hu u (h.units u hm)
  activity := h.activity
  clauses := h.clauses
  watches := h.watches
  marks := h.marks
  course := h.course

/-- What learning makes of a context. -/
structure Learnt (f : Formula) (settled : Nat → Prop) (c : Context) (first : Literal) (rest : Clause) (d : Context) :
    Prop where
  sound : Sound f settled d
  extended : Extends c d
  head : d.trail.head = c.trail.head
  literals : d.trail.literals.toList = c.trail.literals.toList ++ [first]
  implied : rest ≠ [] → d.atoms.reason first.atom ≠ none
  goesBack : ∀ second ∈ rest.head?, d.Antecedent first.atom second
  clauses : ∀ key ls, c.clauses.literals? key = some ls → d.clauses.literals? key = some ls
  current : c.Current c.trail.size → d.Current c.trail.size
  units : d.pendingUnits = c.pendingUnits ∨
    rest = [] ∧ 0 < c.trail.level ∧ d.pendingUnits = c.pendingUnits.push first ∧ d.atoms.levelOrZero first.atom = 0

theorem Learnt.level_first (h : Learnt f settled c first rest d) (hc : c.trail.Layered) (hr : rest ≠ []) :
    d.atoms.levelOrZero first.atom = c.trail.level := by
  have hi : d.trail.literals[c.trail.size]? = some first := by
    rw [← Array.getElem?_toList, h.literals]
    simp [Trail.size]
  rw [h.sound.trailed.level_eq_of_reason hi (h.implied hr), h.extended.levelAt, hc.levelAt_size]

theorem Learnt.fresh (h : Learnt f settled c first rest d) (hc : c.trail.Layered) (hh : c.trail.head = c.trail.size)
    (hr : rest ≠ []) : d.Fresh := by
  refine .snoc h.literals (h.head.trans hh) ?_
  rw [h.level_first hc hr, h.extended.trail_level]

/-- **A clause learnt where its second literal became false** gives its first literal an antecedent of the same level. -/
theorem Learnt.anchored {bottom : Nat} (h : Learnt f settled c first rest d) (hr : Asserting f settled c first rest)
    (hs : bottom < c.trail.level → ∃ second ∈ rest.head?, c.atoms.levelOrZero second.atom = c.trail.level)
    (hc : Trailed f c) (ha : c.Anchored bottom) : d.Anchored bottom := by
  intro l hm hlt hreason
  have hmem := hm
  rw [h.literals, List.mem_append, List.mem_singleton] at hmem
  rcases hmem with hmem | rfl
  · exact ha.keep hc h.sound.trailed (fun m hm _ => h.extended.level m hm) hmem hm (h.extended.reason l hmem)
      (fun key ls _ hk => ⟨ls, h.clauses key ls hk, fun _ => id⟩) hlt hreason
  · have hle := h.sound.trailed.level_le_level hm
    rw [h.extended.trail_level] at hle
    obtain ⟨second, hhead, hlevel⟩ := hs (by omega)
    have hrest := List.mem_of_mem_head? hhead
    refine ⟨second, h.goesBack second hhead, ?_⟩
    rw [← Literal.atom_negate, h.extended.level _ (hr.others second hrest), Literal.atom_negate, hlevel,
      h.level_first hc.layered (List.ne_nil_of_mem hrest)]

/-- A clause stored with a pair of watches, and its first literal assigned: what was settled stays so. -/
theorem Pushed.current_pair {level : Nat} {reason : Option Reason} (h : Pushed d first level reason e)
    (ht : Trailed f c) (htrail : d.trail = c.trail) (hv : c.atoms.value first.atom = none)
    (hp : ∀ {x y : Literal}, d.Partners x y → c.Partners x y ∨ (x = first ∧ y = second ∨ x = second ∧ y = first))
    (hs : c.Current c.trail.size) : e.Current c.trail.size := by
  intro x y hxy hx
  rw [← htrail, h.before_size, htrail] at hx
  rw [Current, Trail.before_of_size_le (Nat.le_refl _)] at hs
  rcases hp (h.partners hxy) with hxy | ⟨rfl, rfl⟩ | ⟨rfl, rfl⟩
  · refine h.mem_iff.2 (.inl ?_)
    rw [htrail]
    exact hs x y hxy hx
  · exact absurd hx (ht.not_mem_of_value_none hv).2
  · exact h.mem_iff.2 (.inr rfl)

end Context

namespace Solver

open Run Context

variable {f : Formula} {settled : Nat → Prop} {c : Context} {l first second : Literal} {rest : Clause}

theorem meets_learnUnit (h : Sound f settled c) (ha : Asserting f settled c l []) :
    Meets (learn [l]) c (fun _ d => Learnt f settled c l [] d) (fun d => Sound f settled d ∧ Trimmed c d) := by
  unfold learn
  rw [meets_bind]
  refine meets_assign fun d hp hu hl => ?_
  rw [meets_bind]
  refine (gives_onAtoms AtomTable.Call.gives_setLevel).meets ?_
  rw [meets_modify]
  have hgrow : ∀ u ∈ d.pendingUnits.toList,
      u ∈ (if d.trail.level > 0 then d.pendingUnits.push l else d.pendingUnits).toList := fun u hmem => by
    split
    · rw [Array.toList_push]
      exact List.mem_append_left _ hmem
    · exact hmem
  have hp' := hp.setLevel hl hgrow
  have hunit : c.trail.level = 0 ∨
      l ∈ (if d.trail.level > 0 then d.pendingUnits.push l else d.pendingUnits).toList := by
    rw [hp.trail, Trail.level_push]
    split
    · simp
    · omega
  have hsound := h.push hp' ha.free (hp'.caused_zero h.trailed.layered ha.entails hunit) fun u hmem => ?_
  · refine ⟨hsound, hp'.toExtends h.trailed ha.free (.inr rfl), by rw [hp'.trail]; rfl, hp'.literals,
      fun hne => absurd rfl hne, nofun, fun key ls hk => by rw [hp'.clauses, hk], hp'.current (Nat.le_refl _), ?_⟩
    dsimp only
    split
    · rename_i hpos
      rw [hp.trail, Trail.level_push] at hpos
      exact .inr ⟨rfl, hpos, by rw [hu], hp'.level_self⟩
    · exact .inl hu
  · dsimp only at hmem
    split at hmem
    · rw [Array.toList_push, List.mem_append, List.mem_singleton, hu] at hmem
      rcases hmem with hmem | rfl
      · exact h.denotes.units u hmem
      · exact ha.entails
    · rw [hu] at hmem
      exact h.denotes.units u hmem

theorem meets_learnBinary (h : Sound f settled c) (ha : Asserting f settled c first [second]) :
    Meets (learn [first, second]) c (fun _ d => Learnt f settled c first [second] d)
      (fun d => Sound f settled d ∧ Trimmed c d) := by
  have hne : first.atom ≠ second.atom := fun e => by
    have := ha.nodup
    simp [e] at this
  unfold learn
  rw [meets_bind]
  refine (meets_watchBinary h (.of_entails h.denotes ha.entails) hne (ha.known _ (by simp)) (ha.known _ (by simp))
    (ha.apart second rfl)).mono (fun _ d ⟨hd, hpair⟩ => ?_) fun _ => False.elim
  refine meets_assign fun e hp hu _ => ?_
  have hn : second.negate ∈ d.trail.literals.toList := hpair.trail ▸ ha.others second (by simp)
  have hv : d.atoms.value first.atom = none := hpair.atoms ▸ ha.free
  refine ⟨hd.push hp hv (hp.caused_binary hd.trailed.layered hn ha.entails) (hu ▸ hd.denotes.units),
    hpair.toExtends.trans (hp.toExtends hd.trailed hv (.inl nofun)), by rw [hp.trail, hpair.trail]; rfl,
    by rw [hp.literals, hpair.trail], fun _ => hp.reason_self ▸ nofun, fun _ he => ?_,
    fun key ls hk => by rw [hp.clauses, hpair.clauses, hk],
    hp.current_pair h.trailed hpair.trail ha.free hpair.partners,
    .inl (hu.trans hpair.units)⟩
  cases he
  exact .binary hp.reason_self

theorem meets_learnLong {third : Literal} (h : Sound f settled c)
    (ha : Asserting f settled c first (second :: third :: rest)) :
    Meets (learn (first :: second :: third :: rest)) c
      (fun _ d => Learnt f settled c first (second :: third :: rest) d)
      (fun d => Sound f settled d ∧ Trimmed c d) := by
  unfold learn
  rw [meets_bind]
  refine (meets_storeLong h (.of_entails h.denotes ha.entails) (fun _ _ => id) ha.nodup ha.known
    (ha.apart second rfl)).mono (fun key d ⟨hd, hstored, _⟩ => ?_) fun _ => id
  refine meets_assign fun e hp hu _ => ?_
  have hn : ∀ m ∈ second :: third :: rest, m.negate ∈ d.trail.literals.toList := hstored.trail ▸ ha.others
  have hv : d.atoms.value first.atom = none := hstored.atoms ▸ ha.free
  have hk : d.clauses.literals? key = some (first :: second :: third :: rest) := by rw [hstored.literals, if_pos rfl]
  refine ⟨hd.push hp hv (hp.caused_long hd.trailed.layered hk hn) (hu ▸ hd.denotes.units),
    hstored.toExtends.trans (hp.toExtends hd.trailed hv (.inl nofun)), by rw [hp.trail, hstored.trail]; rfl,
    by rw [hp.literals, hstored.trail], fun _ => hp.reason_self ▸ nofun, fun _ he => ?_, fun k ls hls => ?_,
    hp.current_pair h.trailed hstored.trail ha.free hstored.partners,
    .inl (hu.trans hstored.units)⟩
  · cases he
    refine .long key _ hp.reason_self (hp.clauses ▸ hk) (by simp) fun he => ?_
    have := ha.nodup
    simp [he] at this
  · rw [hp.clauses, hstored.literals, if_neg, hls]
    rintro rfl
    rw [hstored.fresh] at hls
    cases hls

/-- **Learning a clause that asserts its first literal keeps the invariant**, and where it fails nothing is assigned. -/
theorem meets_learn (h : Sound f settled c) (ha : Asserting f settled c first rest) :
    Meets (learn (first :: rest)) c (fun _ d => Learnt f settled c first rest d)
      (fun d => Sound f settled d ∧ Trimmed c d) := by
  match rest, ha with
  | [], ha => exact meets_learnUnit h ha
  | [second], ha => exact meets_learnBinary h ha
  | second :: third :: rest, ha => exact meets_learnLong h ha

end Solver
end Cdcl
