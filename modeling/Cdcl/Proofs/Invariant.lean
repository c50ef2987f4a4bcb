import Cdcl.Context.Meaning
import Cdcl.Proofs.ActivityHeap
import Cdcl.Proofs.StoreKeys
import Cdcl.Proofs.TrailLevels
import Mathlib.Data.List.Nodup
import Mathlib.Data.List.Perm.Subperm
/-!
# Invariant — what holds of a context at every step

The invariant is the conjunction of what each part of a context owes to the others, for the formula of the clauses
accepted so far:

* the trail is an implication graph (`Trailed`): its literals are the true ones, and the reason of each is a clause that
  follows from the formula and is false but for it, by literals that stand before it;
* watch lists and clauses agree (`Shaped`, `Listed`);
* the context says what the formula says (`Denotes`);
* where levels were propagated, the partner of a false watch is true (`Settles`);
* every atom without a value is on the activity heap, freed slots are empty, and no mark is left.

Which levels below the current one are settled is a matter of how the context is used, so the invariant has a parameter
for it; how far the current level is settled is said apart (`Current`).
-/
namespace Cdcl

/-- What a context tells of its solves, the clause it waits to assert, and where its assumptions end. -/
structure Course where
  state : SolveState
  model : Array Bool
  failed : List Literal
  pending : Option LearntClause
  root : Nat

namespace Context

def course (c : Context) : Course := ⟨c.state, c.model, c.failed, c.pending, c.trail.root⟩

theorem state_eq_of_course {c d : Context} (h : d.course = c.course) : d.state = c.state := congrArg Course.state h

theorem pending_eq_of_course {c d : Context} (h : d.course = c.course) : d.pending = c.pending :=
  congrArg Course.pending h

theorem root_eq_of_course {c d : Context} (h : d.course = c.course) : d.trail.root = c.trail.root :=
  congrArg Course.root h

/-- What the reason of a literal at an index of the trail has to be.  Without one, the literal follows from the formula
and has level zero, where it stands there or is a unit learnt above, or it is the first of its level. -/
def Caused (f : Formula) (c : Context) (i : Nat) (l : Literal) : Option Reason → Prop
  | none =>
    (c.atoms.levelOrZero l.atom = 0 ∧ f.Entails [l] ∧ (c.trail.levelAt i = 0 ∨ l ∈ c.pendingUnits.toList)) ∨
      (c.atoms.levelOrZero l.atom = c.trail.levelAt i ∧ i ∈ c.trail.starts.toList)
  | some (.binary other) =>
    c.atoms.levelOrZero l.atom = c.trail.levelAt i ∧ other.negate ∈ c.trail.before i ∧ f.Entails [l, other]
  | some (.long key) =>
    c.atoms.levelOrZero l.atom = c.trail.levelAt i ∧
      ∃ rest, c.clauses.literals? key = some (l :: rest) ∧ ∀ m ∈ rest, m.negate ∈ c.trail.before i

/-- The trail, the values and the reasons agree. -/
structure Trailed (f : Formula) (c : Context) : Prop where
  layered : c.trail.Layered
  nodup : c.trail.literals.toList.Nodup
  value : ∀ l : Literal, c.atoms.value l.atom = some l.positive ↔ l ∈ c.trail.literals.toList
  caused : ∀ (i : Nat) (l : Literal), c.trail.literals[i]? = some l → Caused f c i l (c.atoms.reason l.atom)

/-- Clauses are over known atoms and of the size of their kind, and binary lists are symmetric. -/
structure Shaped (c : Context) : Prop where
  binarySize : c.watches.binary.size = 2 * c.atoms.count
  longSize : c.watches.long.size = 2 * c.atoms.count
  long : ∀ key ls, c.clauses.literals? key = some ls →
    3 ≤ ls.length ∧ (ls.map Literal.atom).Nodup ∧ ∀ l ∈ ls, l.atom < c.atoms.count
  binary : ∀ a b, b ∈ (c.watches.binaryOf a).toList → a.atom ≠ b.atom ∧ a.atom < c.atoms.count ∧ b.atom < c.atoms.count
  symmetric : ∀ a b, (c.watches.binaryOf a).toList.count b = (c.watches.binaryOf b).toList.count a
  bounded : c.atoms.count ≤ atomLimit

/-- A key is in the long list of a literal, once, exactly if it leads to a clause whose first two literals have the
literal among them. -/
structure Listed (long : Literal → List ClauseKey) (literals? : ClauseKey → Option Clause) : Prop where
  mem_iff : ∀ l key, key ∈ long l ↔ ∃ ls, literals? key = some ls ∧ l ∈ ls.take 2
  nodup : ∀ l, (long l).Nodup

/-- The two literals of a binary clause, or the two watched ones of a long clause, in either order. -/
inductive Partners (c : Context) : Literal → Literal → Prop
  | binary {a b : Literal} (h : b ∈ (c.watches.binaryOf a).toList) : Partners c a b
  | first {key : ClauseKey} {a b : Literal} {rest : Clause} (h : c.clauses.literals? key = some (a :: b :: rest)) :
    Partners c a b
  | second {key : ClauseKey} {a b : Literal} {rest : Clause} (h : c.clauses.literals? key = some (b :: a :: rest)) :
    Partners c a b

/-- Whatever makes one of two partners false among some literals, the other is true among some. -/
def Settles (c : Context) (p q : List Literal) : Prop := ∀ a b, c.Partners a b → a.negate ∈ p → b ∈ q

/-- The current level is settled for the literals before an index. -/
def Current (c : Context) (n : Nat) : Prop := c.Settles (c.trail.before n) c.trail.literals.toList

/-- What the context holds follows from the formula, and with level zero implies it. -/
structure Denotes (f : Formula) (c : Context) : Prop where
  known : ∀ d ∈ f, ∀ l ∈ d, l.atom < c.atoms.count
  binary : ∀ a b, b ∈ (c.watches.binaryOf a).toList → f.Entails [a, b]
  long : ∀ key ls, c.clauses.literals? key = some ls → f.Entails ls
  units : ∀ l ∈ c.pendingUnits.toList, f.Entails [l]
  complete : ∀ v,
    (∀ a b, b ∈ (c.watches.binaryOf a).toList → Clause.Holds v [a, b]) →
    (∀ key ls, key.isLearnt = false → c.clauses.literals? key = some ls → ls.Holds v) →
    (∀ l ∈ c.trail.upTo 0, l.Holds v) → f.Holds v

/-- The invariant but for the long lists, which are in pieces while one of them is walked, and the marks, which are in use
during an analysis. -/
structure Base (f : Formula) (settled : Nat → Prop) (c : Context) : Prop where
  trailed : Trailed f c
  shaped : Shaped c
  slotted : c.clauses.Slotted
  denotes : Denotes f c
  stocked : c.atoms.Stocked
  leveled : c.atoms.Leveled
  below : ∀ k, settled k → k < c.trail.level → c.Settles (c.trail.upTo k) (c.trail.upTo k)

/-- **The invariant of a context**, where some levels are known to be settled. -/
structure Sound (f : Formula) (settled : Nat → Prop) (c : Context) : Prop extends Base f settled c where
  listed : Listed (fun l => (c.watches.longOf l).toList) c.clauses.literals?
  marks : c.marks = Array.replicate c.atoms.count false

/-- A cause stays one while its literal keeps its level and its place, a unit stays pending above level zero, and a long
reason keeps the literal first and gains no other. -/
theorem Caused.of_eq {f : Formula} {c d : Context} {i : Nat} {l : Literal} {r : Option Reason} (hc : Caused f c i l r)
    (hlevel : d.atoms.levelOrZero l.atom = c.atoms.levelOrZero l.atom)
    (hat : d.trail.levelAt i = c.trail.levelAt i) (hbefore : d.trail.before i = c.trail.before i)
    (hstart : i ∈ c.trail.starts.toList → i ∈ d.trail.starts.toList)
    (hunit : l ∈ c.pendingUnits.toList → c.trail.levelAt i = 0 ∨ l ∈ d.pendingUnits.toList)
    (hlong : ∀ key rest, r = some (.long key) → c.clauses.literals? key = some (l :: rest) →
      ∃ left, d.clauses.literals? key = some (l :: left) ∧ ∀ m ∈ left, m ∈ rest) : Caused f d i l r := by
  unfold Caused at *
  rw [hlevel, hat, hbefore]
  split at hc
  · exact hc.imp (fun h => ⟨h.1, h.2.1, h.2.2.elim .inl hunit⟩) fun h => ⟨h.1, hstart h.2⟩
  · exact hc
  · obtain ⟨he, rest, hkey, hrest⟩ := hc
    obtain ⟨left, hleft, hsub⟩ := hlong _ rest rfl hkey
    exact ⟨he, left, hleft, fun m hm => hrest m (hsub m hm)⟩

theorem Shaped.exists_watched {c : Context} {key : ClauseKey} {ls : Clause} (h : Shaped c)
    (hk : c.clauses.literals? key = some ls) : ∃ a b rest, ls = a :: b :: rest := by
  obtain ⟨hlen, -⟩ := h.long key ls hk
  match ls, hlen with
  | a :: b :: rest, _ => exact ⟨a, b, rest, rfl⟩

theorem Shaped.index_lt {c : Context} {l : Literal} (h : Shaped c) (hl : l.atom < c.atoms.count) :
    l.index < c.watches.binary.size ∧ l.index < c.watches.long.size := by
  rw [h.binarySize, h.longSize, Literal.index_eq]
  split <;> omega

theorem Shaped.knows {c : Context} {l : Literal} (h : Shaped c) (hl : l.atom < c.atoms.count) :
    c.watches.knows l = true := Watches.knows_iff.2 (h.index_lt hl)

/-- Partners are told by the binary lists and the clauses. -/
theorem Partners.carry {c d : Context} {a b : Literal} (h : d.Partners a b)
    (hbinary : ∀ l, d.watches.binaryOf l = c.watches.binaryOf l)
    (hlong : ∀ key ls, d.clauses.literals? key = some ls → c.clauses.literals? key = some ls) : c.Partners a b := by
  cases h with
  | binary hb => exact .binary (hbinary a ▸ hb)
  | first hk => exact .first (hlong _ _ hk)
  | second hk => exact .second (hlong _ _ hk)

/-- **The shape stays with the binary lists**, where what the keys lead to is old or of its kind. -/
theorem Shaped.carry {c d : Context} (h : Shaped c) (hcount : d.atoms.count = c.atoms.count)
    (hsizes : d.watches.binary.size = c.watches.binary.size ∧ d.watches.long.size = c.watches.long.size)
    (hbinary : ∀ l, d.watches.binaryOf l = c.watches.binaryOf l)
    (hlong : ∀ key ls, d.clauses.literals? key = some ls → c.clauses.literals? key = some ls ∨
      3 ≤ ls.length ∧ (ls.map Literal.atom).Nodup ∧ ∀ l ∈ ls, l.atom < c.atoms.count) : Shaped d where
  binarySize := by rw [hsizes.1, hcount, h.binarySize]
  longSize := by rw [hsizes.2, hcount, h.longSize]
  long key ls hk := by
    rw [hcount]
    exact (hlong key ls hk).elim (h.long key ls) id
  binary a b hb := by
    rw [hbinary] at hb
    rw [hcount]
    exact h.binary a b hb
  symmetric a b := by
    rw [hbinary, hbinary]
    exact h.symmetric a b
  bounded := hcount ▸ h.bounded

/-- **What is denoted stays with the clauses**, while no literal of level zero and no atom goes. -/
theorem Denotes.carry {f : Formula} {c d : Context} (h : Denotes f c) (hcount : c.atoms.count ≤ d.atoms.count)
    (hbinary : ∀ l, d.watches.binaryOf l = c.watches.binaryOf l) (hlong : d.clauses.literals? = c.clauses.literals?)
    (hunits : ∀ l ∈ d.pendingUnits.toList, f.Entails [l]) (hzero : c.trail.upTo 0 ⊆ d.trail.upTo 0) : Denotes f d where
  known e he l hl := Nat.lt_of_lt_of_le (h.known e he l hl) hcount
  binary a b hb := h.binary a b (hbinary a ▸ hb)
  long key ls hk := h.long key ls (hlong ▸ hk)
  units := hunits
  complete v hb hl hz := by
    rw [hlong] at hl
    exact h.complete v (fun a b hab => hb a b ((hbinary a).symm ▸ hab)) hl fun l hm => hz l (hzero hm)

/-- Live clauses are those of two literals in the watch lists, and those that keys lead to. -/
theorem live_iff {c : Context} {clause : Clause} : c.Live clause ↔
    (∃ a b, clause = [a, b] ∧ b ∈ (c.watches.binaryOf a).toList) ∨ ∃ key, c.clauses.literals? key = some clause := by
  constructor
  · rintro (h | h)
    · exact .inl ⟨_, _, rfl, Array.mem_toList_iff.2 h⟩
    · exact .inr ⟨_, ClauseStore.literals?_of_find h⟩
  · rintro (⟨a, b, rfl, hb⟩ | ⟨key, hk⟩)
    · exact .binary (Array.mem_toList_iff.1 hb)
    · obtain ⟨stored, hfind, rfl⟩ := ClauseStore.literals?_eq_some_iff.1 hk
      exact .long hfind

/-- **Every live clause follows from the formula.** -/
theorem Denotes.entails {f : Formula} {c : Context} {clause : Clause} (h : Denotes f c) (hl : c.Live clause) :
    f.Entails clause := by
  rcases live_iff.1 hl with ⟨a, b, rfl, hb⟩ | ⟨key, hk⟩
  · exact h.binary a b hb
  · exact h.long key _ hk

/-! ## The trail as an implication graph -/

namespace Trailed

variable {f : Formula} {c : Context} {i j : Nat} {l m : Literal}

theorem mem_known (h : Trailed f c) (hl : l ∈ c.trail.literals.toList) : l.atom < c.atoms.count :=
  AtomTable.lt_count_of_value ((h.value l).2 hl)

theorem known_of_negate_mem (h : Trailed f c) (hl : l.negate ∈ c.trail.literals.toList) : l.atom < c.atoms.count := by
  rw [← Literal.atom_negate]
  exact h.mem_known hl

/-- **No literal is on the trail beside its negation.** -/
theorem not_mem_negate (h : Trailed f c) (hl : l ∈ c.trail.literals.toList) : l.negate ∉ c.trail.literals.toList := by
  intro hn
  have hp := (h.value l).2 hl
  have hq := (h.value l.negate).2 hn
  rw [Literal.atom_negate, hp, Literal.positive_negate, Option.some.injEq] at hq
  cases hlp : l.positive <;> simp [hlp] at hq

theorem index_inj (h : Trailed f c) (hi : c.trail.literals[i]? = some l) (hj : c.trail.literals[j]? = some l) :
    i = j := by
  rw [← Array.getElem?_toList] at hi hj
  have hlt := (List.getElem?_eq_some_iff.1 hi).1
  exact (List.getElem?_inj hlt h.nodup).1 (hi.trans hj.symm)

theorem eq_of_atom (h : Trailed f c) (hl : l ∈ c.trail.literals.toList) (hm : m ∈ c.trail.literals.toList)
    (he : l.atom = m.atom) : l = m := by
  rcases Literal.eq_or_eq_negate he with e | e
  · exact e
  · rw [e] at hl
    exact absurd hl (h.not_mem_negate hm)

theorem size_le (h : Trailed f c) : c.trail.size ≤ c.atoms.count := by
  have hatoms : (c.trail.literals.toList.map Literal.atom).Nodup :=
    h.nodup.map_on fun l hl m hm he => h.eq_of_atom hl hm he
  have hknown : c.trail.literals.toList.map Literal.atom ⊆ List.range c.atoms.count := fun a ha => by
    obtain ⟨l, hl, rfl⟩ := List.mem_map.1 ha
    exact List.mem_range.2 (h.mem_known hl)
  have hle := (hatoms.subperm hknown).length_le
  rwa [List.length_map, Array.length_toList, List.length_range] at hle

theorem standing_holds_iff (h : Trailed f c) : c.atoms.standing l = .holds ↔ l ∈ c.trail.literals.toList := by
  rw [AtomTable.standing_eq_holds_iff, h.value]

theorem standing_fails_iff (h : Trailed f c) : c.atoms.standing l = .fails ↔ l.negate ∈ c.trail.literals.toList := by
  rw [AtomTable.standing_eq_fails_iff, ← h.value, Literal.atom_negate, Literal.positive_negate]

theorem not_mem_of_value_none (h : Trailed f c) (hv : c.atoms.value l.atom = none) :
    l ∉ c.trail.literals.toList ∧ l.negate ∉ c.trail.literals.toList := by
  constructor
  · rw [← h.value, hv]
    nofun
  · rw [← h.value, Literal.atom_negate, hv]
    nofun

theorem value_eq_none (h : Trailed f c) (hl : l ∉ c.trail.literals.toList) (hn : l.negate ∉ c.trail.literals.toList) :
    c.atoms.value l.atom = none := by
  rw [← h.value] at hl hn
  rw [Literal.atom_negate, Literal.positive_negate] at hn
  cases hv : c.atoms.value l.atom with
  | none => rfl
  | some b => cases b <;> cases hp : l.positive <;> simp [hv, hp] at hl hn

theorem isTrue_iff_mem (h : Trailed f c) : c.atoms.isTrue l = true ↔ l ∈ c.trail.literals.toList := by
  rw [AtomTable.isTrue_iff, h.value]

theorem isFalse_iff_mem (h : Trailed f c) : c.atoms.isFalse l = true ↔ l.negate ∈ c.trail.literals.toList := by
  rw [← AtomTable.isTrue_negate, h.isTrue_iff_mem]

theorem atom_ne_of_mem_before (h : Trailed f c) (hi : c.trail.literals[i]? = some l) (hm : m ∈ c.trail.before i) :
    m.atom ≠ l.atom := by
  intro he
  obtain ⟨j, hj, hjm⟩ := Trail.mem_before.1 hm
  rw [h.eq_of_atom (Trail.mem_of_getElem? hjm) (Trail.mem_of_getElem? hi) he] at hjm
  have := h.index_inj hjm hi
  omega

theorem level_eq_of_reason (h : Trailed f c) (hi : c.trail.literals[i]? = some l) (hr : c.atoms.reason l.atom ≠ none) :
    c.atoms.levelOrZero l.atom = c.trail.levelAt i := by
  have hc := h.caused i l hi
  cases hreason : c.atoms.reason l.atom with
  | none => exact absurd hreason hr
  | some r =>
    rw [hreason] at hc
    cases r with
    | binary other => exact hc.1
    | long key => exact hc.1

/-- **A literal's level is that of its place, or zero.** -/
theorem level_eq (h : Trailed f c) (hi : c.trail.literals[i]? = some l) :
    c.atoms.levelOrZero l.atom = 0 ∨ c.atoms.levelOrZero l.atom = c.trail.levelAt i := by
  by_cases hr : c.atoms.reason l.atom = none
  · have hc := h.caused i l hi
    rw [hr] at hc
    exact hc.imp And.left And.left
  · exact .inr (h.level_eq_of_reason hi hr)

theorem level_eq_of_units (h : Trailed f c) (hu : c.pendingUnits = #[]) (hi : c.trail.literals[i]? = some l) :
    c.atoms.levelOrZero l.atom = c.trail.levelAt i := by
  by_cases hr : c.atoms.reason l.atom = none
  · have hc := h.caused i l hi
    rw [hr] at hc
    rcases hc with ⟨hz, -, hl | hp⟩ | ⟨he, -⟩
    · exact hz.trans hl.symm
    · simp [hu] at hp
    · exact he
  · exact h.level_eq_of_reason hi hr

theorem level_le (h : Trailed f c) (hi : c.trail.literals[i]? = some l) :
    c.atoms.levelOrZero l.atom ≤ c.trail.levelAt i := by
  rcases h.level_eq hi with e | e
  · rw [e]
    exact Nat.zero_le _
  · exact Nat.le_of_eq e

/-- **A reason follows from the formula, and all of it but the literal is false by what stands before.** -/
theorem reason_entails (h : Trailed f c) (hd : Denotes f c) (hi : c.trail.literals[i]? = some l)
    (hr : c.atoms.reason l.atom ≠ none) :
    ∃ rest : Clause, f.Entails (l :: rest) ∧ ∀ m ∈ rest, m.negate ∈ c.trail.before i := by
  have hc := h.caused i l hi
  cases hreason : c.atoms.reason l.atom with
  | none => exact absurd hreason hr
  | some r =>
    rw [hreason] at hc
    cases r with
    | binary other => exact ⟨[other], hc.2.2, by simpa using hc.2.1⟩
    | long key =>
      obtain ⟨-, rest, hkey, hrest⟩ := hc
      exact ⟨rest, hd.long key _ hkey, hrest⟩

/-- The literals of level zero follow from the formula, whether they stand there or were noted to. -/
theorem entails_at (h : Trailed f c) (hd : Denotes f c) : ∀ (i : Nat) (l : Literal), c.trail.literals[i]? = some l →
    c.atoms.levelOrZero l.atom = 0 → f.Entails [l] := by
  intro i
  -- by the place on the trail: what a reason needs stands before, at level zero too
  induction i using Nat.strongRecOn with
  | _ i ih =>
    intro l hi hz v hv
    by_cases hr : c.atoms.reason l.atom = none
    · have hc := h.caused i l hi
      rw [hr] at hc
      rcases hc with ⟨-, he⟩ | ⟨he, hs⟩
      · exact he.1 v hv
      · have hpos : 0 < c.trail.levelAt i := List.countP_pos_iff.2 ⟨i, hs, by simp⟩
        omega
    · have hlevel : c.trail.levelAt i = 0 := (h.level_eq_of_reason hi hr).symm.trans hz
      obtain ⟨rest, he, hrest⟩ := h.reason_entails hd hi hr
      obtain ⟨m, hm, hmv⟩ := he v hv
      rcases List.mem_cons.1 hm with rfl | hm
      · exact ⟨m, List.mem_singleton_self _, hmv⟩
      · obtain ⟨j, hj, hjm⟩ := Trail.mem_before.1 (hrest m hm)
        have hmono := Trail.levelAt_mono (t := c.trail) (Nat.le_of_lt hj)
        have hle := h.level_le hjm
        obtain ⟨n, hn, hnv⟩ := ih j hj m.negate hjm (by omega) v hv
        rw [List.mem_singleton.1 hn, Literal.holds_negate] at hnv
        exact absurd hmv hnv

/-- **What has level zero follows from the formula.** -/
theorem entails_of_level_zero (h : Trailed f c) (hd : Denotes f c) (hl : l ∈ c.trail.literals.toList)
    (hz : c.atoms.levelOrZero l.atom = 0) : f.Entails [l] := by
  obtain ⟨i, hi⟩ := Trail.mem_literals.1 hl
  exact h.entails_at hd i l hi hz

/-- **What entails a clause entails it without the literals false at level zero.** -/
theorem entails_without_zero (h : Trailed f c) (hd : Denotes f c) {clause left : Clause} (he : f.Entails clause)
    (hl : ∀ m ∈ clause, m ∈ left ∨ (m.negate ∈ c.trail.literals.toList ∧ c.atoms.levelOrZero m.atom = 0)) :
    f.Entails left := by
  intro v hv
  obtain ⟨m, hm, hmv⟩ := he v hv
  rcases hl m hm with hm | ⟨hmn, hz⟩
  · exact ⟨m, hm, hmv⟩
  · obtain ⟨n, hn, hnv⟩ := h.entails_of_level_zero hd hmn (by rwa [Literal.atom_negate]) v hv
    rw [List.mem_singleton.1 hn, Literal.holds_negate] at hnv
    exact absurd hmv hnv

theorem level_le_of_mem_upTo (h : Trailed f c) {k : Nat} (hl : l ∈ c.trail.upTo k) :
    c.atoms.levelOrZero l.atom ≤ k := by
  obtain ⟨i, hi, hk⟩ := h.layered.mem_upTo_iff.1 hl
  exact Nat.le_trans (h.level_le hi) hk

theorem entails_of_mem_upTo_zero (h : Trailed f c) (hd : Denotes f c) (hl : l ∈ c.trail.upTo 0) : f.Entails [l] :=
  h.entails_of_level_zero hd (Trail.upTo_subset_literals hl) (Nat.le_zero.1 (h.level_le_of_mem_upTo hl))

theorem mem_upTo_iff_of_units (h : Trailed f c) (hu : c.pendingUnits = #[]) (hl : l ∈ c.trail.literals.toList)
    {k : Nat} : l ∈ c.trail.upTo k ↔ c.atoms.levelOrZero l.atom ≤ k := by
  refine ⟨h.level_le_of_mem_upTo, fun hk => ?_⟩
  obtain ⟨i, hi⟩ := Trail.mem_literals.1 hl
  exact h.layered.mem_upTo_iff.2 ⟨i, hi, h.level_eq_of_units hu hi ▸ hk⟩

theorem mem_upTo_iff_level_le (h : Trailed f c) (hl : l ∈ c.trail.literals.toList)
    (hpos : 0 < c.atoms.levelOrZero l.atom) {k : Nat} : l ∈ c.trail.upTo k ↔ c.atoms.levelOrZero l.atom ≤ k := by
  refine ⟨h.level_le_of_mem_upTo, fun hk => ?_⟩
  obtain ⟨i, hi⟩ := Trail.mem_literals.1 hl
  have := h.level_eq hi
  exact h.layered.mem_upTo_iff.2 ⟨i, hi, by omega⟩

theorem level_le_level (h : Trailed f c) (hl : l ∈ c.trail.literals.toList) :
    c.atoms.levelOrZero l.atom ≤ c.trail.level := by
  obtain ⟨i, hi⟩ := Trail.mem_literals.1 hl
  exact Nat.le_trans (h.level_le hi) (Trail.levelAt_le_level ..)

end Trailed

/-! ## Contexts that say the same -/

/-- Two contexts that differ in activities, marks, the head of the trail, and what is told of them only. -/
structure Alike (c d : Context) : Prop where
  literals : d.trail.literals = c.trail.literals
  starts : d.trail.starts = c.trail.starts
  layered : c.trail.Layered → d.trail.Layered
  records : d.atoms.records = c.atoms.records
  stocked : c.atoms.Stocked → d.atoms.Stocked
  clauses : ClauseStore.Alike c.clauses d.clauses
  watches : d.watches = c.watches
  units : d.pendingUnits = c.pendingUnits

namespace Alike

variable {f : Formula} {settled : Nat → Prop} {c d e : Context}

theorem of_eq (ha : d.atoms = c.atoms) (hc : d.clauses = c.clauses) (hw : d.watches = c.watches)
    (ht : d.trail = c.trail) (hu : d.pendingUnits = c.pendingUnits) : Alike c d :=
  ⟨by rw [ht], by rw [ht], fun h => ht ▸ h, by rw [ha], fun h => ha ▸ h, hc ▸ .refl _, hw, hu⟩

theorem refl (c : Context) : Alike c c := of_eq rfl rfl rfl rfl rfl

theorem trans (h : Alike c d) (h' : Alike d e) : Alike c e where
  literals := h'.literals.trans h.literals
  starts := h'.starts.trans h.starts
  layered ht := h'.layered (h.layered ht)
  records := h'.records.trans h.records
  stocked hs := h'.stocked (h.stocked hs)
  clauses := h.clauses.trans h'.clauses
  watches := h'.watches.trans h.watches
  units := h'.units.trans h.units

theorem size (h : Alike c d) : d.trail.size = c.trail.size := congrArg Array.size h.literals

theorem level (h : Alike c d) : d.trail.level = c.trail.level := congrArg Array.size h.starts

theorem before (h : Alike c d) (i : Nat) : d.trail.before i = c.trail.before i := by
  unfold Trail.before
  rw [h.literals]

theorem levelAt (h : Alike c d) (i : Nat) : d.trail.levelAt i = c.trail.levelAt i := by
  unfold Trail.levelAt
  rw [h.starts]

theorem upTo (h : Alike c d) (k : Nat) : d.trail.upTo k = c.trail.upTo k := by
  unfold Trail.upTo
  rw [h.before, Trail.start_succ, Trail.start_succ, h.starts, h.size]

theorem count (h : Alike c d) : d.atoms.count = c.atoms.count := congrArg Array.size h.records

theorem value (h : Alike c d) (a : Nat) : d.atoms.value a = c.atoms.value a := by
  rw [AtomTable.value_eq, AtomTable.value_eq, h.records]

theorem reason (h : Alike c d) (a : Nat) : d.atoms.reason a = c.atoms.reason a := by
  rw [AtomTable.reason_eq, AtomTable.reason_eq, h.records]

theorem levelOrZero (h : Alike c d) (a : Nat) : d.atoms.levelOrZero a = c.atoms.levelOrZero a := by
  rw [AtomTable.levelOrZero_eq, AtomTable.levelOrZero_eq, h.records]

theorem literals? (h : Alike c d) : d.clauses.literals? = c.clauses.literals? := funext h.clauses.literals

theorem live_iff (h : Alike c d) {clause : Clause} : d.Live clause ↔ c.Live clause := by
  rw [Context.live_iff, Context.live_iff, h.watches, h.literals?]

theorem clashing (h : Alike c d) (hc : c.Clashing) : d.Clashing := by
  obtain ⟨clause, hl, hfalse⟩ := hc
  refine ⟨clause, h.live_iff.2 hl, fun l hm => ?_⟩
  rw [AtomTable.isFalse_iff, h.value]
  exact AtomTable.isFalse_iff.1 (hfalse l hm)

theorem trailed (h : Alike c d) (ht : Trailed f c) : Trailed f d where
  layered := h.layered ht.layered
  nodup := h.literals ▸ ht.nodup
  value l := by rw [h.value, h.literals, ht.value]
  caused i l hi := by
    rw [h.literals] at hi
    rw [h.reason]
    refine (ht.caused i l hi).of_eq (h.levelOrZero _) (h.levelAt i) (h.before i) (h.starts ▸ id) (h.units ▸ .inr)
      fun key rest _ hk => ⟨rest, ?_, fun _ => id⟩
    rw [h.literals?, hk]

theorem shaped (h : Alike c d) (hs : Shaped c) : Shaped d :=
  hs.carry h.count (by rw [h.watches]; exact ⟨rfl, rfl⟩) (fun l => by rw [h.watches])
    fun _ _ hk => .inl (h.literals? ▸ hk)

theorem partners (h : Alike c d) {a b : Literal} (hp : d.Partners a b) : c.Partners a b :=
  hp.carry (fun l => by rw [h.watches]) fun _ _ hk => h.literals? ▸ hk

theorem settles (h : Alike c d) {p q : List Literal} (hs : c.Settles p q) : d.Settles p q :=
  fun a b hp hm => hs a b (h.partners hp) hm

theorem current (h : Alike c d) {n : Nat} (hs : c.Current n) : d.Current n := by
  unfold Current
  rw [h.before, h.literals]
  exact h.settles hs

theorem denotes (h : Alike c d) (hd : Denotes f c) : Denotes f d :=
  hd.carry (Nat.le_of_eq h.count.symm) (fun l => by rw [h.watches]) h.literals? (h.units ▸ hd.units)
    ((h.upTo 0).symm ▸ fun _ => id)

theorem base (h : Alike c d) (hb : Base f settled c) : Base f settled d where
  trailed := h.trailed hb.trailed
  shaped := h.shaped hb.shaped
  slotted := h.clauses.slotted hb.slotted
  denotes := h.denotes hb.denotes
  stocked := h.stocked hb.stocked
  leveled := by
    unfold AtomTable.Leveled
    rw [h.records]
    exact hb.leveled
  below k hk hlt := by
    rw [h.level] at hlt
    rw [h.upTo]
    exact h.settles (hb.below k hk hlt)

/-- **Alike contexts satisfy the invariant alike**, but for the marks. -/
theorem sound (h : Alike c d) (hs : Sound f settled c) (hm : d.marks = c.marks) : Sound f settled d where
  toBase := h.base hs.toBase
  listed := by
    rw [h.watches, h.literals?]
    exact hs.listed
  marks := by rw [hm, h.count, hs.marks]

end Alike

/-- An atom with a value has it by a literal of the trail. -/
theorem Base.exists_literal {f : Formula} {settled : Nat → Prop} {c : Context} {a : Nat} {b : Bool}
    (h : Base f settled c) (hv : c.atoms.value a = some b) :
    ∃ l ∈ c.trail.literals.toList, l.atom = a ∧ l.positive = b := by
  have ha := Literal.lt_of_lt_atomLimit (Nat.lt_of_lt_of_le (AtomTable.lt_count_of_value hv) h.shaped.bounded)
  refine ⟨.ofAtom a b, (h.trailed.value _).1 ?_, Literal.atom_ofAtom ha b, Literal.positive_ofAtom ha b⟩
  rw [Literal.atom_ofAtom ha, Literal.positive_ofAtom ha, hv]

theorem Base.weaken {f : Formula} {settled fewer : Nat → Prop} {c : Context} (h : Base f settled c)
    (hw : ∀ k, fewer k → k < c.trail.level → settled k) : Base f fewer c :=
  { h with below := fun k hk hlt => h.below k (hw k hk hlt) hlt }

theorem Sound.weaken {f : Formula} {settled fewer : Nat → Prop} {c : Context} (h : Sound f settled c)
    (hw : ∀ k, fewer k → k < c.trail.level → settled k) : Sound f fewer c :=
  { h with toBase := h.toBase.weaken hw }

theorem Sound.unsettled {f : Formula} {settled : Nat → Prop} {c : Context} (h : Sound f settled c) :
    Sound f (fun _ => False) c := h.weaken fun _ hk _ => hk.elim

/-! ## What literals go back to -/

/-- A literal of the reason of an atom, and not of that atom. -/
inductive Antecedent (c : Context) (a : Nat) (m : Literal) : Prop
  | binary (h : c.atoms.reason a = some (.binary m))
  | long (key : ClauseKey) (ls : Clause) (h : c.atoms.reason a = some (.long key))
    (hk : c.clauses.literals? key = some ls) (hm : m ∈ ls) (hne : m.atom ≠ a)

/-- Above some level, a literal with a reason goes back to a literal of its own level. -/
def Anchored (bottom : Nat) (c : Context) : Prop :=
  ∀ l ∈ c.trail.literals.toList, bottom < c.atoms.levelOrZero l.atom → c.atoms.reason l.atom ≠ none →
    ∃ m, c.Antecedent l.atom m ∧ c.atoms.levelOrZero m.atom = c.atoms.levelOrZero l.atom

section

variable {f : Formula} {c d : Context} {l m other : Literal} {a bottom : Nat} {key : ClauseKey} {ls : Clause}

theorem not_antecedent_of_none (hr : c.atoms.reason a = none) : ¬c.Antecedent a m := by
  rintro (h | ⟨_, _, h⟩)
  · simp [hr] at h
  · simp [hr] at h

theorem antecedent_binary_iff (hr : c.atoms.reason a = some (.binary other)) : c.Antecedent a m ↔ m = other := by
  refine ⟨fun h => ?_, fun he => he ▸ .binary hr⟩
  cases h with
  | binary h =>
    rw [hr] at h
    cases h
    rfl
  | long key ls h =>
    rw [hr] at h
    cases h

theorem antecedent_long_iff (hr : c.atoms.reason a = some (.long key)) (hk : c.clauses.literals? key = some ls) :
    c.Antecedent a m ↔ m ∈ ls ∧ m.atom ≠ a := by
  refine ⟨fun h => ?_, fun ⟨hm, hne⟩ => .long key ls hr hk hm hne⟩
  cases h with
  | binary h =>
    rw [hr] at h
    cases h
  | long key ls h hls hm hne =>
    rw [hr] at h
    cases h
    rw [hk, Option.some.injEq] at hls
    exact ⟨hls ▸ hm, hne⟩

/-- **What a literal goes back to stands before it**, negated. -/
theorem Trailed.antecedent_before (ht : Trailed f c) {i : Nat} (hi : c.trail.literals[i]? = some l)
    (h : c.Antecedent l.atom m) : m.negate ∈ c.trail.before i := by
  have hcause := ht.caused i l hi
  cases h with
  | binary hr =>
    rw [hr] at hcause
    exact hcause.2.1
  | long key ls hr hk hm hne =>
    rw [hr] at hcause
    obtain ⟨-, rest, hkey, hbefore⟩ := hcause
    rw [hk, Option.some.injEq] at hkey
    subst hkey
    exact hbefore m ((List.mem_cons.1 hm).resolve_left fun he => hne (congrArg Literal.atom he))

/-- What a literal goes back to by a long reason are the other literals of that. -/
theorem Trailed.antecedent_iff_mem_rest (ht : Trailed f c) {i : Nat} (hi : c.trail.literals[i]? = some l) {rest : Clause}
    (hr : c.atoms.reason l.atom = some (.long key)) (hk : c.clauses.literals? key = some (l :: rest))
    (hbefore : ∀ m ∈ rest, m.negate ∈ c.trail.before i) : c.Antecedent l.atom m ↔ m ∈ rest := by
  rw [antecedent_long_iff hr hk, List.mem_cons]
  refine ⟨fun ⟨hm, hne⟩ => hm.resolve_left fun he => hne (congrArg Literal.atom he), fun hm => ⟨.inr hm, fun he => ?_⟩⟩
  exact ht.atom_ne_of_mem_before hi (hbefore m hm) (by rw [Literal.atom_negate, he])

theorem Trailed.antecedent_mem (ht : Trailed f c) (hl : l ∈ c.trail.literals.toList) (h : c.Antecedent l.atom m) :
    m.negate ∈ c.trail.literals.toList :=
  have ⟨_, hi⟩ := Trail.mem_literals.1 hl
  Trail.before_sublist (ht.antecedent_before hi h)

theorem Trailed.antecedent_atom_ne (ht : Trailed f c) (hl : l ∈ c.trail.literals.toList) (h : c.Antecedent l.atom m) :
    m.atom ≠ l.atom := by
  obtain ⟨i, hi⟩ := Trail.mem_literals.1 hl
  have hne := ht.atom_ne_of_mem_before hi (ht.antecedent_before hi h)
  rwa [Literal.atom_negate] at hne

/-- A long reason is live. -/
theorem Trailed.exists_long (ht : Trailed f c) (hl : l ∈ c.trail.literals.toList)
    (hr : c.atoms.reason l.atom = some (.long key)) : ∃ ls, c.clauses.literals? key = some ls := by
  obtain ⟨i, hi⟩ := Trail.mem_literals.1 hl
  have hcause := ht.caused i l hi
  rw [hr] at hcause
  obtain ⟨-, rest, hkey, -⟩ := hcause
  exact ⟨l :: rest, hkey⟩

/-- What an atom goes back to stays, with its reason, while no literal of that goes. -/
theorem Antecedent.keep {a : Nat} (h : c.Antecedent a m) (hr : d.atoms.reason a = c.atoms.reason a)
    (hk : ∀ key ls, c.atoms.reason a = some (.long key) → c.clauses.literals? key = some ls →
      ∃ left, d.clauses.literals? key = some left ∧ ∀ m ∈ ls, m ∈ left) : d.Antecedent a m := by
  cases h with
  | binary h => exact .binary (hr.trans h)
  | long key ls h hkey hm hne =>
    obtain ⟨left, hleft, hsub⟩ := hk key ls h hkey
    exact .long key left (hr.trans h) hleft (hsub m hm) hne

theorem Anchored.of_level_le (ht : Trailed f c) (hl : c.trail.level ≤ bottom) : c.Anchored bottom := fun _ hm hlt _ => by
  have := ht.level_le_level hm
  omega

theorem Anchored.mono {more : Nat} (h : c.Anchored bottom) (hle : bottom ≤ more) : c.Anchored more :=
  fun l hl hlt => h l hl (Nat.lt_of_le_of_lt hle hlt)

/-- **A literal that stays**, with its level, its reason and the literals of that, goes back to what it did. -/
theorem Anchored.keep (h : c.Anchored bottom) (hc : Trailed f c) (hd : Trailed f d)
    (hlevel : ∀ m ∈ c.trail.literals.toList, m ∈ d.trail.literals.toList →
      d.atoms.levelOrZero m.atom = c.atoms.levelOrZero m.atom)
    (hl : l ∈ c.trail.literals.toList) (hld : l ∈ d.trail.literals.toList)
    (hreason : d.atoms.reason l.atom = c.atoms.reason l.atom)
    (hk : ∀ key ls, c.atoms.reason l.atom = some (.long key) → c.clauses.literals? key = some ls →
      ∃ left, d.clauses.literals? key = some left ∧ ∀ m ∈ ls, m ∈ left)
    (hlt : bottom < d.atoms.levelOrZero l.atom) (hr : d.atoms.reason l.atom ≠ none) :
    ∃ m, d.Antecedent l.atom m ∧ d.atoms.levelOrZero m.atom = d.atoms.levelOrZero l.atom := by
  rw [hlevel l hl hld] at hlt ⊢
  obtain ⟨m, hm, he⟩ := h l hl hlt (hreason ▸ hr)
  have hmd := hm.keep hreason hk
  have hat := hlevel _ (hc.antecedent_mem hl hm) (hd.antecedent_mem hld hmd)
  rw [Literal.atom_negate] at hat
  exact ⟨m, hmd, hat.trans he⟩

theorem Anchored.carry (h : c.Anchored bottom) (hc : Trailed f c) (hd : Trailed f d)
    (hsub : d.trail.literals.toList ⊆ c.trail.literals.toList)
    (hlevel : ∀ l ∈ d.trail.literals.toList, d.atoms.levelOrZero l.atom = c.atoms.levelOrZero l.atom)
    (hreason : ∀ l ∈ d.trail.literals.toList, d.atoms.reason l.atom = c.atoms.reason l.atom)
    (hk : ∀ l ∈ c.trail.literals.toList, ∀ key, c.atoms.reason l.atom = some (.long key) →
      d.clauses.literals? key = c.clauses.literals? key) : d.Anchored bottom := fun l hl =>
  h.keep hc hd (fun m _ => hlevel m) (hsub hl) hl (hreason l hl) fun key ls he hls =>
    ⟨ls, (hk l (hsub hl) key he).trans hls, fun _ => id⟩

theorem Alike.anchored (ha : Alike c d) (ht : Trailed f c) (h : c.Anchored bottom) : d.Anchored bottom :=
  h.carry ht (ha.trailed ht) (by rw [ha.literals]; exact List.Subset.refl _) (fun _ _ => ha.levelOrZero _)
    (fun _ _ => ha.reason _) fun _ _ key _ => by rw [ha.literals?]

end

/-! ## With everything propagated -/

/-- The invariant at level zero with everything propagated. -/
structure Rooted (f : Formula) (settled : Nat → Prop) (c : Context) : Prop extends Sound f settled c where
  level : c.trail.level = 0
  current : c.Current c.trail.size
  head : c.trail.head = c.trail.size

namespace Rooted

variable {f : Formula} {settled : Nat → Prop} {c : Context} {l : Literal}

theorem upTo_zero (h : Rooted f settled c) : c.trail.upTo 0 = c.trail.literals.toList :=
  Trail.upTo_of_level_le (Nat.le_of_eq h.level)

theorem levelOrZero_eq (h : Rooted f settled c) (hl : l ∈ c.trail.literals.toList) :
    c.atoms.levelOrZero l.atom = 0 := by
  have := h.trailed.level_le_level hl
  rw [h.level] at this
  omega

end Rooted

/-- At level zero it does not matter which levels below are settled. -/
theorem Rooted.anywhere {f : Formula} {settled other : Nat → Prop} {c : Context} (h : Rooted f settled c) :
    Rooted f other c :=
  ⟨h.toSound.weaken fun k _ hlt => absurd hlt (h.level ▸ Nat.not_lt_zero k), h.level, h.current, h.head⟩

/-- The settled levels are those up to some level, or all. -/
structure Gapless (settled : Nat → Prop) : Prop where
  zero : settled 0
  below : ∀ k, settled (k + 1) → settled k

theorem gapless_zero : Gapless (· = 0) := ⟨rfl, fun k hk => absurd hk (Nat.succ_ne_zero k)⟩

/-- The invariant of a context that is not at work, where some levels are settled, the current one perhaps among them.  No
unit is pending, and whatever has a reason goes back to a literal of its own level. -/
structure Quiet (f : Formula) (settled : Nat → Prop) (c : Context) : Prop extends Sound f settled c where
  head : c.trail.head = c.trail.size
  units : c.pendingUnits = #[]
  current : settled c.trail.level → c.Current c.trail.size
  anchored : c.Anchored 0

section

variable {f : Formula} {settled other : Nat → Prop} {c d : Context}

theorem Quiet.rooted (h : Quiet f settled c) (hz : settled 0) (hl : c.trail.level = 0) : Rooted f settled c :=
  ⟨h.toSound, hl, h.current (hl ▸ hz), h.head⟩

theorem Rooted.quiet (h : Rooted f other c) (hu : c.pendingUnits = #[]) : Quiet f settled c :=
  ⟨h.anywhere.toSound, h.head, hu, fun _ => h.current, .of_level_le h.trailed (Nat.le_of_eq h.level)⟩

theorem Quiet.weaken (h : Quiet f settled c) (hw : ∀ k ≤ c.trail.level, other k → settled k) : Quiet f other c where
  toSound := h.toSound.weaken fun k hk hlt => hw k (Nat.le_of_lt hlt) hk
  head := h.head
  units := h.units
  current hk := h.current (hw _ (Nat.le_refl _) hk)
  anchored := h.anchored

theorem Quiet.alike (h : Quiet f settled c) (ha : Alike c d) (hm : d.marks = c.marks)
    (hh : d.trail.head = c.trail.head) : Quiet f settled d where
  toSound := ha.sound h.toSound hm
  head := by rw [hh, ha.size, h.head]
  units := ha.units.trans h.units
  current hk := by
    rw [ha.size]
    exact ha.current (h.current (ha.level ▸ hk))
  anchored := ha.anchored h.trailed h.anchored

end

/-- What holds of a context known to have no model.  It is at level zero, and the invariant holds for some of what the
formula says: the empty clause does not come to the context. -/
structure Barren (f : Formula) (c : Context) : Prop where
  unsatisfiable : ¬f.Satisfiable
  sound : ∃ g : Formula, (∀ v, f.Holds v → g.Holds v) ∧ Sound g (· = 0) c
  level : c.trail.level = 0
  head : c.trail.head = c.trail.size
  units : c.pendingUnits = #[]

theorem Sound.barren {f : Formula} {settled : Nat → Prop} {c : Context} (h : Sound f settled c) (hf : ¬f.Satisfiable)
    (hl : c.trail.level = 0) (hh : c.trail.head = c.trail.size) (hu : c.pendingUnits = #[]) : Barren f c :=
  ⟨hf, ⟨f, fun _ => id, h.weaken fun _ _ hlt => absurd (hl ▸ hlt) (Nat.not_lt_zero _)⟩, hl, hh, hu⟩

theorem Barren.mono {f g : Formula} {c : Context} (h : Barren f c) (hfg : ∀ v, g.Holds v → f.Holds v) : Barren g c where
  unsatisfiable := fun ⟨v, hv⟩ => h.unsatisfiable ⟨v, hfg v hv⟩
  sound :=
    have ⟨part, hpart, hs⟩ := h.sound
    ⟨part, fun v hv => hpart v (hfg v hv), hs⟩
  level := h.level
  head := h.head
  units := h.units

/-- Nothing is found out where it is known that there is no model, if the invariant stays. -/
theorem Barren.carry {f : Formula} {c d : Context} (h : Barren f c) (hs : ∀ g, Sound g (· = 0) c → Sound g (· = 0) d)
    (ht : d.trail = c.trail) (hu : d.pendingUnits = c.pendingUnits) : Barren f d where
  unsatisfiable := h.unsatisfiable
  sound :=
    have ⟨part, hpart, hsound⟩ := h.sound
    ⟨part, hpart, hs part hsound⟩
  level := by rw [ht, h.level]
  head := by rw [ht, h.head]
  units := hu.trans h.units

theorem Barren.alike {f : Formula} {c d : Context} (h : Barren f c) (ha : Alike c d) (hm : d.marks = c.marks)
    (ht : d.trail = c.trail) : Barren f d := h.carry (fun _ hs => ha.sound hs hm) ht ha.units

/-- **What holds of a context between calls**: it is known to have no model, and has none, or the invariant holds. -/
structure Resting (f : Formula) (settled : Nat → Prop) (c : Context) : Prop where
  barren : c.state = .unsatisfiable → Barren f c
  quiet : c.state ≠ .unsatisfiable → Quiet f settled c

section

variable {f : Formula} {settled other : Nat → Prop} {c : Context}

theorem Resting.unsatisfiable (h : Resting f settled c) (hs : c.state = .unsatisfiable) : ¬f.Satisfiable :=
  (h.barren hs).unsatisfiable

theorem Resting.of_quiet (h : Quiet f settled c) (hs : c.state ≠ .unsatisfiable) : Resting f settled c :=
  ⟨fun he => absurd he hs, fun _ => h⟩

theorem Resting.of_barren (h : Barren f c) (hs : c.state = .unsatisfiable) : Resting f settled c :=
  ⟨fun _ => h, fun hne => absurd hs hne⟩

/-- Between calls the invariant holds, of the formula or of some of what it says. -/
theorem Resting.exists_sound (h : Resting f (· = 0) c) :
    ∃ g settled, Sound g settled c ∧ c.pendingUnits = #[] ∧ ∀ v, f.Holds v → g.Holds v := by
  by_cases hs : c.state = .unsatisfiable
  · obtain ⟨g, hg, hsound⟩ := (h.barren hs).sound
    exact ⟨g, _, hsound, (h.barren hs).units, hg⟩
  · exact ⟨f, _, (h.quiet hs).toSound, (h.quiet hs).units, fun _ => id⟩

theorem Resting.weaken (h : Resting f settled c) (hw : ∀ k ≤ c.trail.level, other k → settled k) : Resting f other c :=
  ⟨h.barren, fun hs => (h.quiet hs).weaken hw⟩

end

end Context
end Cdcl
