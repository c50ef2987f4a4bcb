import Cdcl.Proofs.Passage
import Cdcl.Proofs.Readiness
import Cdcl.Proofs.Stopping
/-!
# Retention — what a reduction keeps

A reduction goes through the learnt clauses in the order of their activity.  Which of them go is told by the context it
starts in (`givenUp`): whether a clause is locked does not depend on what has gone before it, for a removal leaves the
values and all other clauses as they are (`Shed.locked`).  So what is left is told key by key, and each list of watches is
the one before without the keys that have gone (`Shed.long`).
-/
namespace Cdcl

namespace ClauseStore

open Run

variable {s t : ClauseStore}

/-- Some clauses have gone from a store, all of them learnt, and under every other key the same is found. -/
structure Lacks (s : ClauseStore) (keys : List ClauseKey) (t : ClauseStore) : Prop where
  options : t.options = s.options
  input : t.input = s.input
  found : ∀ key stored, t.find key = .ok stored ↔ key ∉ keys ∧ s.find key = .ok stored

theorem Lacks.nil (s : ClauseStore) : Lacks s [] s := ⟨rfl, rfl, fun _ _ => by simp⟩

theorem Lacks.cons {u : ClauseStore} {key : ClauseKey} {keys : List ClauseKey} (h : Lacks s [key] t) (h' : Lacks t keys u) :
    Lacks s (key :: keys) u := by
  refine ⟨h'.options.trans h.options, h'.input.trans h.input, fun k stored => ?_⟩
  rw [h'.found, h.found, List.mem_singleton, List.mem_cons, not_or, ← and_assoc, and_comm (a := k ∉ keys)]

theorem Lacks.literals? {keys : List ClauseKey} (h : Lacks s keys t) (key : ClauseKey) (ls : Clause) :
    t.literals? key = some ls ↔ key ∉ keys ∧ s.literals? key = some ls := by
  simp only [literals?_eq_some_iff, h.found]
  exact ⟨fun ⟨c, ⟨hk, hc⟩, hl⟩ => ⟨hk, c, hc, hl⟩, fun ⟨hk, c, hc, hl⟩ => ⟨c, ⟨hk, hc⟩, hl⟩⟩

theorem lacks_free {i token : Nat} {c : StoredClause} (hc : s.find (.learnt i token) = .ok c)
    (ho : t.options = s.options) (hi : t.input = s.input) (hl : t.learnt = s.learnt.setIfInBounds i none) :
    Lacks s [.learnt i token] t := by
  refine ⟨ho, hi, fun k stored => ?_⟩
  rw [List.mem_singleton]
  exact find_free hc hi hl k stored

theorem meets_remove_learnt {key : ClauseKey} (hl : key.isLearnt = true) :
    Meets (Call.remove key) s (fun _ t => Lacks s [key] t) fun _ => True := by
  unfold Call.remove Call.find
  simp only [meets_bind, meets_get, meets_ofExcept]
  refine ⟨fun c hc => ?_, fun _ _ => trivial⟩
  cases key with
  | input i => cases hl
  | learnt i token =>
    simp only [meets_bind, meets_get, meets_require, meets_modify, meets_pure]
    exact fun _ => lacks_free hc rfl rfl rfl

end ClauseStore

namespace Context

/-- Some clauses have gone, all of them learnt, with their watches.  All else is as it was. -/
structure Shed (c : Context) (keys : List ClauseKey) (d : Context) : Prop where
  rest : d = { c with clauses := d.clauses, watches := d.watches }
  binary : d.watches.binary = c.watches.binary
  clauses : c.clauses.Lacks keys d.clauses

variable {c d e : Context} {key : ClauseKey} {keys : List ClauseKey}

theorem Shed.nil (c : Context) : Shed c [] c := ⟨rfl, rfl, .nil _⟩

theorem Shed.cons (h : Shed c [key] d) (h' : Shed d keys e) : Shed c (key :: keys) e := by
  refine ⟨?_, h'.binary.trans h.binary, h.clauses.cons h'.clauses⟩
  rw [h'.rest, h.rest]

theorem Shed.atoms (h : Shed c keys d) : d.atoms = c.atoms := by rw [h.rest]

/-- **Whether a clause is locked does not depend on the others.** -/
theorem Shed.locked (h : Shed c keys d) (hk : key ∉ keys) : d.locked key = c.locked key := by
  rw [Bool.eq_iff_iff, locked_iff, locked_iff, h.atoms]
  simp only [h.clauses.literals?, hk, not_false_eq_true, true_and]

/-- **Each list of watches is the one before, without the keys that have gone.** -/
theorem Shed.long {f g : Formula} {settled other : Nat → Prop} (h : Shed c keys d) (hc : Sound f settled c)
    (hd : Sound g other d) (l : Literal) :
    (d.watches.longOf l).toList.Perm ((c.watches.longOf l).toList.filter fun key => !decide (key ∈ keys)) := by
  rw [List.perm_ext_iff_of_nodup (hd.listed.nodup l) ((hc.listed.nodup l).filter _)]
  intro key
  rw [List.mem_filter, hd.listed.mem_iff, hc.listed.mem_iff, Bool.not_eq_true', decide_eq_false_iff_not]
  simp only [h.clauses.literals?]
  constructor
  · rintro ⟨ls, ⟨hk, hls⟩, hl⟩
    exact ⟨⟨ls, hls, hl⟩, hk⟩
  · rintro ⟨⟨ls, hls, hl⟩, hk⟩
    exact ⟨ls, ⟨hk, hls⟩, hl⟩

end Context

namespace Solver

open Run Context

variable {f : Formula} {settled : Nat → Prop} {c d : Context} {key : ClauseKey}

theorem meets_removeLong_shed (hl : key.isLearnt = true) :
    Meets (removeLong key) c (fun _ d => Shed c [key] d) fun _ => True := by
  unfold removeLong
  rw [meets_bind, meets_onClauses]
  refine (ClauseStore.meets_remove_learnt hl).mono (fun stored t ht => ?_) fun _ _ => trivial
  split
  · rw [meets_onWatches]
    exact Watches.meets_unwatchTwice ⟨rfl, rfl, ht⟩
  · trivial

/-- The keys that go, of learnt clauses by their activities, where so many of the less active half are left. -/
def givenUp (c : Context) (limit : Float) : Nat → List (ClauseKey × Float) → List ClauseKey
  | _, [] => []
  | half, (key, activity) :: rest =>
    if !c.locked key && (0 < half || Decidable.decide (activity < limit)) then key :: givenUp c limit (half - 1) rest
    else givenUp c limit (half - 1) rest

theorem mem_givenUp {limit : Float} : ∀ {half : Nat} {list : List (ClauseKey × Float)},
    key ∈ givenUp c limit half list ↔ ∃ i activity, list[i]? = some (key, activity) ∧ c.locked key = false ∧
      (i < half ∨ activity < limit)
  | _, [] => by simp [givenUp]
  | half, (k, activity) :: rest => by
    have ih := @mem_givenUp limit (half - 1) rest
    -- the place in the list is the first, or one in the rest
    have hsplit : (∃ i a, ((k, activity) :: rest)[i]? = some (key, a) ∧ c.locked key = false ∧ (i < half ∨ a < limit)) ↔
        key = k ∧ (c.locked k = false ∧ (0 < half ∨ activity < limit)) ∨
          ∃ i a, rest[i]? = some (key, a) ∧ c.locked key = false ∧ (i < half - 1 ∨ a < limit) := by
      constructor
      · rintro ⟨i, a, hi, hfree, hgo⟩
        cases i with
        | zero =>
          cases hi
          exact .inl ⟨rfl, hfree, hgo⟩
        | succ i => exact .inr ⟨i, a, hi, hfree, hgo.imp_left Nat.lt_sub_of_add_lt⟩
      · rintro (⟨rfl, hfree, hgo⟩ | ⟨i, a, hi, hfree, hgo⟩)
        · exact ⟨0, activity, rfl, hfree, hgo⟩
        · exact ⟨i + 1, a, hi, hfree, hgo.imp_left Nat.add_lt_of_lt_sub⟩
    have hgo : (!c.locked k && (Decidable.decide (0 < half) || Decidable.decide (activity < limit))) = true ↔
        c.locked k = false ∧ (0 < half ∨ activity < limit) := by
      simp
    rw [hsplit]
    unfold givenUp
    by_cases h : c.locked k = false ∧ (0 < half ∨ activity < limit)
    · rw [if_pos (hgo.2 h), List.mem_cons, ih, and_iff_left h]
    · rw [if_neg (mt hgo.1 h), ih]
      simp only [h, and_false, false_or]

theorem givenUp_congr {limit : Float} : ∀ {half : Nat} {list : List (ClauseKey × Float)},
    (∀ p ∈ list, d.locked p.1 = c.locked p.1) → givenUp d limit half list = givenUp c limit half list
  | _, [], _ => rfl
  | half, (k, activity) :: rest, h => by
    unfold givenUp
    rw [h _ List.mem_cons_self, givenUp_congr fun p hp => h p (List.mem_cons_of_mem _ hp)]

/-- **A reduction gives up what the context it starts in tells.** -/
theorem meets_removeInactive_shed {limit : Float} : ∀ (half : Nat) (list : List (ClauseKey × Float)) (c : Context),
    (list.map (·.1)).Nodup → (∀ p ∈ list, p.1.isLearnt = true) →
    Meets (removeInactive limit half list) c (fun _ d => Shed c (givenUp c limit half list) d) fun _ => True
  | _, [], c, _, _ => .nil c
  | half, (key, activity) :: rest, c, hnodup, hlist => by
    have hrest : ∀ p ∈ rest, p.1.isLearnt = true := fun p hp => hlist p (List.mem_cons_of_mem _ hp)
    obtain ⟨hnot, hnodup'⟩ := List.nodup_cons.1 hnodup
    unfold removeInactive givenUp
    rw [meets_bind]
    refine gives_isLocked.meets ?_
    split
    · rw [meets_bind]
      refine (meets_removeLong_shed (hlist _ List.mem_cons_self)).mono (fun _ d hd => ?_) fun _ _ => trivial
      have hsame : givenUp d limit (half - 1) rest = givenUp c limit (half - 1) rest := givenUp_congr fun p hp =>
        hd.locked fun he => hnot (List.mem_map.2 ⟨p, hp, List.mem_singleton.1 he⟩)
      exact (meets_removeInactive_shed (half - 1) rest d hnodup' hrest).mono (fun _ e he => hd.cons (hsame ▸ he))
        fun _ => id
    · exact meets_removeInactive_shed (half - 1) rest c hnodup' hrest

/-! ## The order of activity -/

/-- The learnt clauses with their activities, each once, the least active first.  Equals are in any order. -/
structure Ranked (c : Context) (list : List (ClauseKey × Float)) : Prop where
  mem : ∀ key activity, (key, activity) ∈ list ↔
    key.isLearnt = true ∧ ∃ stored, c.clauses.find key = .ok stored ∧ stored.activity = activity
  once : (list.map (·.1)).Nodup
  count : list.length = c.clauses.learntCount
  ascending : list.Pairwise fun a b => ¬b.2 < a.2

theorem ranked_byActivity (ht : c.clauses.Tallied) : Ranked c (byActivity c) := by
  have hperm : (byActivity c).Perm ((ClauseStore.inSlots c.clauses.learnt).map fun stored =>
      (stored.key, stored.activity)) := c.random.sort_perm _
  have hclauses : ∀ stored ∈ ClauseStore.inSlots c.clauses.learnt, stored ∈ c.clauses.clauses := by
    intro stored hs
    unfold ClauseStore.clauses
    rw [List.filterMap_append]
    exact List.mem_append_right _ hs
  refine ⟨fun key activity => ?_, (listing_byActivity ht).nodup, ?_, ?_⟩
  · rw [hperm.mem_iff, List.mem_map]
    constructor
    · rintro ⟨stored, hs, he⟩
      cases he
      exact ⟨ht.learntTally.isLearnt hs, stored, ht.find_of_mem (hclauses stored hs), rfl⟩
    · rintro ⟨hl, stored, hfind, rfl⟩
      cases key with
      | input i => cases hl
      | learnt i token =>
        have hin := Array.mem_toList_iff.2 (Array.mem_of_getElem? (ClauseStore.getElem?_learnt_of_find hfind))
        refine ⟨stored, List.mem_filterMap.2 ⟨_, hin, rfl⟩, ?_⟩
        rw [ClauseStore.key_of_find hfind]
  · rw [hperm.length_eq, List.length_map, ← ht.learntTally.count_eq]
  · exact (c.random.sort_ascending _).imp fun h hlt => Nat.not_le_of_lt (FloatOrder.orderKey_lt_of_lt hlt) h

theorem Ranked.first_of_two {list : List (ClauseKey × Float)} {p q : ClauseKey × Float} (h : Ranked c list)
    (hn : list.length = 2) (hp : p ∈ list) (hq : q ∈ list) (hlt : p.2 < q.2) : list[0]? = some p := by
  obtain ⟨a, b, rfl⟩ := List.length_eq_two.1 hn
  have hasc : ¬b.2 < a.2 := List.rel_of_pairwise_cons h.ascending List.mem_cons_self
  have hne : p ≠ q := by
    rintro rfl
    exact Nat.lt_irrefl _ (FloatOrder.orderKey_lt_of_lt hlt)
  simp only [List.mem_cons, List.not_mem_nil, or_false] at hp hq
  rcases hp with rfl | rfl
  · rfl
  · rcases hq with rfl | rfl
    · exact absurd hlt hasc
    · exact absurd rfl hne

/-! ## A reduction -/

/-- A learnt clause that a reduction gives up, of those in a list by their activity: it is not locked, and is one of the less
active half or less active than an even share of the bump. -/
def Outgoing (c : Context) (list : List (ClauseKey × Float)) (key : ClauseKey) : Prop :=
  ∃ i activity, list[i]? = some (key, activity) ∧ c.locked key = false ∧
    (i < list.length / 2 ∨ activity < c.clauses.options.bump.value / Float.ofNat list.length)

/-- Of the clauses in a list some were given up, and nothing else has changed. -/
structure Reduced (c : Context) (list : List (ClauseKey × Float)) (gone : List ClauseKey) (d : Context) : Prop
    extends Shed c gone d where
  outgoing : ∀ key, key ∈ gone ↔ Outgoing c list key
  learnt : ∀ key ∈ gone, key.isLearnt = true
  reasons : ∀ l ∈ c.trail.literals.toList, ∀ key, c.atoms.reason l.atom = some (.long key) → key ∉ gone
  long : ∀ l, (d.watches.longOf l).toList.Perm ((c.watches.longOf l).toList.filter fun key => !Decidable.decide (key ∈ gone))

theorem meets_reduce_shed (ht : c.clauses.Tallied) :
    Meets reduce c (fun _ d => ∃ gone, (∀ key, key ∈ gone ↔ Outgoing c (byActivity c) key) ∧ Shed c gone d) fun _ => True := by
  have hranked := ranked_byActivity ht
  unfold reduce
  rw [meets_bind, meets_get, meets_ite]
  constructor
  · intro hnone
    refine ⟨[], fun key => ?_, .nil c⟩
    have hnil : byActivity c = [] := List.eq_nil_of_length_eq_zero (hranked.count.trans hnone)
    simp [Outgoing, hnil]
  · intro _
    refine (meets_removeInactive_shed _ _ c hranked.once fun p hp => ((hranked.mem p.1 p.2).1 hp).1).mono
      (fun _ d hd => ⟨_, fun key => ?_, hd⟩) fun _ => id
    rw [mem_givenUp, Outgoing, hranked.count]
    rfl

/-- **A reduction answers, and gives up what it may, and nothing else.** -/
theorem answers_reduce_reduced (h : Sound f settled c) (ht : c.clauses.Tallied) :
    Answers reduce c fun _ d => ∃ list gone, Ranked c list ∧ Reduced c list gone d := by
  have hranked := ranked_byActivity ht
  refine (((meets_reduce_shed ht).and (meets_reduce h)).answers_of_stops (stops_reduce h ht)).mono fun _ d hd => ?_
  obtain ⟨⟨gone, hgone, hshed⟩, hsound, -⟩ := hd
  refine ⟨_, gone, hranked, hshed, hgone, fun key hk => ?_, fun l hl key hr hk => ?_, hshed.long h hsound⟩
  · obtain ⟨i, activity, hi, -⟩ := (hgone key).1 hk
    exact ((hranked.mem key activity).1 (List.mem_of_getElem? hi)).1
  · obtain ⟨i, activity, -, hfree, -⟩ := (hgone key).1 hk
    rw [locked_of_reason h.trailed hl hr] at hfree
    cases hfree

end Solver

namespace Session

open Solver

variable {s : Session} {k : Call} {d : Context}

/-- **A reduction removes only what it may.**  Wherever a call reduces, at any level, the reduction goes through.  The learnt
clauses stand in some order of activity, no clause before a less active one.  Those that go are the ones that are not locked
and are in the first half of that order, or less active than the bump shared evenly among the learnt clauses.  None of them is
a clause of the formula, or the reason of a literal on the trail.  Every other clause is found as before, with its literals in
their order and its activity; the lists of long clauses are those before without the keys that have gone, and all else is as
it was. -/
theorem reduce_exact (h : s.Followed) (hst : s.steps k s.context .reduce d) :
    ∃ list gone e, reduce d = .ok () e ∧ Ranked d list ∧ Reduced d list gone e := by
  obtain ⟨f, ⟨⟨settled, hd⟩, -, -⟩, -⟩ := h.held.ready hst
  obtain ⟨⟨⟩, e, he, list, gone, hranked, hgone⟩ := answers_reduce_reduced hd (tallied_of_steps h.tallied hst)
  exact ⟨list, gone, e, he, hranked, hgone⟩

theorem normal_or_four : Clause.normal [x₀, x₁, x₂, x₃] = [x₀, x₁, x₂, x₃] := Clause.normal_of_pairwise (by decide)

theorem normal_or_four_negate : Clause.normal [x₀, x₁, x₂, x₃.negate] = [x₀, x₁, x₂, x₃.negate] :=
  Clause.normal_of_pairwise (by decide)

theorem normal_unless_four : Clause.normal [x₁, x₂.negate, x₃, x₄] = [x₁, x₂.negate, x₃, x₄] :=
  Clause.normal_of_pairwise (by decide)

theorem normal_unless_four_negate : Clause.normal [x₁, x₂.negate, x₃, x₄.negate] = [x₁, x₂.negate, x₃, x₄.negate] :=
  Clause.normal_of_pairwise (by decide)

def lessActive (s : ClauseStore) (key other : ClauseKey) : Bool :=
  match s.find key, s.find other with
  | .ok stored, .ok stored' => decide (stored.activity < stored'.activity)
  | _, _ => false

theorem exists_of_lessActive {s : ClauseStore} {key other : ClauseKey} (h : lessActive s key other = true) :
    ∃ stored stored', s.find key = .ok stored ∧ s.find other = .ok stored' ∧ stored.activity < stored'.activity := by
  unfold lessActive at h
  split at h
  · rename_i stored stored' hk ho
    exact ⟨stored, stored', hk, ho, of_decide_eq_true h⟩
  · cases h

/-- Two clauses are learnt, the second by resolving with the first.  With other decisions the first is the reason of a literal,
and the second, which is less active and the reason of none, is given up. -/
theorem reduce_exact_removed : ∃ (s : Session) (list : List (ClauseKey × Float)) (gone : List ClauseKey) (e : Context),
    s.Followed ∧ s.steps .reduce s.context .reduce s.context ∧ s.context.trail.level = 3 ∧
    s.context.atoms.reason 2 = some (.long (.learnt 0 0)) ∧ reduce s.context = .ok () e ∧ Ranked s.context list ∧
    Reduced s.context list gone e ∧ .learnt 0 0 ∉ gone ∧ .learnt 1 0 ∈ gone := by
  have h : ((start {} .default).run [.freshAtom, .freshAtom, .freshAtom, .freshAtom, .freshAtom, .addClause [x₀, x₁, x₂, x₃],
      .addClause [x₀, x₁, x₂, x₃.negate], .addClause [x₁, x₂.negate, x₃, x₄], .addClause [x₁, x₂.negate, x₃, x₄.negate],
      .decide x₀.negate, .decide x₁.negate, .decide x₂.negate, .undo x₂.negate, .assertHere, .undo x₁.negate,
      .decide x₃.negate, .decide x₁.negate, .undo x₁.negate, .assertHere, .undo x₃.negate, .decide x₃,
      .decide x₁.negate]).map (fun s => (s.context.trail.level, s.context.trail.literals, s.context.atoms.reason 2,
        s.context.clauses.learntCount, s.context.locked (.learnt 1 0),
        lessActive s.context.clauses (.learnt 1 0) (.learnt 0 0))) =
      some (3, #[x₀.negate, x₃, x₁.negate, x₂], some (.long (.learnt 0 0)), 2, false, true) := by
    simp only [Session.run, Session.call, Session.after, addClause, normal_or_four, normal_or_four_negate,
      normal_unless_four, normal_unless_four_negate]
    decide +kernel
  obtain ⟨s, hs, hview⟩ := Option.map_eq_some_iff.1 h
  simp only [Prod.mk.injEq] at hview
  obtain ⟨hl, htrail, hreason, hcount, hfree, hless⟩ := hview
  have hfollowed : s.Followed := .run _ (.start {} .default) hs
  have hst : s.steps .reduce s.context .reduce s.context := ⟨rfl, rfl⟩
  obtain ⟨list, gone, e, he, hranked, hreduced⟩ := reduce_exact (k := .reduce) hfollowed hst
  have hmem : x₂ ∈ s.context.trail.literals.toList := by
    rw [htrail]
    decide
  obtain ⟨stored, stored', hk, ho, hlt⟩ := exists_of_lessActive hless
  have hn : list.length = 2 := hranked.count.trans hcount
  have hfirst := hranked.first_of_two hn ((hranked.mem _ _).2 ⟨rfl, stored, hk, rfl⟩)
    ((hranked.mem _ _).2 ⟨rfl, stored', ho, rfl⟩) hlt
  have hgone : .learnt 1 0 ∈ gone := (hreduced.outgoing _).2 ⟨0, _, hfirst, hfree, .inl (by rw [hn]; decide)⟩
  exact ⟨s, list, gone, e, hfollowed, hst, hl, hreason, he, hranked, hreduced, hreduced.reasons x₂ hmem _ hreason, hgone⟩

end Session
end Cdcl
