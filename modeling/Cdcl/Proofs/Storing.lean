import Cdcl.Proofs.ClauseChange
import Cdcl.Proofs.Outcome
import Cdcl.Solver.Assignment
/-!
# Storing — clauses come and go with their watches

A long clause that is stored is watched by its first two literals, and one that is removed is watched no more; a binary
clause comes to the lists of both its literals.  So the invariant is kept, whether the clause is part of the formula or
follows from it.  Where there is no room for a further clause nothing is stored.
-/
namespace Cdcl
namespace Context

variable {f : Formula} {settled : Nat → Prop} {c d : Context} {l : Literal}

theorem locked_iff {key : ClauseKey} : c.locked key = true ↔ ∃ first rest, c.clauses.literals? key = some (first :: rest) ∧
    c.atoms.isTrue first = true ∧ c.atoms.reason first.atom = some (.long key) := by
  unfold locked ClauseStore.literals?
  cases c.clauses.find key with
  | error _ => simp [Except.toOption]
  | ok stored =>
    cases hlits : stored.literals with
    | nil => simp [Except.toOption, hlits]
    | cons first rest => simp [Except.toOption, hlits]

/-- **A clause that is not locked is no reason.** -/
theorem not_reason_of_locked {f : Formula} {key : ClauseKey} {old : Clause} (ht : Trailed f c)
    (hk : c.clauses.literals? key = some old) (hlocked : c.locked key = false) :
    ∀ l rest, old = l :: rest → l ∈ c.trail.literals.toList → c.atoms.reason l.atom ≠ some (.long key) := by
  intro l rest hold hl hr
  subst hold
  rw [locked_iff.2 ⟨l, rest, hk, ht.isTrue_iff_mem.2 hl, hr⟩] at hlocked
  cases hlocked

/-- **A clause that is a reason is locked.** -/
theorem locked_of_reason {f : Formula} {key : ClauseKey} (ht : Trailed f c) (hl : l ∈ c.trail.literals.toList)
    (hr : c.atoms.reason l.atom = some (.long key)) : c.locked key = true := by
  obtain ⟨i, hi⟩ := Trail.mem_literals.1 hl
  have hcause := ht.caused i l hi
  rw [hr] at hcause
  obtain ⟨-, rest, hk, -⟩ := hcause
  exact locked_iff.2 ⟨l, rest, hk, ht.isTrue_iff_mem.2 hl, hr⟩

/-- The reason of a literal is a clause that has it first. -/
theorem Trailed.not_reason {key : ClauseKey} {old : Clause} (ht : Trailed f c) (hk : c.clauses.literals? key = some old)
    (hr : ∀ l rest, old = l :: rest → l ∈ c.trail.literals.toList → c.atoms.reason l.atom ≠ some (.long key)) :
    ∀ l ∈ c.trail.literals.toList, c.atoms.reason l.atom ≠ some (.long key) := by
  intro l hl he
  obtain ⟨i, hi⟩ := Trail.mem_literals.1 hl
  have hcause := ht.caused i l hi
  rw [he] at hcause
  obtain ⟨-, rest, hkey, -⟩ := hcause
  rw [hk, Option.some.injEq] at hkey
  exact hr l rest hkey hl he

/-- Clauses have gone or become shorter, but for reasons, and the trail and the values have stayed. -/
structure Trimmed (c d : Context) : Prop extends SameTrail c d where
  partners : ∀ a b, d.Partners a b → c.Partners a b
  reasons : ∀ l ∈ c.trail.literals.toList, ∀ key, c.atoms.reason l.atom = some (.long key) →
    d.clauses.literals? key = c.clauses.literals? key

theorem Trimmed.refl (c : Context) : Trimmed c c := ⟨⟨rfl, rfl, rfl, rfl⟩, fun _ _ => id, fun _ _ _ _ => rfl⟩

theorem Trimmed.trans {e : Context} (h : Trimmed c d) (h' : Trimmed d e) : Trimmed c e where
  toSameTrail := h.toSameTrail.trans h'.toSameTrail
  partners a b hp := h.partners a b (h'.partners a b hp)
  reasons l hl key hr := (h'.reasons l (h.trail.symm ▸ hl) key (h.atoms.symm ▸ hr)).trans (h.reasons l hl key hr)

theorem Trimmed.anchored {bottom : Nat} (h : Trimmed c d) (hc : Trailed f c) (hd : Trailed f d)
    (ha : c.Anchored bottom) : d.Anchored bottom :=
  ha.carry hc hd (by rw [h.trail]; exact List.Subset.refl _) (fun _ _ => by rw [h.atoms]) (fun _ _ => by rw [h.atoms])
    h.reasons

theorem Trimmed.current (h : Trimmed c d) {n : Nat} (hs : c.Current n) : d.Current n := by
  unfold Current
  rw [h.trail]
  exact fun a b hp hm => hs a b (h.partners a b hp) hm

theorem Rooted.trimmed (h : Rooted f settled c) (hs : Sound f settled d) (ht : Trimmed c d) : Rooted f settled d where
  toSound := hs
  level := by rw [ht.trail, h.level]
  current := by
    rw [ht.trail]
    exact ht.current h.current
  head := by rw [ht.trail, h.head]

/-- A clause has gone or become shorter, and under all other keys the same is found as before. -/
structure Cleared (c : Context) (key : ClauseKey) (d : Context) : Prop extends Trimmed c d where
  elsewhere : ∀ k, k ≠ key → d.clauses.literals? k = c.clauses.literals? k

theorem Cleared.refl (c : Context) (key : ClauseKey) : Cleared c key c := ⟨.refl c, fun _ _ => rfl⟩

/-- A clause that goes or becomes shorter is no reason. -/
theorem SameTrail.cleared {key : ClauseKey} (h : SameTrail c d) (hp : ∀ a b, d.Partners a b → c.Partners a b)
    (he : ∀ k, k ≠ key → d.clauses.literals? k = c.clauses.literals? k)
    (hn : ∀ l ∈ c.trail.literals.toList, c.atoms.reason l.atom ≠ some (.long key)) : Cleared c key d where
  toSameTrail := h
  partners := hp
  reasons l hl k hr := he k fun e => hn l hl (e ▸ hr)
  elsewhere := he

theorem RemovedLong.cleared {key : ClauseKey} (h : RemovedLong c key d)
    (hn : ∀ l ∈ c.trail.literals.toList, c.atoms.reason l.atom ≠ some (.long key)) : Cleared c key d :=
  h.toSameTrail.cleared (fun _ _ => h.partners) (fun k hk => by rw [h.literals, if_neg hk]) hn

end Context

namespace Watches

open Run

variable {w : Watches} {a b : Literal} {key : ClauseKey} {Q : Unit → Watches → Prop} {E : Watches → Prop}

theorem meets_watchTwice (h : Q () ((w.watchLong a key).watchLong b key)) :
    Meets (do
      Call.watchLong a key
      Call.watchLong b key) w Q E := by
  unfold Call.watchLong Call.change
  simp only [meets_bind, meets_get, meets_require, meets_modify]
  exact fun _ _ => h

theorem meets_unwatchTwice (h : Q () ((w.unwatchLong a key).unwatchLong b key)) :
    Meets (do
      Call.unwatchLong a key
      Call.unwatchLong b key) w Q E := by
  unfold Call.unwatchLong Call.change
  simp only [meets_bind, meets_get, meets_require, meets_modify]
  exact fun _ _ => h

theorem meets_watchBinary (h : w.knows a = true → w.knows b = true → Q () (w.watchBinary a b)) :
    Meets (Call.watchBinary a b) w Q E := by
  unfold Call.watchBinary Call.change
  simp only [meets_bind, meets_get, meets_require, meets_modify]
  exact h

end Watches

namespace Solver

open Run Context

variable {f g : Formula} {settled : Nat → Prop} {c : Context} {a b : Literal} {rest : Clause} {key : ClauseKey}

/-- Whether a clause is locked can be told if its first literal is known. -/
theorem gives_isLocked : Gives (isLocked key) c
    (∀ ls, c.clauses.literals? key = some ls → ∃ first rest, ls = first :: rest ∧ first.atom < c.atoms.count)
    (c.locked key) c := by
  unfold isLocked locked
  rw [gives_bind_get]
  cases hfind : c.clauses.find key with
  | error e => exact gives_pure
  | ok stored =>
    have hk := ClauseStore.literals?_of_find hfind
    dsimp only
    cases hl : stored.literals with
    | nil =>
      refine .inr ⟨fun ok => ?_, c, rfl⟩
      obtain ⟨first, rest, he, -⟩ := ok _ hk
      rw [hl] at he
      cases he
    | cons first rest =>
      refine gives_bind_expect (fun _ => nofun) fun l hfirst => ?_
      cases hfirst
      refine gives_bind_record (fun ok => ?_) fun r hr => ?_
      · obtain ⟨_, _, he, hknown⟩ := ok _ hk
        rw [hl] at he
        cases he
        exact hknown
      · have htrue : (r.value == some first.positive) = c.atoms.isTrue first := by
          rw [Bool.eq_iff_iff, beq_iff_eq, AtomTable.isTrue_iff, AtomTable.value_of_record hr]
        have hreason : r.reason = c.atoms.reason first.atom := by rw [AtomTable.reason_eq, hr, Option.bind_some]
        rw [htrue, hreason]
        exact gives_pure

/-- Of a stored clause it can be told whether it is locked. -/
theorem answers_isLocked {Q : Bool → Context → Prop} (h : Shaped c) : Answers (isLocked key) c Q ↔ Q (c.locked key) c := by
  refine gives_isLocked.answers fun ls hk => ?_
  obtain ⟨a, b, rest, rfl⟩ := h.exists_watched hk
  exact ⟨a, b :: rest, rfl, (h.long key _ hk).2.2 a List.mem_cons_self⟩

/-- **Storing a long clause keeps the invariant**, for a formula that may have grown by the clause. -/
theorem meets_storeLong {learnt : Bool} (h : Sound f settled c) (hg : Grows c f g (a :: b :: rest))
    (hlearnt : learnt = true → ∀ v, f.Holds v → g.Holds v) (hnodup : ((a :: b :: rest).map Literal.atom).Nodup)
    (hknown : ∀ l ∈ a :: b :: rest, l.atom < c.atoms.count) (hapart : c.Apart settled a b) :
    Meets (storeLong (a :: b :: rest) learnt) c
      (fun key d => Sound g settled d ∧ StoredLong c key (a :: b :: rest) d ∧ key.isLearnt = learnt)
      (fun d => Sound f settled d ∧ Trimmed c d) := by
  cases rest with
  | nil => exact ⟨h, .refl c⟩
  | cons third rest =>
    unfold storeLong
    rw [meets_bind, meets_onClauses]
    have hstore : Meets (if learnt then ClauseStore.Call.storeLearnt (a :: b :: third :: rest)
        else ClauseStore.Call.storeInput (a :: b :: third :: rest)) c.clauses
        (fun key t => ClauseStore.Stored c.clauses key (a :: b :: third :: rest) t ∧ key.isLearnt = learnt)
        (fun t => t.Slotted ∧ ∀ k, t.literals? k = c.clauses.literals? k) := by
      cases learnt with
      | true => exact ClauseStore.meets_storeLearnt h.slotted _
      | false =>
        refine (ClauseStore.meets_storeInput h.slotted _).mono (fun _ _ => id) fun t ht => ?_
        rw [ht]
        exact ⟨h.slotted, fun _ => rfl⟩
    refine hstore.mono (fun key t ⟨hs, hk⟩ => ?_) fun t ⟨hs, hlits⟩ => ?_
    · rw [meets_bind, meets_onWatches]
      refine Watches.meets_watchTwice ?_
      rw [meets_pure]
      have ha := (h.shaped.index_lt (hknown a (by simp))).2
      have hb := (h.shaped.index_lt (hknown b (by simp))).2
      have hstored : StoredLong c key (a :: b :: third :: rest) { c with
          clauses := t, watches := (c.watches.watchLong a key).watchLong b key } :=
        ⟨⟨rfl, rfl, rfl, rfl⟩, hs.fresh, hs.literals, hs.slotted, fun _ => rfl, rfl, by
          show ((c.watches.watchLong a key).watchLong b key).long.size = _
          rw [Watches.long_watchLong_size, Watches.long_watchLong_size]⟩
      have hab : a ≠ b := fun e => by simp [e] at hnodup
      have hnone : ∀ l, key ∉ (c.watches.longOf l).toList := fun l hl => by
        obtain ⟨ls, hls, -⟩ := (h.listed.mem_iff l key).1 hl
        rw [hs.fresh] at hls
        cases hls
      refine ⟨⟨h.toBase.storeLong hg hstored (hk ▸ hlearnt) (List.cons_ne_nil _ _) hnodup hknown hapart, ?_, h.marks⟩,
        hstored, hk⟩
      refine h.listed.store hs.fresh hs.literals (Watches.mem_watchLong_twice ha hb key) ?_
      refine Watches.nodup_watchLong (by rwa [Watches.long_watchLong_size]) ?_
        (Watches.nodup_watchLong ha (hnone a) h.listed.nodup)
      rw [Watches.longOf_watchLong _ _ ha, if_neg (Ne.symm hab)]
      exact hnone b
    · have halike : Alike c { c with clauses := t } :=
        { literals := rfl, starts := rfl, layered := id, records := rfl, stocked := id, clauses := ⟨hlits, fun _ => hs⟩
          watches := rfl, units := rfl }
      exact ⟨halike.sound h rfl, ⟨rfl, rfl, rfl, rfl⟩, fun a b => halike.partners, fun _ _ key _ => hlits key⟩

/-- **Storing a binary clause keeps the invariant**, for a formula that may have grown by the clause. -/
theorem meets_watchBinary (h : Sound f settled c) (hg : Grows c f g [a, b]) (hne : a.atom ≠ b.atom)
    (ha : a.atom < c.atoms.count) (hb : b.atom < c.atoms.count) (hapart : c.Apart settled a b) :
    Meets (onWatches (Watches.Call.watchBinary a b)) c (fun _ d => Sound g settled d ∧ Paired c a b d)
      (fun _ => False) := by
  rw [meets_onWatches]
  refine Watches.meets_watchBinary fun hka hkb => ?_
  have hp : Paired c a b { c with watches := c.watches.watchBinary a b } :=
    ⟨⟨rfl, rfl, rfl, rfl⟩, rfl, Watches.count_watchBinary hka hkb fun e => hne (congrArg Literal.atom e), by
      constructor
      · show ((c.watches.binary.modify _ _).modify _ _).size = _
        rw [Array.size_modify, Array.size_modify]
      · rfl⟩
  exact ⟨⟨h.toBase.pair hg hp hne ha hb hapart, h.listed, h.marks⟩, hp⟩

theorem meets_removeLong (hs : c.clauses.Slotted) (hk : c.clauses.literals? key = some (a :: b :: rest)) :
    Meets (removeLong key) c (fun _ d => ∃ t, ClauseStore.Removed c.clauses key t ∧
      d = { c with clauses := t, watches := (c.watches.unwatchLong a key).unwatchLong b key }) (fun _ => False) := by
  obtain ⟨stored, hfind, hlits⟩ := ClauseStore.literals?_eq_some_iff.1 hk
  unfold removeLong
  rw [meets_bind, meets_onClauses]
  refine (ClauseStore.meets_remove hs key).mono (fun s t ⟨hs, hr⟩ => ?_) fun t ⟨_, hnone⟩ => ?_
  · rw [hfind] at hs
    cases hs
    rw [hlits]
    dsimp only
    rw [meets_onWatches]
    exact Watches.meets_unwatchTwice ⟨t, hr, rfl⟩
  · rw [hk] at hnone
    cases hnone

/-- **Removing a long clause keeps the invariant**, if it is no reason, and was learnt or follows from the binary clauses
and level zero. -/
theorem meets_removeLong_sound {old : Clause} (h : Sound f settled c) (hk : c.clauses.literals? key = some old)
    (hreason : ∀ l rest, old = l :: rest → l ∈ c.trail.literals.toList → c.atoms.reason l.atom ≠ some (.long key))
    (hback : key.isLearnt = false → ∀ v, (∀ a b, b ∈ (c.watches.binaryOf a).toList → Clause.Holds v [a, b]) →
      (∀ l ∈ c.trail.upTo 0, l.Holds v) → old.Holds v) :
    Meets (removeLong key) c (fun _ d => Sound f settled d ∧ RemovedLong c key d) (fun _ => False) := by
  obtain ⟨a, b, rest, rfl⟩ := h.shaped.exists_watched hk
  refine (meets_removeLong h.slotted hk).mono (fun _ d ⟨t, hr, hd⟩ => ?_) fun _ => id
  have hremoved : RemovedLong c key d := by
    rw [hd]
    exact ⟨⟨rfl, rfl, rfl, rfl⟩, hr.literals, hr.slotted, fun _ => rfl, rfl, by simp [Watches.unwatchLong]⟩
  have hbase := h.toBase.removeLong hremoved hk hreason hback
  rw [hd] at hremoved hbase ⊢
  exact ⟨⟨hbase, Watches.listed_unwatch h.listed hk hr.literals, h.marks⟩, hremoved⟩

end Solver
end Cdcl
