import Cdcl.Proofs.Assignment
import Cdcl.Proofs.WatchLists
/-!
# ClauseChange — clauses that come, change and go

What keeps the invariant when a clause changes its literals or their order, when one is stored or removed, and when the
formula grows by a clause.  The trail and the values stay; a clause that is the reason of a literal keeps it first; what
is added follows from the formula, and what is taken away follows from what is left and level zero.
-/
namespace Cdcl

theorem Formula.Entails.mono {f g : Formula} {c : Clause} (h : f.Entails c) (hfg : ∀ v, g.Holds v → f.Holds v) :
    g.Entails c := fun v hv => h v (hfg v hv)

namespace Context

variable {f g : Formula} {settled : Nat → Prop} {c d : Context} {key : ClauseKey} {old new ls : Clause}

theorem Caused.mono {i : Nat} {l : Literal} {r : Option Reason} (h : Caused f c i l r)
    (hfg : ∀ v, g.Holds v → f.Holds v) : Caused g c i l r := by
  unfold Caused at *
  split at h
  · exact h.imp (fun h => ⟨h.1, h.2.1.mono hfg, h.2.2⟩) id
  · exact ⟨h.1, h.2.1, h.2.2.mono hfg⟩
  · exact h

theorem Trailed.mono (h : Trailed f c) (hfg : ∀ v, g.Holds v → f.Holds v) : Trailed g c :=
  { h with caused := fun i l hi => (h.caused i l hi).mono hfg }

/-- What is left of the trail, the values and the units by a change of clauses. -/
structure SameTrail (c d : Context) : Prop where
  trail : d.trail = c.trail
  atoms : d.atoms = c.atoms
  units : d.pendingUnits = c.pendingUnits
  course : d.course = c.course

theorem SameTrail.trans {e : Context} (h : SameTrail c d) (h' : SameTrail d e) : SameTrail c e :=
  ⟨h'.trail.trans h.trail, h'.atoms.trans h.atoms, h'.units.trans h.units, h'.course.trans h.course⟩

theorem SameTrail.toExtends (h : SameTrail c d) : Extends c d where
  starts := by rw [h.trail]
  literals := h.trail ▸ List.prefix_refl _
  count := by rw [h.atoms]
  level _ _ := by rw [h.atoms]
  reason _ _ := by rw [h.atoms]
  implied _ hl := .inl (h.trail ▸ hl)
  course := h.course

/-- **The invariant after a change of clauses.** -/
theorem Base.recast (hb : Base f settled c) (h : SameTrail c d) (hfg : ∀ v, g.Holds v → f.Holds v)
    (hreason : ∀ key l rest, c.clauses.literals? key = some (l :: rest) → l ∈ c.trail.literals.toList →
      c.atoms.reason l.atom = some (.long key) →
      ∃ left, d.clauses.literals? key = some (l :: left) ∧ ∀ m ∈ left, m ∈ rest)
    (hshaped : Shaped d) (hslotted : d.clauses.Slotted) (hdenotes : Denotes g d)
    (hbelow : ∀ k, settled k → k < c.trail.level → d.Settles (c.trail.upTo k) (c.trail.upTo k)) : Base g settled d where
  trailed := {
    layered := h.trail ▸ hb.trailed.layered
    nodup := h.trail ▸ hb.trailed.nodup
    value := fun l => by rw [h.atoms, h.trail, hb.trailed.value]
    caused := fun i l hi => by
      rw [h.trail] at hi
      rw [h.atoms]
      refine ((hb.trailed.caused i l hi).mono hfg).of_eq (by rw [h.atoms]) (by rw [h.trail]) (by rw [h.trail])
        (h.trail ▸ id) (h.units ▸ .inr) fun key rest hr hk => hreason key l rest hk (Trail.mem_of_getElem? hi) hr }
  shaped := hshaped
  slotted := hslotted
  denotes := hdenotes
  stocked := h.atoms ▸ hb.stocked
  leveled := h.atoms ▸ hb.leveled
  below k hk hlt := by
    rw [h.trail] at hlt ⊢
    exact hbelow k hk hlt

/-! ## Long lists change -/

/-- Long lists have changed, and nothing that the invariant is about but for them. -/
structure Rewatched (c d : Context) : Prop extends SameTrail c d where
  clauses : d.clauses = c.clauses
  binary : ∀ l, d.watches.binaryOf l = c.watches.binaryOf l
  sizes : d.watches.binary.size = c.watches.binary.size ∧ d.watches.long.size = c.watches.long.size

theorem Rewatched.partners (h : Rewatched c d) {a b : Literal} (hp : d.Partners a b) : c.Partners a b :=
  hp.carry h.binary fun _ _ hk => h.clauses ▸ hk

theorem Rewatched.current (h : Rewatched c d) {n : Nat} (hs : c.Current n) : d.Current n := by
  unfold Current
  rw [h.trail]
  exact fun a b hp hm => hs a b (h.partners hp) hm

theorem Base.rewatch (hb : Base f settled c) (h : Rewatched c d) : Base f settled d := by
  refine hb.recast h.toSameTrail (fun _ => id) (fun k l rest hk _ _ => ⟨rest, h.clauses ▸ hk, fun _ => id⟩) ?_
    (h.clauses ▸ hb.slotted) ?_ fun k hk hlt a b hp hm => hb.below k hk hlt a b (h.partners hp) hm
  · exact hb.shaped.carry (by rw [h.atoms]) h.sizes h.binary fun _ _ hk => .inl (h.clauses ▸ hk)
  · exact hb.denotes.carry (h.atoms ▸ Nat.le_refl _) h.binary (by rw [h.clauses]) (h.units ▸ hb.denotes.units)
      (h.trail ▸ fun _ => id)

/-! ## A clause changes its literals -/

/-- The literals of one clause have changed. -/
structure Relit (c : Context) (key : ClauseKey) (new : Clause) (d : Context) : Prop extends SameTrail c d where
  literals : ∀ k, d.clauses.literals? k = if k = key then some new else c.clauses.literals? k
  slotted : d.clauses.Slotted
  binary : ∀ l, d.watches.binaryOf l = c.watches.binaryOf l
  sizes : d.watches.binary.size = c.watches.binary.size ∧ d.watches.long.size = c.watches.long.size

/-- Wherever a context is settled, so are the first two literals of a clause. -/
def Settling (c : Context) (ls : Clause) : Prop :=
  ∀ p q, p ⊆ c.trail.literals.toList → q ⊆ c.trail.literals.toList → c.Settles p q →
    ∀ a b rest, ls = a :: b :: rest ∨ ls = b :: a :: rest → a.negate ∈ p → b ∈ q

theorem Settling.of_swap {a b : Literal} {rest left : Clause} (hk : c.clauses.literals? key = some (a :: b :: rest))
    (hn : ls = a :: b :: left ∨ ls = b :: a :: left) : c.Settling ls := by
  rintro p q - - hs x y other hxy hx
  have hpair : x = a ∧ y = b ∨ x = b ∧ y = a := by
    rcases hn with rfl | rfl <;> rcases hxy with e | e <;> cases e <;> simp
  rcases hpair with ⟨rfl, rfl⟩ | ⟨rfl, rfl⟩
  · exact hs _ _ (.first hk) hx
  · exact hs _ _ (.second hk) hx

namespace Relit

theorem settles (h : Relit c key new d) {p q : List Literal} (hs : c.Settles p q) (hn : c.Settling new)
    (hp : p ⊆ c.trail.literals.toList) (hq : q ⊆ c.trail.literals.toList) : d.Settles p q := by
  intro a b hab hm
  cases hab with
  | binary hb => exact hs a b (.binary (h.binary a ▸ hb)) hm
  | @first k _ _ rest hk =>
    rw [h.literals] at hk
    split at hk
    · cases hk
      exact hn p q hp hq hs a b rest (.inl rfl) hm
    · exact hs a b (.first hk) hm
  | @second k _ _ rest hk =>
    rw [h.literals] at hk
    split at hk
    · cases hk
      exact hn p q hp hq hs a b rest (.inr rfl) hm
    · exact hs a b (.second hk) hm

theorem current (h : Relit c key new d) {n : Nat} (hs : c.Current n) (hn : c.Settling new) : d.Current n := by
  unfold Current
  rw [h.trail]
  exact h.settles hs hn Trail.before_sublist fun _ => id

theorem shaped (h : Relit c key new d) (hs : Shaped c) (hk : c.clauses.literals? key = some old)
    (hlen : 3 ≤ new.length) (hnodup : (new.map Literal.atom).Nodup) (hsub : ∀ l ∈ new, l ∈ old) : Shaped d := by
  refine hs.carry (by rw [h.atoms]) h.sizes h.binary fun k ls hls => ?_
  rw [h.literals] at hls
  split at hls
  · cases hls
    exact .inr ⟨hlen, hnodup, fun l hl => (hs.long key old hk).2.2 l (hsub l hl)⟩
  · exact .inl hls

theorem denotes (h : Relit c key new d) (hd : Denotes f c) (hk : c.clauses.literals? key = some old)
    (hsub : ∀ l ∈ new, l ∈ old) (he : f.Entails new) : Denotes f d where
  known := by
    rw [h.atoms]
    exact hd.known
  binary a b hb := by
    rw [h.binary] at hb
    exact hd.binary a b hb
  long k ls hls := by
    rw [h.literals] at hls
    split at hls
    · cases hls
      exact he
    · exact hd.long k ls hls
  units := by
    rw [h.units]
    exact hd.units
  complete v hb hl hz := by
    refine hd.complete v (fun a b hab => hb a b (h.binary a ▸ hab)) (fun k ls hkl hls => ?_) (h.trail ▸ hz)
    by_cases he : k = key
    · rw [he, hk] at hls
      cases hls
      exact (hl k new hkl (by rw [h.literals, if_pos he])).mono hsub
    · exact hl k ls hkl (by rw [h.literals, if_neg he, hls])

end Relit

/-- **A clause may lose literals and change their order**, if it still follows from the formula, what it is the reason of
stays first, and its first two literals are settled where others are. -/
theorem Base.relit (hb : Base f settled c) (h : Relit c key new d) (hk : c.clauses.literals? key = some old)
    (hlen : 3 ≤ new.length) (hnodup : (new.map Literal.atom).Nodup) (hsub : ∀ l ∈ new, l ∈ old) (he : f.Entails new)
    (hreason : ∀ l rest, old = l :: rest → l ∈ c.trail.literals.toList → c.atoms.reason l.atom = some (.long key) →
      ∃ left, new = l :: left ∧ ∀ m ∈ left, m ∈ rest)
    (hn : c.Settling new) : Base f settled d := by
  refine hb.recast h.toSameTrail (fun _ => id) (fun k l rest hkl hl hr => ?_) (h.shaped hb.shaped hk hlen hnodup hsub)
    h.slotted (h.denotes hb.denotes hk hsub he) fun k hk' hlt =>
      h.settles (hb.below k hk' hlt) hn Trail.upTo_subset_literals Trail.upTo_subset_literals
  rw [h.literals]
  by_cases hkk : k = key
  · rw [hkk, hk, Option.some.injEq] at hkl
    obtain ⟨left, hleft, hsub⟩ := hreason l rest hkl hl (hkk ▸ hr)
    exact ⟨left, by rw [if_pos hkk, hleft], hsub⟩
  · exact ⟨rest, by rw [if_neg hkk, hkl], fun _ => id⟩

/-! ## A clause comes -/

/-- The formula has grown, and given level zero by no more than a clause says. -/
structure Grows (c : Context) (f g : Formula) (ls : Clause) : Prop where
  models : ∀ v, g.Holds v → f.Holds v
  entails : g.Entails ls
  known : ∀ d ∈ g, ∀ l ∈ d, l.atom < c.atoms.count
  back : ∀ v, f.Holds v → (∀ l ∈ c.trail.upTo 0, l.Holds v) → ls.Holds v → g.Holds v

theorem Grows.of_entails (hd : Denotes f c) (he : f.Entails ls) : Grows c f f ls :=
  ⟨fun _ => id, he, hd.known, fun _ hv _ _ => hv⟩

/-- Two literals of which neither is false in a settled level below the current one, unless the other is true there. -/
def Apart (c : Context) (settled : Nat → Prop) (a b : Literal) : Prop :=
  ∀ k, settled k → k < c.trail.level →
    (a.negate ∈ c.trail.upTo k → b ∈ c.trail.upTo k) ∧ (b.negate ∈ c.trail.upTo k → a ∈ c.trail.upTo k)

/-- Partners that were there, or are apart, are settled where a level is. -/
theorem Apart.settles {a b x y : Literal} {k : Nat} (h : c.Apart settled a b) (hb : Base f settled c) (hk : settled k)
    (hlt : k < c.trail.level) (hp : c.Partners x y ∨ (x = a ∧ y = b ∨ x = b ∧ y = a)) (hx : x.negate ∈ c.trail.upTo k) :
    y ∈ c.trail.upTo k := by
  rcases hp with hp | ⟨rfl, rfl⟩ | ⟨rfl, rfl⟩
  · exact hb.below k hk hlt x y hp hx
  · exact (h k hk hlt).1 hx
  · exact (h k hk hlt).2 hx

/-- A long clause has come to the store and the long lists. -/
structure StoredLong (c : Context) (key : ClauseKey) (ls : Clause) (d : Context) : Prop extends SameTrail c d where
  fresh : c.clauses.literals? key = none
  literals : ∀ k, d.clauses.literals? k = if k = key then some ls else c.clauses.literals? k
  slotted : d.clauses.Slotted
  binary : ∀ l, d.watches.binaryOf l = c.watches.binaryOf l
  sizes : d.watches.binary.size = c.watches.binary.size ∧ d.watches.long.size = c.watches.long.size

theorem StoredLong.partners {a b : Literal} {rest : Clause} (h : StoredLong c key (a :: b :: rest) d) {x y : Literal}
    (hp : d.Partners x y) : c.Partners x y ∨ (x = a ∧ y = b ∨ x = b ∧ y = a) := by
  cases hp with
  | binary hb => exact .inl (.binary (h.binary x ▸ hb))
  | first hk =>
    rw [h.literals] at hk
    split at hk
    · cases hk
      exact .inr (.inl ⟨rfl, rfl⟩)
    · exact .inl (.first hk)
  | second hk =>
    rw [h.literals] at hk
    split at hk
    · cases hk
      exact .inr (.inr ⟨rfl, rfl⟩)
    · exact .inl (.second hk)

/-- **A long clause may be stored**, as part of the formula or because it follows. -/
theorem Base.storeLong {a b : Literal} {rest : Clause} (hb : Base f settled c) (hg : Grows c f g (a :: b :: rest))
    (h : StoredLong c key (a :: b :: rest) d) (hlearnt : key.isLearnt = true → ∀ v, f.Holds v → g.Holds v)
    (hlen : rest ≠ []) (hnodup : ((a :: b :: rest).map Literal.atom).Nodup)
    (hknown : ∀ l ∈ a :: b :: rest, l.atom < c.atoms.count) (hapart : c.Apart settled a b) : Base g settled d := by
  have hold : ∀ {k ls}, c.clauses.literals? k = some ls → d.clauses.literals? k = some ls := by
    intro k ls hk
    rw [h.literals, if_neg, hk]
    rintro rfl
    rw [h.fresh] at hk
    cases hk
  refine hb.recast h.toSameTrail hg.models (fun k l left hk _ _ => ⟨left, hold hk, fun _ => id⟩) ?_ h.slotted ?_ ?_
  · refine hb.shaped.carry (by rw [h.atoms]) h.sizes h.binary fun k ls hk => ?_
    rw [h.literals] at hk
    split at hk
    · cases hk
      have := List.length_pos_iff.2 hlen
      exact .inr ⟨by simp only [List.length_cons]; omega, hnodup, hknown⟩
    · exact .inl hk
  · refine ⟨h.atoms ▸ hg.known, fun x y hxy => ?_, fun k ls hk => ?_, fun u hu => ?_, fun v hbin hlong hz => ?_⟩
    · rw [h.binary] at hxy
      exact (hb.denotes.binary x y hxy).mono hg.models
    · rw [h.literals] at hk
      split at hk
      · cases hk
        exact hg.entails
      · exact (hb.denotes.long k ls hk).mono hg.models
    · rw [h.units] at hu
      exact (hb.denotes.units u hu).mono hg.models
    · rw [h.trail] at hz
      have hf : f.Holds v := hb.denotes.complete v (fun x y hxy => hbin x y (h.binary x ▸ hxy))
        (fun k ls hkl hk => hlong k ls hkl (hold hk)) hz
      cases hkl : key.isLearnt with
      | true => exact hlearnt hkl v hf
      | false => exact hg.back v hf hz (hlong key _ hkl (by rw [h.literals, if_pos rfl]))
  · exact fun k hk hlt x y hxy hx => hapart.settles hb hk hlt (h.partners hxy) hx

/-- A binary clause has come to the binary lists. -/
structure Paired (c : Context) (a b : Literal) (d : Context) : Prop extends SameTrail c d where
  clauses : d.clauses = c.clauses
  count : ∀ m x, (d.watches.binaryOf m).toList.count x =
    (c.watches.binaryOf m).toList.count x + if m = a ∧ x = b ∨ m = b ∧ x = a then 1 else 0
  sizes : d.watches.binary.size = c.watches.binary.size ∧ d.watches.long.size = c.watches.long.size

theorem Paired.mem_iff {a b : Literal} (h : Paired c a b d) {m x : Literal} :
    x ∈ (d.watches.binaryOf m).toList ↔ (m = a ∧ x = b ∨ m = b ∧ x = a) ∨ x ∈ (c.watches.binaryOf m).toList := by
  rw [← List.count_pos_iff, ← List.count_pos_iff, h.count]
  split
  · rename_i hab
    simp [hab]
  · rename_i hab
    simp [hab]

theorem Paired.partners {a b : Literal} (h : Paired c a b d) {x y : Literal} (hp : d.Partners x y) :
    c.Partners x y ∨ (x = a ∧ y = b ∨ x = b ∧ y = a) := by
  cases hp with
  | binary hm => exact (h.mem_iff.1 hm).symm.imp .binary id
  | first hm => exact .inl (.first (h.clauses ▸ hm))
  | second hm => exact .inl (.second (h.clauses ▸ hm))

/-- **A binary clause may be added**, as part of the formula or because it follows. -/
theorem Base.pair {a b : Literal} (hb : Base f settled c) (hg : Grows c f g [a, b]) (h : Paired c a b d)
    (hne : a.atom ≠ b.atom) (ha : a.atom < c.atoms.count) (hbc : b.atom < c.atoms.count)
    (hapart : c.Apart settled a b) : Base g settled d := by
  refine hb.recast h.toSameTrail hg.models (fun k l left hk _ _ => ⟨left, h.clauses ▸ hk, fun _ => id⟩) ?_
    (h.clauses ▸ hb.slotted) ?_ ?_
  · refine ⟨by rw [h.sizes.1, h.atoms, hb.shaped.binarySize], by rw [h.sizes.2, h.atoms, hb.shaped.longSize],
      ?_, fun x y hxy => ?_, fun x y => ?_, h.atoms ▸ hb.shaped.bounded⟩
    · rw [h.clauses, h.atoms]
      exact hb.shaped.long
    · rw [h.atoms]
      rcases h.mem_iff.1 hxy with (⟨rfl, rfl⟩ | ⟨rfl, rfl⟩) | hxy
      · exact ⟨hne, ha, hbc⟩
      · exact ⟨hne.symm, hbc, ha⟩
      · exact hb.shaped.binary x y hxy
    · rw [h.count, h.count, hb.shaped.symmetric x y]
      congr 1
      by_cases hab : x = a ∧ y = b ∨ x = b ∧ y = a
      · rw [if_pos hab, if_pos (hab.symm.imp And.symm And.symm)]
      · rw [if_neg hab, if_neg fun e => hab (e.symm.imp And.symm And.symm)]
  · refine ⟨h.atoms ▸ hg.known, fun x y hxy => ?_, fun k ls hk => ?_, fun u hu => ?_, fun v hbin hlong hz => ?_⟩
    · rcases h.mem_iff.1 hxy with (⟨rfl, rfl⟩ | ⟨rfl, rfl⟩) | hxy
      · exact hg.entails
      · exact fun v hv => (hg.entails v hv).mono (by simp)
      · exact (hb.denotes.binary x y hxy).mono hg.models
    · rw [h.clauses] at hk
      exact (hb.denotes.long k ls hk).mono hg.models
    · rw [h.units] at hu
      exact (hb.denotes.units u hu).mono hg.models
    · rw [h.trail] at hz
      rw [h.clauses] at hlong
      exact hg.back v (hb.denotes.complete v (fun x y hxy => hbin x y (h.mem_iff.2 (.inr hxy))) hlong hz) hz
        (hbin a b (h.mem_iff.2 (.inl (.inl ⟨rfl, rfl⟩))))
  · exact fun k hk hlt x y hxy hx => hapart.settles hb hk hlt (h.partners hxy) hx

/-- **A formula may grow by what it says at level zero anyway.** -/
theorem Base.grow (hb : Base f settled c) (hfg : ∀ v, g.Holds v → f.Holds v)
    (hknown : ∀ d ∈ g, ∀ l ∈ d, l.atom < c.atoms.count)
    (hback : ∀ v, f.Holds v → (∀ l ∈ c.trail.upTo 0, l.Holds v) → g.Holds v) : Base g settled c :=
  hb.recast ⟨rfl, rfl, rfl, rfl⟩ hfg (fun _ _ rest hk _ _ => ⟨rest, hk, fun _ => id⟩) hb.shaped hb.slotted
    ⟨hknown, fun a b h => (hb.denotes.binary a b h).mono hfg, fun k ls h => (hb.denotes.long k ls h).mono hfg,
      fun u hu => (hb.denotes.units u hu).mono hfg, fun v hbin hlong hz => hback v (hb.denotes.complete v hbin hlong hz) hz⟩
    hb.below

/-! ## A clause goes -/

/-- A long clause has gone from the store. -/
structure RemovedLong (c : Context) (key : ClauseKey) (d : Context) : Prop extends SameTrail c d where
  literals : ∀ k, d.clauses.literals? k = if k = key then none else c.clauses.literals? k
  slotted : d.clauses.Slotted
  binary : ∀ l, d.watches.binaryOf l = c.watches.binaryOf l
  sizes : d.watches.binary.size = c.watches.binary.size ∧ d.watches.long.size = c.watches.long.size

namespace RemovedLong

theorem literals?_of_some (h : RemovedLong c key d) {k : ClauseKey} (hk : d.clauses.literals? k = some ls) :
    c.clauses.literals? k = some ls := by
  rw [h.literals] at hk
  split at hk
  · cases hk
  · exact hk

theorem partners (h : RemovedLong c key d) {a b : Literal} (hp : d.Partners a b) : c.Partners a b :=
  hp.carry h.binary fun _ _ hk => h.literals?_of_some hk

end RemovedLong

/-- **A long clause may be removed** that is no reason, if it was learnt or follows from the binary clauses and level
zero. -/
theorem Base.removeLong (hb : Base f settled c) (h : RemovedLong c key d) (hk : c.clauses.literals? key = some old)
    (hreason : ∀ l rest, old = l :: rest → l ∈ c.trail.literals.toList → c.atoms.reason l.atom ≠ some (.long key))
    (hback : key.isLearnt = false → ∀ v, (∀ a b, b ∈ (c.watches.binaryOf a).toList → Clause.Holds v [a, b]) →
      (∀ l ∈ c.trail.upTo 0, l.Holds v) → old.Holds v) : Base f settled d := by
  refine hb.recast h.toSameTrail (fun _ => id) (fun k l rest hkl hl hr => ?_) ?_ h.slotted ?_ fun k hk' hlt a b hp hm =>
      hb.below k hk' hlt a b (h.partners hp) hm
  · refine ⟨rest, ?_, fun _ => id⟩
    rw [h.literals, if_neg, hkl]
    rintro rfl
    rw [hk, Option.some.injEq] at hkl
    exact hreason l rest hkl hl hr
  · exact hb.shaped.carry (by rw [h.atoms]) h.sizes h.binary fun _ _ hls => .inl (h.literals?_of_some hls)
  · refine ⟨h.atoms ▸ hb.denotes.known, fun x y hxy => hb.denotes.binary x y (h.binary x ▸ hxy),
      fun k ls hls => hb.denotes.long k ls (h.literals?_of_some hls), h.units ▸ hb.denotes.units,
      fun v hbin hlong hz => ?_⟩
    have hbin : ∀ a b, b ∈ (c.watches.binaryOf a).toList → Clause.Holds v [a, b] :=
      fun x y hxy => hbin x y ((h.binary x).symm ▸ hxy)
    rw [h.trail] at hz
    refine hb.denotes.complete v hbin (fun k ls hkl hls => ?_) hz
    by_cases he : k = key
    · rw [he, hk, Option.some.injEq] at hls
      exact hls ▸ hback (he ▸ hkl) v hbin hz
    · exact hlong k ls hkl (by rw [h.literals, if_neg he, hls])

end Context
end Cdcl
