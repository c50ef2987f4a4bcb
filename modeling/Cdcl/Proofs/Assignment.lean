import Cdcl.Proofs.Invariant
import Cdcl.Solver.Decision
/-!
# Assignment — a literal comes to the trail

Giving a value to an atom without one keeps the invariant, if the literal has a cause where it comes to stand
(`Base.push`).  Opening a level keeps it, if the level left below is settled where it has to be (`Base.newLevel`).
What one or more literals coming to the trail leave alone is said by `Extends`.
-/
namespace Cdcl
namespace Context

/-- A literal has come to the trail, with a level and a reason. -/
structure Pushed (c : Context) (l : Literal) (level : Nat) (reason : Option Reason) (d : Context) : Prop where
  trail : d.trail = c.trail.push l
  count : d.atoms.count = c.atoms.count
  value : ∀ a, d.atoms.value a = if a = l.atom then some l.positive else c.atoms.value a
  level : ∀ a, d.atoms.levelOrZero a = if a = l.atom then level else c.atoms.levelOrZero a
  reason : ∀ a, d.atoms.reason a = if a = l.atom then reason else c.atoms.reason a
  leveled : c.atoms.Leveled → d.atoms.Leveled
  units : ∀ u ∈ c.pendingUnits.toList, u ∈ d.pendingUnits.toList
  activity : d.atoms.activity = c.atoms.activity
  clauses : d.clauses = c.clauses
  watches : d.watches = c.watches
  marks : d.marks = c.marks
  course : d.course = c.course

/-- Literals with a reason, or of level zero, have come to the trail, and nothing of what was there has changed. -/
structure Extends (c d : Context) : Prop where
  starts : d.trail.starts = c.trail.starts
  literals : c.trail.literals.toList <+: d.trail.literals.toList
  count : d.atoms.count = c.atoms.count
  level : ∀ l ∈ c.trail.literals.toList, d.atoms.levelOrZero l.atom = c.atoms.levelOrZero l.atom
  reason : ∀ l ∈ c.trail.literals.toList, d.atoms.reason l.atom = c.atoms.reason l.atom
  implied : ∀ l ∈ d.trail.literals.toList, l ∈ c.trail.literals.toList ∨ d.atoms.reason l.atom ≠ none ∨
    d.atoms.levelOrZero l.atom = 0
  course : d.course = c.course

namespace Extends

variable {c d e : Context}

theorem refl (c : Context) : Extends c c :=
  ⟨rfl, List.prefix_refl _, rfl, fun _ _ => rfl, fun _ _ => rfl, fun _ h => .inl h, rfl⟩

theorem mem (h : Extends c d) {l : Literal} (hl : l ∈ c.trail.literals.toList) : l ∈ d.trail.literals.toList :=
  h.literals.subset hl

theorem trans (h : Extends c d) (h' : Extends d e) : Extends c e where
  starts := h'.starts.trans h.starts
  literals := h.literals.trans h'.literals
  count := h'.count.trans h.count
  level l hl := (h'.level l (h.mem hl)).trans (h.level l hl)
  reason l hl := (h'.reason l (h.mem hl)).trans (h.reason l hl)
  implied l hl := by
    rcases h'.implied l hl with hd | hr
    · refine (h.implied l hd).imp id fun hr => ?_
      rw [h'.reason l hd, h'.level l hd]
      exact hr
    · exact .inr hr
  course := h'.course.trans h.course

theorem trail_level (h : Extends c d) : d.trail.level = c.trail.level := congrArg Array.size h.starts

theorem levelAt (h : Extends c d) (i : Nat) : d.trail.levelAt i = c.trail.levelAt i := by
  unfold Trail.levelAt
  rw [h.starts]

theorem getElem? (h : Extends c d) {i : Nat} {l : Literal} (hi : c.trail.literals[i]? = some l) :
    d.trail.literals[i]? = some l := by
  rw [← Array.getElem?_toList] at hi ⊢
  obtain ⟨hlt, rfl⟩ := List.getElem?_eq_some_iff.1 hi
  exact List.prefix_iff_getElem?.1 h.literals _ hlt

end Extends

/-- What is yet to be propagated is of the current level. -/
def Fresh (c : Context) : Prop :=
  ∀ (i : Nat) (l : Literal), c.trail.head ≤ i → c.trail.literals[i]? = some l →
    c.atoms.levelOrZero l.atom = c.trail.level

theorem Fresh.of_head {c : Context} (h : c.trail.head = c.trail.size) : c.Fresh := fun i l hi hl => by
  have := Trail.lt_size_of_getElem? hl
  omega

theorem Fresh.snoc {c d : Context} {l : Literal} (hl : d.trail.literals.toList = c.trail.literals.toList ++ [l])
    (hh : d.trail.head = c.trail.size) (hlevel : d.atoms.levelOrZero l.atom = d.trail.level) : d.Fresh := by
  intro i m hi hm
  rw [hh] at hi
  have hle : c.trail.literals.toList.length ≤ i := hi
  rw [← Array.getElem?_toList, hl, List.getElem?_append_right hle] at hm
  obtain ⟨-, rfl⟩ := List.getElem?_eq_some_iff.1 hm
  simpa using hlevel

theorem Alike.toExtends {c d : Context} (h : Alike c d) (hc : d.course = c.course) : Extends c d where
  starts := h.starts
  literals := h.literals ▸ List.prefix_refl _
  count := h.count
  level _ _ := h.levelOrZero _
  reason _ _ := h.reason _
  implied _ hl := .inl (h.literals ▸ hl)
  course := hc

variable {f : Formula} {settled : Nat → Prop} {c d : Context} {l : Literal} {level : Nat} {reason : Option Reason}

namespace Pushed

theorem recount {counters : Counters} (h : Pushed { c with counters } l level reason d) : Pushed c l level reason d :=
  ⟨h.trail, h.count, h.value, h.level, h.reason, h.leveled, h.units, h.activity, h.clauses, h.watches, h.marks, h.course⟩

theorem before_size (h : Pushed c l level reason d) : d.trail.before c.trail.size = c.trail.literals.toList := by
  rw [h.trail, Trail.before_push_of_le (Nat.le_refl _), Trail.before_of_size_le (Nat.le_refl _)]

theorem literals (h : Pushed c l level reason d) : d.trail.literals.toList = c.trail.literals.toList ++ [l] := by
  rw [h.trail, Trail.literals_push]

theorem mem_iff (h : Pushed c l level reason d) {m : Literal} :
    m ∈ d.trail.literals.toList ↔ m ∈ c.trail.literals.toList ∨ m = l := by
  rw [h.literals, List.mem_append, List.mem_singleton]

theorem level_self (h : Pushed c l level reason d) : d.atoms.levelOrZero l.atom = level := by rw [h.level, if_pos rfl]

theorem reason_self (h : Pushed c l level reason d) : d.atoms.reason l.atom = reason := by rw [h.reason, if_pos rfl]

theorem levelAt_size (h : Pushed c l level reason d) (ht : c.trail.Layered) :
    d.trail.levelAt c.trail.size = c.trail.level := by
  rw [h.trail, Trail.levelAt_push, ht.levelAt_size]

/-! ## Causes for the literal that has come -/

/-- A literal that follows from the formula needs no reason at level zero, nor above it as a pending unit. -/
theorem caused_zero (h : Pushed c l 0 none d) (ht : c.trail.Layered) (he : f.Entails [l])
    (hz : c.trail.level = 0 ∨ l ∈ d.pendingUnits.toList) : Caused f d c.trail.size l none :=
  .inl ⟨h.level_self, he, hz.imp (h.levelAt_size ht).trans id⟩

theorem caused_first (h : Pushed c l c.trail.level none d) (ht : c.trail.Layered)
    (hs : c.trail.size ∈ c.trail.starts.toList) : Caused f d c.trail.size l none := by
  refine .inr ⟨by rw [h.level_self, h.levelAt_size ht], ?_⟩
  rw [h.trail]
  exact hs

theorem caused_binary {other : Literal} (h : Pushed c l c.trail.level (some (.binary other)) d) (ht : c.trail.Layered)
    (hn : other.negate ∈ c.trail.literals.toList) (he : f.Entails [l, other]) :
    Caused f d c.trail.size l (some (.binary other)) :=
  ⟨by rw [h.level_self, h.levelAt_size ht], h.before_size ▸ hn, he⟩

theorem caused_long {key : ClauseKey} {rest : Clause} (h : Pushed c l c.trail.level (some (.long key)) d)
    (ht : c.trail.Layered) (hk : c.clauses.literals? key = some (l :: rest))
    (hn : ∀ m ∈ rest, m.negate ∈ c.trail.literals.toList) : Caused f d c.trail.size l (some (.long key)) :=
  ⟨by rw [h.level_self, h.levelAt_size ht], rest, h.clauses ▸ hk, fun m hm => h.before_size ▸ hn m hm⟩

/-! ## The parts of the invariant -/

theorem caused_of_mem (h : Pushed c l level reason d) (ht : Trailed f c) (hv : c.atoms.value l.atom = none) {i : Nat}
    {m : Literal} (hi : c.trail.literals[i]? = some m) : Caused f d i m (d.atoms.reason m.atom) := by
  have hne : m.atom ≠ l.atom := fun e => by
    have := (ht.value m).2 (Trail.mem_of_getElem? hi)
    rw [e, hv] at this
    cases this
  have hlt := Trail.lt_size_of_getElem? hi
  rw [h.reason, if_neg hne]
  refine (ht.caused i m hi).of_eq ?_ ?_ ?_ ?_ (fun hu => .inr (h.units m hu)) fun key rest _ hk => ⟨rest, ?_, fun _ => id⟩
  · rw [h.level, if_neg hne]
  · rw [h.trail, Trail.levelAt_push]
  · rw [h.trail, Trail.before_push_of_le (Nat.le_of_lt hlt)]
  · rw [h.trail]
    exact id
  · rw [h.clauses, hk]

theorem trailed (h : Pushed c l level reason d) (ht : Trailed f c) (hv : c.atoms.value l.atom = none)
    (hc : Caused f d c.trail.size l reason) : Trailed f d where
  layered := h.trail ▸ Trail.layered_push ht.layered l
  nodup := by
    rw [h.literals, List.nodup_append]
    refine ⟨ht.nodup, List.pairwise_singleton .., fun m hm n hn => ?_⟩
    rw [List.mem_singleton.1 hn]
    rintro rfl
    exact (ht.not_mem_of_value_none hv).1 hm
  value m := by
    rw [h.value, h.mem_iff]
    split
    · rename_i he
      have hm : m ∉ c.trail.literals.toList := (ht.not_mem_of_value_none (he ▸ hv)).1
      rw [Literal.eq_iff, Option.some.injEq]
      exact ⟨fun hp => .inr ⟨he, hp.symm⟩, fun hor => ((hor.resolve_left hm).2).symm⟩
    · rename_i hne
      rw [ht.value]
      exact ⟨.inl, fun hor => hor.resolve_right fun e => hne (congrArg Literal.atom e)⟩
  caused i m hi := by
    rw [h.trail, Trail.getElem?_push_eq_some_iff] at hi
    rcases hi with hi | ⟨rfl, rfl⟩
    · exact h.caused_of_mem ht hv hi
    · rw [h.reason_self]
      exact hc

theorem shaped (h : Pushed c l level reason d) (hs : Shaped c) : Shaped d :=
  hs.carry h.count (by rw [h.watches]; exact ⟨rfl, rfl⟩) (fun l => by rw [h.watches])
    fun _ _ hk => .inl (h.clauses ▸ hk)

theorem partners (h : Pushed c l level reason d) {a b : Literal} (hp : d.Partners a b) : c.Partners a b :=
  hp.carry (fun l => by rw [h.watches]) fun _ _ hk => h.clauses ▸ hk

theorem current (h : Pushed c l level reason d) {n : Nat} (hn : n ≤ c.trail.size) (hs : c.Current n) : d.Current n := by
  intro a b hp hm
  rw [h.trail, Trail.before_push_of_le hn] at hm
  exact h.mem_iff.2 (.inl (hs a b (h.partners hp) hm))

theorem upTo_subset (h : Pushed c l level reason d) (ht : c.trail.Layered) (k : Nat) :
    c.trail.upTo k ⊆ d.trail.upTo k := by
  rw [h.trail]
  by_cases hk : k < c.trail.level
  · rw [ht.upTo_push_of_lt hk]
    exact fun _ => id
  · rw [Trail.upTo_of_level_le (t := c.trail.push l) (by rw [Trail.level_push]; omega), Trail.literals_push]
    exact fun m hm => List.mem_append_left _ (Trail.upTo_subset_literals hm)

theorem denotes (h : Pushed c l level reason d) (hd : Denotes f c) (ht : c.trail.Layered)
    (hu : ∀ u ∈ d.pendingUnits.toList, f.Entails [u]) : Denotes f d :=
  hd.carry (Nat.le_of_eq h.count.symm) (fun l => by rw [h.watches]) (by rw [h.clauses]) hu (h.upTo_subset ht 0)

theorem stocked (h : Pushed c l level reason d) (hs : c.atoms.Stocked) : d.atoms.Stocked where
  linked := h.activity ▸ hs.linked
  size := by rw [h.activity, h.count, hs.size]
  free a ha hv := by
    rw [h.count] at ha
    rw [h.value] at hv
    rw [h.activity]
    split at hv
    · cases hv
    · exact hs.free a ha hv

theorem toExtends (h : Pushed c l level reason d) (ht : Trailed f c) (hv : c.atoms.value l.atom = none)
    (hr : reason ≠ none ∨ level = 0) : Extends c d where
  starts := by rw [h.trail]; rfl
  literals := h.literals ▸ List.prefix_append ..
  count := h.count
  level m hm := by
    rw [h.level, if_neg]
    exact fun e => (ht.not_mem_of_value_none (e ▸ hv)).1 hm
  reason m hm := by
    rw [h.reason, if_neg]
    exact fun e => (ht.not_mem_of_value_none (e ▸ hv)).1 hm
  implied m hm := by
    rcases h.mem_iff.1 hm with hm | rfl
    · exact .inl hm
    · rw [h.reason_self, h.level_self]
      exact .inr hr
  course := h.course

end Pushed

/-- **A literal that has a cause may come to the trail.** -/
theorem Base.push (hb : Base f settled c) (h : Pushed c l level reason d) (hv : c.atoms.value l.atom = none)
    (hc : Caused f d c.trail.size l reason) (hu : ∀ u ∈ d.pendingUnits.toList, f.Entails [u]) : Base f settled d where
  trailed := h.trailed hb.trailed hv hc
  shaped := h.shaped hb.shaped
  slotted := h.clauses ▸ hb.slotted
  denotes := h.denotes hb.denotes hb.trailed.layered hu
  stocked := h.stocked hb.stocked
  leveled := h.leveled hb.leveled
  below k hk hlt := by
    rw [h.trail, Trail.level_push] at hlt
    rw [h.trail, hb.trailed.layered.upTo_push_of_lt hlt]
    exact fun a b hp hm => hb.below k hk hlt a b (h.partners hp) hm

theorem Sound.push (hs : Sound f settled c) (h : Pushed c l level reason d) (hv : c.atoms.value l.atom = none)
    (hc : Caused f d c.trail.size l reason) (hu : ∀ u ∈ d.pendingUnits.toList, f.Entails [u]) : Sound f settled d where
  toBase := hs.toBase.push h hv hc hu
  listed := by
    rw [h.watches, h.clauses]
    exact hs.listed
  marks := by rw [h.marks, h.count, hs.marks]

/-! ## A level opened -/

/-- **A level may be opened above a level that is settled**, if that one has to be. -/
theorem Base.newLevel (hb : Base f settled c) (hs : settled c.trail.level → c.Current c.trail.size) :
    Base f settled { c with trail := c.trail.newLevel } where
  trailed := {
    layered := Trail.layered_newLevel hb.trailed.layered
    nodup := hb.trailed.nodup
    value := hb.trailed.value
    caused := fun i m hi => by
      have hlt : i < c.trail.size := Trail.lt_size_of_getElem? hi
      refine (hb.trailed.caused i m hi).of_eq rfl (Trail.levelAt_newLevel_of_lt hlt) rfl (fun hs => ?_) .inr
        fun key rest _ hk => ⟨rest, hk, fun _ => id⟩
      show i ∈ (c.trail.starts.push _).toList
      rw [Array.toList_push]
      exact List.mem_append_left _ hs }
  shaped := ⟨hb.shaped.binarySize, hb.shaped.longSize, hb.shaped.long, hb.shaped.binary, hb.shaped.symmetric,
    hb.shaped.bounded⟩
  slotted := hb.slotted
  denotes := ⟨hb.denotes.known, hb.denotes.binary, hb.denotes.long, hb.denotes.units, fun v hbin hlong hz =>
    hb.denotes.complete v hbin hlong fun m hm => hz m ((Trail.upTo_newLevel_of_le (Nat.zero_le _)).symm ▸ hm)⟩
  stocked := hb.stocked
  leveled := hb.leveled
  below k hk hlt := by
    have hp : ∀ a b, ({ c with trail := c.trail.newLevel } : Context).Partners a b → c.Partners a b :=
      fun a b hp => hp.carry (fun _ => rfl) fun _ _ => id
    have hlt : k < c.trail.level + 1 := by
      rw [← Trail.level_newLevel]
      exact hlt
    show Settles _ (c.trail.newLevel.upTo k) (c.trail.newLevel.upTo k)
    rw [Trail.upTo_newLevel_of_le (by omega)]
    rcases Nat.lt_succ_iff_lt_or_eq.1 hlt with hlt | rfl
    · exact fun a b h hm => hb.below k hk hlt a b (hp a b h) hm
    · have hcur := hs hk
      rw [Current, Trail.before_of_size_le (Nat.le_refl _)] at hcur
      rw [Trail.upTo_of_level_le (Nat.le_refl _)]
      exact fun a b h hm => hcur a b (hp a b h) hm

theorem Sound.newLevel (h : Sound f settled c) (hs : settled c.trail.level → c.Current c.trail.size) :
    Sound f settled { c with trail := c.trail.newLevel } where
  toBase := h.toBase.newLevel hs
  listed := h.listed
  marks := h.marks

end Context

namespace Solver

open Run Context

variable {c : Context} {Q : Unit → Context → Prop} {E : Context → Prop}

theorem pushed_assign (c : Context) (l : Literal) (reason : Option Reason) (hl : l.atom < c.atoms.count) :
    Pushed c l c.trail.level reason { c with
      atoms := c.atoms.setValue l c.trail.level reason
      trail := c.trail.push l
      dirty := true
      listeners := c.listeners.assigned l } where
  trail := rfl
  count := AtomTable.count_setValue ..
  value a := by
    show (c.atoms.setValue l c.trail.level reason).value a = _
    rw [AtomTable.value_setValue]
    by_cases h : a = l.atom
    · rw [if_pos ⟨h, h ▸ hl⟩, if_pos h]
    · rw [if_neg fun e => h e.1, if_neg h]
  level a := by
    show (c.atoms.setValue l c.trail.level reason).levelOrZero a = _
    rw [AtomTable.levelOrZero_setValue]
    by_cases h : a = l.atom
    · rw [if_pos ⟨h, h ▸ hl⟩, if_pos h]
    · rw [if_neg fun e => h e.1, if_neg h]
  reason a := by
    show (c.atoms.setValue l c.trail.level reason).reason a = _
    rw [AtomTable.reason_setValue]
    by_cases h : a = l.atom
    · rw [if_pos ⟨h, h ▸ hl⟩, if_pos h]
    · rw [if_neg fun e => h e.1, if_neg h]
  leveled h := AtomTable.leveled_setValue h _ _ _
  units _ := id
  activity := rfl
  clauses := rfl
  watches := rfl
  marks := rfl
  course := rfl

theorem answers_assign {l : Literal} {reason : Option Reason} (hl : l.atom < c.atoms.count)
    (h : ∀ d, Pushed c l c.trail.level reason d → d.pendingUnits = c.pendingUnits → Q () d) :
    Answers (assign l reason) c Q := by
  unfold assign
  rw [answers_bind, answers_get, answers_bind, answers_require]
  refine ⟨AtomTable.knows_iff.2 hl, ?_⟩
  rw [answers_modify]
  exact h _ (pushed_assign c l reason hl) rfl

theorem meets_assign {l : Literal} {reason : Option Reason}
    (h : ∀ d, Pushed c l c.trail.level reason d → d.pendingUnits = c.pendingUnits → l.atom < c.atoms.count → Q () d) :
    Meets (assign l reason) c Q E := by
  unfold assign
  simp only [meets_bind, meets_get, meets_require, meets_modify]
  exact fun hk => h _ (pushed_assign c l reason (AtomTable.knows_iff.1 hk)) rfl (AtomTable.knows_iff.1 hk)

end Solver
end Cdcl
