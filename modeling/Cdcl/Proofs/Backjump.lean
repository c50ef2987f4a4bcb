import Cdcl.Proofs.Invariant
import Cdcl.Proofs.Outcome
import Cdcl.Solver.Backjump
/-!
# Backjump — what going back to a level leaves

Going back to a level keeps the invariant, and leaves the levels up to that one as they were, with the head at the end
(`meets_backjump`).  A level that was settled below the current one is settled when it is gone back to.
-/
namespace Cdcl

namespace Context

/-- Some literals have lost their values, and stand on the trail yet. -/
structure Dropped (c : Context) (gone : List Literal) (d : Context) : Prop where
  count : d.atoms.count = c.atoms.count
  value : ∀ a, d.atoms.value a = if a ∈ gone.map Literal.atom then none else c.atoms.value a
  level : ∀ a, d.atoms.levelOrZero a = if a ∈ gone.map Literal.atom then 0 else c.atoms.levelOrZero a
  reason : ∀ a, d.atoms.reason a = if a ∈ gone.map Literal.atom then none else c.atoms.reason a
  stocked : d.atoms.Stocked
  leveled : c.atoms.Leveled → d.atoms.Leveled
  trail : d.trail = c.trail
  clauses : d.clauses = c.clauses
  watches : d.watches = c.watches
  marks : d.marks = c.marks
  units : d.pendingUnits = c.pendingUnits
  course : d.course = c.course

/-- What is left of a context that went back to a level below its own. -/
structure Jumped (c : Context) (target : Nat) (d : Context) : Prop where
  level : d.trail.level = target
  literals : d.trail.literals.toList = c.trail.upTo target
  upTo : ∀ k ≤ target, d.trail.upTo k = c.trail.upTo k
  head : d.trail.head = d.trail.size
  count : d.atoms.count = c.atoms.count
  levels : ∀ l ∈ d.trail.literals.toList, d.atoms.levelOrZero l.atom = c.atoms.levelOrZero l.atom
  reasons : ∀ l ∈ d.trail.literals.toList, d.atoms.reason l.atom = c.atoms.reason l.atom
  units : d.pendingUnits = c.pendingUnits
  course : d.course = c.course
  starts : d.trail.starts.toList = c.trail.starts.toList.take target
  clauses : d.clauses = c.clauses
  watches : d.watches = c.watches

variable {f : Formula} {settled : Nat → Prop} {c d : Context} {gone : List Literal} {l : Literal} {target : Nat}

namespace Dropped

theorem refl (hs : c.atoms.Stocked) : Dropped c [] c :=
  ⟨rfl, fun _ => by simp, fun _ => by simp, fun _ => by simp, hs, id, rfl, rfl, rfl, rfl, rfl, rfl⟩

theorem snoc (h : Dropped c gone d) (hl : l.atom < c.atoms.count) (deferred : Bool) :
    Dropped c (gone ++ [l]) { d with atoms := d.atoms.dropValue l.atom deferred } where
  count := by rw [AtomTable.count_dropValue, h.count]
  value a := by
    rw [AtomTable.value_dropValue, h.value]
    by_cases ha : a = l.atom
    · simp [ha]
    · simp [ha]
  level a := by
    rw [AtomTable.levelOrZero_dropValue, h.level]
    by_cases ha : a = l.atom
    · simp [ha]
    · simp [ha]
  reason a := by
    rw [AtomTable.reason_dropValue, h.reason]
    by_cases ha : a = l.atom
    · simp [ha]
    · simp [ha]
  stocked := AtomTable.stocked_dropValue h.stocked (h.count ▸ hl) deferred
  leveled hc := AtomTable.leveled_dropValue (h.leveled hc) _ _
  trail := h.trail
  clauses := h.clauses
  watches := h.watches
  marks := h.marks
  units := h.units
  course := h.course

/-- It does not matter who is told. -/
theorem tell (h : Dropped c gone d) (listeners : Listeners) : Dropped c gone { d with listeners } :=
  ⟨h.count, h.value, h.level, h.reason, h.stocked, h.leveled, h.trail, h.clauses, h.watches, h.marks, h.units, h.course⟩

end Dropped

theorem mem_above_atoms (ht : Trailed f c) (hl : l ∈ c.trail.literals.toList) :
    l.atom ∈ (c.trail.above (c.trail.start (target + 1))).map Literal.atom ↔ l ∉ c.trail.upTo target := by
  have hsplit := c.trail.cut_append_above target
  rw [Trail.literals_cut_eq_upTo] at hsplit
  have hnodup := ht.nodup
  rw [← hsplit, List.nodup_append] at hnodup
  rw [← hsplit, List.mem_append] at hl
  constructor
  · intro ha hm
    obtain ⟨m, hmem, he⟩ := List.mem_map.1 ha
    have hmt : m ∈ c.trail.literals.toList := hsplit ▸ List.mem_append_right _ (List.mem_reverse.2 hmem)
    have hml : m = l := ht.eq_of_atom hmt (Trail.upTo_subset_literals hm) he
    exact hnodup.2.2 l hm l (List.mem_reverse.2 (hml ▸ hmem)) rfl
  · intro hm
    exact List.mem_map.2 ⟨l, List.mem_reverse.1 (hl.resolve_left hm), rfl⟩

theorem Dropped.unchanged (h : Dropped c (c.trail.above (c.trail.start (target + 1))) d) (ht : Trailed f c)
    (hl : l ∈ c.trail.upTo target) :
    d.atoms.levelOrZero l.atom = c.atoms.levelOrZero l.atom ∧ d.atoms.reason l.atom = c.atoms.reason l.atom := by
  have hn := mt (mem_above_atoms ht (Trail.upTo_subset_literals hl)).1 (not_not_intro hl)
  exact ⟨by rw [h.level, if_neg hn], by rw [h.reason, if_neg hn]⟩

/-- **Cutting off levels whose literals have lost their values keeps the trail an implication graph.** -/
theorem Dropped.trailed_cut (h : Dropped c (c.trail.above (c.trail.start (target + 1))) d) (ht : Trailed f c) :
    Trailed f { d with trail := d.trail.cut target } where
  layered := h.trail ▸ Trail.layered_cut ht.layered target
  nodup := by
    show ((d.trail.cut target).literals.toList).Nodup
    rw [h.trail, Trail.literals_cut]
    exact ht.nodup.sublist (List.take_sublist ..)
  value l := by
    show d.atoms.value l.atom = some l.positive ↔ l ∈ (d.trail.cut target).literals.toList
    rw [h.value, h.trail, Trail.literals_cut_eq_upTo]
    constructor
    · intro hv
      split at hv
      · cases hv
      · rename_i hn
        have hl := (ht.value l).1 hv
        exact Decidable.not_not.1 (mt (mem_above_atoms ht hl).2 hn)
    · intro hl
      have hm := Trail.upTo_subset_literals hl
      rw [if_neg (mt (mem_above_atoms ht hm).1 (not_not_intro hl)), ht.value]
      exact hm
  caused i l hi := by
    have hi : (d.trail.cut target).literals[i]? = some l := hi
    rw [h.trail, Trail.getElem?_cut] at hi
    split at hi
    · rename_i hlt
      have hl : l ∈ c.trail.upTo target := Trail.mem_before.2 ⟨i, hlt, hi⟩
      obtain ⟨hlevel, hreason⟩ := h.unchanged ht hl
      show Caused f _ i l (d.atoms.reason l.atom)
      rw [hreason]
      refine (ht.caused i l hi).of_eq hlevel ?_ ?_ (fun hs => ?_) (fun hu => .inr ?_)
        fun key rest _ hk => ⟨rest, h.clauses ▸ hk, fun _ => id⟩
      · show (d.trail.cut target).levelAt i = _
        rw [h.trail, ht.layered.levelAt_cut hlt]
      · show (d.trail.cut target).before i = _
        rw [h.trail, Trail.before_cut _ _ (Nat.le_of_lt hlt)]
      · show i ∈ (d.trail.cut target).starts.toList
        rw [h.trail]
        exact ht.layered.mem_starts_cut hs hlt
      · show l ∈ d.pendingUnits.toList
        rw [h.units]
        exact hu
    · cases hi

theorem Dropped.partners (h : Dropped c gone d) {t : Trail} {a b : Literal}
    (hp : ({ d with trail := t } : Context).Partners a b) : c.Partners a b :=
  hp.carry (fun l => congrArg (·.binaryOf l) h.watches) fun _ _ hk => h.clauses ▸ hk

theorem Dropped.sound_cut (h : Dropped c (c.trail.above (c.trail.start (target + 1))) d) (hs : Sound f settled c)
    (ht : target < c.trail.level) : Sound f settled { d with trail := d.trail.cut target } where
  trailed := h.trailed_cut hs.trailed
  shaped := hs.shaped.carry h.count
    ⟨congrArg (·.binary.size) h.watches, congrArg (·.long.size) h.watches⟩ (fun l => congrArg (·.binaryOf l) h.watches)
    fun _ _ hk => .inl (h.clauses ▸ hk)
  slotted := by
    show d.clauses.Slotted
    rw [h.clauses]
    exact hs.slotted
  denotes := by
    refine hs.denotes.carry (Nat.le_of_eq h.count.symm) (fun l => congrArg (·.binaryOf l) h.watches)
      (congrArg ClauseStore.literals? h.clauses) (h.units ▸ hs.denotes.units) ?_
    show c.trail.upTo 0 ⊆ (d.trail.cut target).upTo 0
    rw [h.trail, hs.trailed.layered.upTo_cut_of_le (Nat.zero_le _)]
    exact fun _ => id
  stocked := h.stocked
  leveled := h.leveled hs.leveled
  below k hk hlt := by
    have hlevel : (d.trail.cut target).level = target := by
      rw [h.trail, Trail.level_cut]
      omega
    have hlt : k < target := by
      rw [← hlevel]
      exact hlt
    show Settles _ ((d.trail.cut target).upTo k) ((d.trail.cut target).upTo k)
    rw [h.trail, hs.trailed.layered.upTo_cut_of_le (Nat.le_of_lt hlt)]
    exact fun a b hp hm => hs.below k hk (by omega) a b (h.partners hp) hm
  listed := by
    show Listed (fun l => (d.watches.longOf l).toList) d.clauses.literals?
    rw [h.watches, h.clauses]
    exact hs.listed
  marks := by
    show d.marks = Array.replicate d.atoms.count false
    rw [h.marks, h.count, hs.marks]

theorem Dropped.jumped (h : Dropped c (c.trail.above (c.trail.start (target + 1))) d) (hs : Trailed f c)
    (ht : target < c.trail.level) : Jumped c target { d with trail := d.trail.cut target } := by
  have hliterals : (d.trail.cut target).literals.toList = c.trail.upTo target := by
    rw [h.trail, Trail.literals_cut_eq_upTo]
  refine ⟨?_, hliterals, fun k hk => ?_, rfl, h.count, fun l hl => ?_, fun l hl => ?_, h.units, h.course, ?_, h.clauses,
    h.watches⟩
  · show (d.trail.cut target).level = target
    rw [h.trail, Trail.level_cut]
    omega
  · show (d.trail.cut target).upTo k = _
    rw [h.trail, hs.layered.upTo_cut_of_le hk]
  · exact (h.unchanged hs (hliterals ▸ hl)).1
  · exact (h.unchanged hs (hliterals ▸ hl)).2
  · show (d.trail.cut target).starts.toList = _
    rw [h.trail, Trail.starts_cut]

theorem Jumped.anchored {bottom : Nat} (h : Jumped c target d) (hc : Trailed f c) (hd : Trailed f d)
    (ha : c.Anchored bottom) : d.Anchored bottom :=
  ha.carry hc hd (h.literals ▸ Trail.upTo_subset_literals) h.levels h.reasons fun _ _ _ _ => by rw [h.clauses]

end Context

namespace Solver

open Run Context

variable {f : Formula} {settled : Nat → Prop} {c : Context} {target : Nat}

/-! ## Values are dropped, and told of -/

theorem meets_tellUnassigned {l : Literal} {Q : PUnit → Context → Prop} {E : Context → Prop}
    (h : ∀ listeners, Q ⟨⟩ { c with listeners }) : Meets (tellUnassigned l) c Q E := by
  unfold Meets tellUnassigned
  dsimp only
  cases c.listeners.unassigned? l with
  | none => trivial
  | some listeners => exact h listeners

/-- Unassigning literals keeps what no value and no listener tells. -/
theorem meets_unassign_keeps {deferred : Bool} {P E : Context → Prop}
    (h : ∀ d atoms listeners, P d → P { d with atoms, listeners }) (gone : List Literal) (hc : P c) :
    Meets (unassign deferred gone) c (fun _ d => P d) E := by
  unfold unassign
  rw [meets_bind, meets_onAtoms]
  refine (meets_forM (I := fun _ _ => True) (fun l _ t _ => AtomTable.Call.gives_dropValue.meets trivial) gone _ trivial).mono
    (fun _ t _ => ?_) fun _ => id
  exact meets_forM (I := fun _ d => P d) (fun l _ d hd => meets_tellUnassigned fun listeners => h d d.atoms listeners hd) gone
    { c with atoms := t } (h c t c.listeners hc)

/-- **The values of literals are dropped**, the last assigned first. -/
theorem answers_dropValues (deferred : Bool) {gone : List Literal} (hs : c.atoms.Stocked)
    (hg : ∀ l ∈ gone, l.atom < c.atoms.count) :
    Answers (gone.forM fun l => AtomTable.Call.dropValue l.atom deferred) c.atoms fun _ t =>
      Dropped c gone { c with atoms := t } := by
  refine (answers_forM (I := fun rest t => ∃ done, done ++ rest = gone ∧ Dropped c done { c with atoms := t })
    (fun l rest t ⟨done, he, hd⟩ => ?_) gone c.atoms ⟨[], rfl, .refl hs⟩).mono fun _ t ⟨done, he, hd⟩ => ?_
  · have hl := hg l (he ▸ List.mem_append_right _ List.mem_cons_self)
    refine (AtomTable.Call.gives_dropValue.answers ⟨hd.stocked, hd.count.symm ▸ hl⟩).2 ⟨done ++ [l], by simpa using he, ?_⟩
    exact hd.snoc hl deferred
  · rw [List.append_nil] at he
    exact he ▸ hd

theorem meets_unassign {deferred : Bool} {gone : List Literal} (hs : c.atoms.Stocked)
    (hg : ∀ l ∈ gone, l.atom < c.atoms.count) :
    Meets (unassign deferred gone) c (fun _ d => Dropped c gone d) (fun _ => False) := by
  unfold unassign
  rw [meets_bind, meets_onAtoms]
  refine (answers_dropValues deferred hs hg).meets.mono (fun _ t ht => ?_) fun _ => id
  exact meets_forM (I := fun _ d => Dropped c gone d) (fun l _ d hd => meets_tellUnassigned hd.tell) gone _ ht

/-- Nothing but a tracker of subsumed clauses stops values from being taken. -/
theorem answers_unassign {deferred : Bool} {gone : List Literal} (hs : c.atoms.Stocked)
    (hg : ∀ l ∈ gone, l.atom < c.atoms.count) (hheard : c.listeners.onUnassign ≠ .track) :
    Answers (unassign deferred gone) c fun _ _ => True := by
  unfold unassign
  obtain ⟨u, t, hdrop, -⟩ := answers_dropValues deferred hs hg
  rw [answers_bind]
  refine ⟨u, { c with atoms := t }, ?_, ?_⟩
  · unfold onAtoms
    dsimp only
    rw [hdrop]
  · refine (answers_forM (I := fun _ d => d.listeners.onUnassign ≠ .track) (fun l rest d hd => ?_) gone _ hheard).mono
      fun _ _ _ => trivial
    obtain ⟨told, htold, hnext⟩ := Listeners.exists_unassigned (l := l) hd
    unfold Answers tellUnassigned
    dsimp only
    rw [htold]
    exact ⟨_, _, rfl, hnext⟩

theorem known_of_mem_above {i : Nat} {l : Literal} (h : Trailed f c) (hl : l ∈ c.trail.above i) : l.atom < c.atoms.count := by
  rw [Trail.above_eq, List.mem_reverse] at hl
  exact h.mem_known (List.drop_subset _ _ hl)

/-- **Going back to a level leaves the levels up to it as they were**, and keeps the invariant. -/
theorem meets_backjump (h : Sound f settled c) :
    Meets (backjump target) c
      (fun _ d => Sound f settled d ∧ (c.trail.level ≤ target → d = c) ∧
        (target < c.trail.level → Jumped c target d ∧ (settled target → d.Current d.trail.size))) (fun _ => False) := by
  unfold backjump
  rw [meets_bind, meets_get, meets_ite]
  refine ⟨fun hlt => ?_, fun hle => ⟨h, fun _ => rfl, fun hlt => absurd hlt hle⟩⟩
  dsimp only
  rw [meets_bind, meets_require]
  intro _
  rw [meets_bind]
  refine (meets_unassign h.stocked fun l hl => known_of_mem_above h.trailed hl).mono (fun _ d hd => ?_) fun _ => id
  rw [meets_modify]
  have hj := hd.jumped h.trailed hlt
  refine ⟨hd.sound_cut h hlt, fun hle => absurd hlt (by omega), fun _ => ⟨hj, fun hs => ?_⟩⟩
  rw [Current, Trail.before_of_size_le (Nat.le_refl _), hj.literals]
  exact fun a b hp hm => h.below target hs hlt a b (hd.partners hp) hm

/-- Nothing but a tracker of subsumed clauses stops the way back. -/
theorem answers_backjump (h : Base f settled c) (hheard : c.listeners.onUnassign ≠ .track) :
    Answers (backjump target) c fun _ _ => True := by
  unfold backjump
  rw [answers_bind, answers_get, answers_ite]
  refine ⟨fun _ => ?_, fun _ => answers_pure.2 trivial⟩
  dsimp only
  rw [answers_bind, answers_require]
  refine ⟨decide_eq_true (h.trailed.layered.start_le_size _), ?_⟩
  rw [answers_bind]
  exact (answers_unassign h.stocked (fun l hl => known_of_mem_above h.trailed hl) hheard).mono fun _ d _ =>
    answers_modify.2 trivial

end Solver
end Cdcl
