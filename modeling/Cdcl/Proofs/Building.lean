import Cdcl.Proofs.Propagation
import Cdcl.Proofs.Storing
import Cdcl.Solver.Building
/-!
# Building — the formula grows by what is added

A further atom changes nothing that is said.  An accepted clause becomes part of the formula: a tautology and a clause
true at level zero change nothing else, and of any other clause its literals that are not false at level zero are stored
or assigned, which with level zero says what the clause says.  If none is left the formula has no model.
-/
namespace Cdcl
namespace Context

variable {f g : Formula} {settled : Nat → Prop} {c d : Context} {l : Literal} {clause : Clause}

/-! ## Atoms -/

/-- One more atom is known. -/
structure Widened (c d : Context) : Prop where
  trail : d.trail = c.trail
  clauses : d.clauses = c.clauses
  units : d.pendingUnits = c.pendingUnits
  room : c.atoms.count < atomLimit
  count : d.atoms.count = c.atoms.count + 1
  value : ∀ a, d.atoms.value a = c.atoms.value a
  level : ∀ a, d.atoms.levelOrZero a = c.atoms.levelOrZero a
  reason : ∀ a, d.atoms.reason a = c.atoms.reason a
  stocked : d.atoms.Stocked
  leveled : c.atoms.Leveled → d.atoms.Leveled
  binary : ∀ l, d.watches.binaryOf l = c.watches.binaryOf l
  long : ∀ l, d.watches.longOf l = c.watches.longOf l
  sizes : d.watches.binary.size = c.watches.binary.size + 2 ∧ d.watches.long.size = c.watches.long.size + 2
  marks : d.marks = c.marks.push false

namespace Widened

theorem partners (h : Widened c d) {a b : Literal} (hp : d.Partners a b) : c.Partners a b :=
  hp.carry h.binary fun _ _ hk => h.clauses ▸ hk

theorem current (h : Widened c d) {n : Nat} (hs : c.Current n) : d.Current n := by
  unfold Current
  rw [h.trail]
  exact fun a b hp hm => hs a b (h.partners hp) hm

/-- **A further atom keeps the invariant.** -/
theorem sound (h : Widened c d) (hs : Sound f settled c) : Sound f settled d where
  trailed := {
    layered := h.trail ▸ hs.trailed.layered
    nodup := h.trail ▸ hs.trailed.nodup
    value := fun l => by rw [h.value, h.trail, hs.trailed.value]
    caused := fun i l hi => by
      rw [h.trail] at hi
      rw [h.reason]
      exact (hs.trailed.caused i l hi).of_eq (h.level _) (by rw [h.trail]) (by rw [h.trail]) (h.trail ▸ id) (h.units ▸ .inr)
        fun key rest _ hk => ⟨rest, h.clauses ▸ hk, fun _ => id⟩ }
  shaped := {
    binarySize := by
      rw [h.sizes.1, h.count, hs.shaped.binarySize]
      omega
    longSize := by
      rw [h.sizes.2, h.count, hs.shaped.longSize]
      omega
    long := fun key ls hk => by
      rw [h.clauses] at hk
      obtain ⟨hlen, hnodup, hknown⟩ := hs.shaped.long key ls hk
      exact ⟨hlen, hnodup, fun l hl => h.count ▸ Nat.lt_succ_of_lt (hknown l hl)⟩
    binary := fun a b hb => by
      rw [h.binary] at hb
      obtain ⟨hne, ha, hbc⟩ := hs.shaped.binary a b hb
      exact ⟨hne, h.count ▸ Nat.lt_succ_of_lt ha, h.count ▸ Nat.lt_succ_of_lt hbc⟩
    symmetric := fun a b => by rw [h.binary, h.binary, hs.shaped.symmetric a b]
    bounded := h.count ▸ h.room }
  slotted := h.clauses ▸ hs.slotted
  denotes := hs.denotes.carry (by rw [h.count]; exact Nat.le_succ _) h.binary (by rw [h.clauses])
    (h.units ▸ hs.denotes.units) (h.trail ▸ fun _ => id)
  stocked := h.stocked
  leveled := h.leveled hs.leveled
  below k hk hlt := by
    rw [h.trail] at hlt ⊢
    exact fun a b hp hm => hs.below k hk hlt a b (h.partners hp) hm
  listed := by
    simp only [h.long]
    rw [h.clauses]
    exact hs.listed
  marks := by rw [h.marks, hs.marks, h.count, Array.replicate_succ]

theorem quiet (h : Widened c d) (hq : Quiet f settled c) (hs : Sound f settled d) : Quiet f settled d where
  units := h.units.trans hq.units
  toSound := hs
  head := by rw [h.trail, hq.head]
  current hz := by
    rw [h.trail] at hz ⊢
    exact h.current (hq.current hz)
  anchored := hq.anchored.carry hq.trailed hs.trailed (by rw [h.trail]; exact List.Subset.refl _) (fun _ _ => h.level _)
    (fun _ _ => h.reason _) fun _ _ _ _ => by rw [h.clauses]

end Widened

/-! ## Clauses -/

/-- What is stored of a clause: its literals that are not false. -/
def leftOf (c : Context) (clause : Clause) : Clause := clause.normal.filter fun l => !c.atoms.isFalse l

theorem nodup_leftOf (c : Context) (h : clause.normal.hasClash = false) :
    ((c.leftOf clause).map Literal.atom).Nodup := by
  rw [List.Nodup, List.pairwise_map]
  refine (clause.nodup_normal.filter fun l => !c.atoms.isFalse l).imp_of_mem fun {l m} hl hm hne he => ?_
  rcases Literal.eq_or_eq_negate he with rfl | rfl
  · exact hne rfl
  · have hclash := (Clause.hasClash_iff clause.pairwise_normal).2 ⟨m, (List.mem_filter.1 hm).1, (List.mem_filter.1 hl).1⟩
    rw [h] at hclash
    cases hclash

/-- **Given level zero, what is left of a clause says what the clause says.** -/
theorem grows_leftOf (hs : Sound f settled c) (hl : c.trail.level = 0) (hknown : ∀ l ∈ clause, l.atom < c.atoms.count) :
    Grows c f (f ++ [clause]) (c.leftOf clause) := by
  refine ⟨fun v hv => (Formula.holds_append.1 hv).1, fun v hv => ?_, fun d hd => ?_, fun v hv _ hleft => ?_⟩
  · obtain ⟨hf, hclause⟩ := Formula.holds_append.1 hv
    refine (Clause.holds_filter_iff fun l _ hkeep hlv => ?_).2 (Clause.holds_normal.2 (hclause _ (List.mem_singleton_self _)))
    -- a literal that is left out is false at level zero, and so under every valuation in question
    have hfalse : c.atoms.isFalse l = true := by simpa using hkeep
    have hn := hs.trailed.isFalse_iff_mem.1 hfalse
    have hz := hs.trailed.level_le_level hn
    obtain ⟨n, hn, hnv⟩ := hs.trailed.entails_of_level_zero hs.denotes hn (by omega) v hf
    rw [List.mem_singleton.1 hn, Literal.holds_negate] at hnv
    exact hnv hlv
  · rcases List.mem_append.1 hd with hd | hd
    · exact hs.denotes.known d hd
    · rw [List.mem_singleton.1 hd]
      exact hknown
  · rw [Formula.holds_append]
    refine ⟨hv, fun d hd => ?_⟩
    rw [List.mem_singleton.1 hd]
    exact Clause.holds_normal.1 (hleft.mono fun l hl => (List.mem_filter.1 hl).1)

/-- A pair of watches that are not false leaves level zero settled. -/
theorem Rooted.pair {a b : Literal} (h : Rooted f settled c) (hd : Sound g settled d) (ht : SameTrail c d)
    (hp : ∀ {x y : Literal}, d.Partners x y → c.Partners x y ∨ (x = a ∧ y = b ∨ x = b ∧ y = a))
    (ha : a.negate ∉ c.trail.literals.toList) (hb : b.negate ∉ c.trail.literals.toList) : Rooted g settled d where
  toSound := hd
  level := by rw [ht.trail, h.level]
  current := by
    unfold Current
    rw [ht.trail]
    intro x y hxy hx
    rcases hp hxy with hxy | ⟨rfl, rfl⟩ | ⟨rfl, rfl⟩
    · exact h.current x y hxy hx
    · exact absurd (Trail.before_sublist hx) ha
    · exact absurd (Trail.before_sublist hx) hb
  head := by rw [ht.trail, h.head]

/-- **A clause of one literal becomes a literal of level zero.** -/
theorem Sound.pushUnit (hs : Sound f settled c) (hg : Grows c f g [l]) (h : Pushed c l 0 none d)
    (hu : d.pendingUnits = c.pendingUnits) (hv : c.atoms.value l.atom = none) (hl : c.trail.level = 0) :
    Sound g settled d where
  trailed := h.trailed (hs.trailed.mono hg.models) hv (h.caused_zero hs.trailed.layered hg.entails (.inl hl))
  shaped := h.shaped hs.shaped
  slotted := h.clauses ▸ hs.slotted
  denotes := {
    known := h.count ▸ hg.known
    binary := fun a b hb => (hs.denotes.binary a b (h.watches ▸ hb)).mono hg.models
    long := fun key ls hk => (hs.denotes.long key ls (h.clauses ▸ hk)).mono hg.models
    units := fun u hm => (hs.denotes.units u (hu ▸ hm)).mono hg.models
    complete := fun v hb hlong hz => by
      rw [h.watches] at hb
      rw [h.clauses] at hlong
      have hzero : ∀ m ∈ c.trail.upTo 0, m.Holds v := fun m hm => hz m (h.upTo_subset hs.trailed.layered 0 hm)
      refine hg.back v (hs.denotes.complete v hb hlong hzero) hzero ⟨l, List.mem_singleton_self l, hz l ?_⟩
      have hlevel : d.trail.level = 0 := by rw [h.trail, Trail.level_push, hl]
      rw [Trail.upTo_of_level_le (Nat.le_of_eq hlevel)]
      exact h.mem_iff.2 (.inr rfl) }
  stocked := h.stocked hs.stocked
  leveled := h.leveled hs.leveled
  below k _ hlt := by
    rw [h.trail, Trail.level_push, hl] at hlt
    cases hlt
  listed := by
    rw [h.watches, h.clauses]
    exact hs.listed
  marks := by rw [h.marks, h.count, hs.marks]

/-- A clause may be stored, and makes one formula another. -/
structure Installing (f g : Formula) (c : Context) (clause : Clause) : Prop extends Rooted f (· = 0) c where
  units : c.pendingUnits = #[]
  grows : Grows c f g clause
  nodup : (clause.map Literal.atom).Nodup
  known : ∀ l ∈ clause, l.atom < c.atoms.count
  free : ∀ l ∈ clause, c.atoms.value l.atom = none

theorem Installing.atom_ne {a b : Literal} {rest : Clause} (h : Installing f g c (a :: b :: rest)) : a.atom ≠ b.atom := by
  have hnodup := h.nodup
  rw [List.map_cons, List.nodup_cons] at hnodup
  exact fun he => hnodup.1 (by simp [he])

theorem Installing.knows (h : Installing f g c clause) (hl : l ∈ clause) : c.watches.knows l = true :=
  h.shaped.knows (h.known l hl)

theorem installing_leftOf (h : Rooted f settled c) (hu : c.pendingUnits = #[])
    (hknown : ∀ l ∈ clause, l.atom < c.atoms.count) (hclash : ¬clause.normal.hasClash = true) (htrue : ¬clause.normal.any c.atoms.isTrue = true) :
    Installing f (f ++ [clause]) { c with state := .input } (c.leftOf clause) := by
  have hrooted : Rooted f (· = 0) c := h.anywhere
  have halike : Alike c { c with state := .input } := .of_eq rfl rfl rfl rfl rfl
  have hrooted' : Rooted f (· = 0) { c with state := .input } :=
    ⟨halike.sound hrooted.toSound rfl, hrooted.level, halike.current hrooted.current, hrooted.head⟩
  refine ⟨hrooted', hu, grows_leftOf hrooted'.toSound hrooted.level hknown, nodup_leftOf c (by simpa using hclash),
    fun l hl => hknown l (Clause.mem_normal.1 (List.mem_filter.1 hl).1), fun l hl => ?_⟩
  obtain ⟨hmem, hfalse⟩ := List.mem_filter.1 hl
  refine hrooted.trailed.value_eq_none (fun hlt => ?_) fun hn => ?_
  · exact htrue (List.any_eq_true.2 ⟨l, hmem, hrooted.trailed.isTrue_iff_mem.2 hlt⟩)
  · rw [hrooted.trailed.isFalse_iff_mem.2 hn] at hfalse
    cases hfalse

theorem Installing.push {l : Literal} (h : Installing f g c [l]) (hp : Pushed c l c.trail.level none d)
    (hu : d.pendingUnits = c.pendingUnits) : Sound g (· = 0) d ∧ d.Current d.trail.head := by
  rw [h.level] at hp
  refine ⟨h.toSound.pushUnit h.grows hp hu (h.free l (by simp)) h.level, ?_⟩
  rw [show d.trail.head = c.trail.size by rw [hp.trail, ← h.head]; rfl]
  exact hp.current (Nat.le_refl _) h.current

end Context

namespace Solver

open Run Context

variable {f g : Formula} {settled : Nat → Prop} {c d : Context} {clause : Clause}

/-- **A further atom keeps the invariant.**  Where there is none left nothing changes but a draw. -/
theorem meets_freshAtom (h : Sound f settled c) :
    Meets freshAtom c (fun _ d => Sound f settled d ∧ Widened c d)
      (fun d => Alike c d ∧ d.marks = c.marks ∧ d.trail = c.trail) := by
  unfold freshAtom
  rw [meets_bind, meets_get, meets_bind]
  refine meets_chance fun previous random => ?_
  rw [meets_bind, meets_onAtoms]
  refine AtomTable.Call.meets_fresh (fun hroom => ?_) ⟨.of_eq rfl rfl rfl rfl rfl, rfl, rfl⟩
  simp only [meets_bind, meets_modify, meets_pure]
  refine (fun hw => ⟨hw.sound h, hw⟩ : ∀ {d}, Widened c d → Sound f settled d ∧ Widened c d) ?_
  exact {
    trail := rfl
    clauses := rfl
    units := rfl
    room := Nat.lt_succ_of_le hroom
    count := AtomTable.count_push ..
    value := AtomTable.value_push _ previous
    level := AtomTable.levelOrZero_push _ previous
    reason := AtomTable.reason_push _ previous
    stocked := AtomTable.stocked_push h.stocked previous
    leveled := fun hl => AtomTable.leveled_push hl previous
    binary := Watches.binaryOf_pushAtom _
    long := Watches.longOf_pushAtom _
    sizes := by simp [Watches.pushAtom]
    marks := rfl }

/-- A clause of one literal is propagated at level zero: the formula has no model if there is a conflict. -/
theorem meets_installUnit {l : Literal} (h : Installing f g c [l]) :
    Meets (install [l]) c (fun outcome d => d.atoms.count = c.atoms.count ∧
        (outcome = .added ∧ Rooted g (· = 0) d ∧ d.pendingUnits = #[] ∧ d.course = c.course ∨
          outcome = .unsatisfiable ∧ d.state = .unsatisfiable ∧ d.pending = c.pending ∧ Barren g d))
      (fun _ => False) := by
  unfold install
  rw [meets_bind]
  refine meets_assign fun d hp hu _ => ?_
  obtain ⟨hd, hcurrent⟩ := h.push hp hu
  rw [meets_bind]
  refine (meets_propagate hd fun _ => hcurrent).mono (fun r e hr => ?_) fun _ => id
  have hlevel : e.trail.level = 0 := by rw [hr.extended.trail_level, hp.trail, Trail.level_push, h.level]
  have hverdict := hr.verdict
  have hunits : e.pendingUnits = #[] := (hr.units.trans hu).trans h.units
  have hcount : e.atoms.count = c.atoms.count := hr.extended.count.trans hp.count
  have hcourse : e.course = c.course := hr.extended.course.trans hp.course
  cases r with
  | complete => exact ⟨hcount, .inl ⟨rfl, ⟨hr.sound, hlevel, hverdict hlevel, hr.head⟩, hunits, hcourse⟩⟩
  | conflict conflict =>
    have halike : Alike e { e with state := .unsatisfiable } := .of_eq rfl rfl rfl rfl rfl
    have hunsat := hverdict.unsatisfiable hr.sound.trailed hr.sound.denotes hlevel
    exact ⟨hcount, .inr ⟨rfl, rfl, congrArg Course.pending hcourse,
      (halike.sound hr.sound rfl).barren hunsat hlevel hr.head hunits⟩⟩
  | corrupt => exact hverdict.elim

/-- **Storing literals without a value adds them to the formula as a clause.** -/
theorem meets_install (h : Installing f g c clause) :
    Meets (install clause) c (fun outcome d => d.atoms.count = c.atoms.count ∧
        (outcome = .added ∧ Rooted g (· = 0) d ∧ d.pendingUnits = #[] ∧ d.course = c.course ∨
          outcome = .unsatisfiable ∧ d.state = .unsatisfiable ∧ d.pending = c.pending ∧ Barren g d))
      (fun d => Sound f (· = 0) d ∧ Trimmed c d) := by
  have hapart : ∀ a b, c.Apart (· = 0) a b := fun a b k _ hlt => by
    rw [h.level] at hlt
    cases hlt
  have hnone : ∀ l ∈ clause, l.negate ∉ c.trail.literals.toList := fun l hl =>
    (h.trailed.not_mem_of_value_none (h.free l hl)).2
  match clause, h, hnone with
  | [], h, _ =>
    unfold install
    rw [meets_bind, meets_setState, meets_pure]
    have halike : Alike c { c with state := .unsatisfiable } := .of_eq rfl rfl rfl rfl rfl
    exact ⟨rfl, .inr ⟨rfl, rfl, rfl, Formula.entails_nil_iff.1 h.grows.entails,
      ⟨f, h.grows.models, halike.sound h.toSound rfl⟩, h.level, h.head, h.units⟩⟩
  | [l], h, _ => exact (meets_installUnit h).mono (fun _ _ => id) fun _ => False.elim
  | [a, b], h, hnone =>
    unfold install
    rw [meets_bind]
    refine (meets_watchBinary h.toSound h.grows h.atom_ne (h.known a (by simp)) (h.known b (by simp)) (hapart a b)).mono
      (fun _ d ⟨hd, hp⟩ => ?_) fun _ => False.elim
    have hrooted := h.pair hd hp.toSameTrail hp.partners (hnone a (by simp)) (hnone b (by simp))
    exact ⟨congrArg AtomTable.count hp.atoms, .inl ⟨rfl, hrooted, hp.units.trans h.units, hp.course⟩⟩
  | a :: b :: third :: rest, h, hnone =>
    unfold install
    rw [meets_bind]
    refine (meets_storeLong h.toSound h.grows (fun hl => by cases hl) h.nodup h.known (hapart a b)).mono
      (fun key d ⟨hd, hp, _⟩ => ?_) fun _ => id
    have hrooted := h.pair hd hp.toSameTrail hp.partners (hnone a (by simp)) (hnone b (by simp))
    exact ⟨congrArg AtomTable.count hp.atoms, .inl ⟨rfl, hrooted, hp.units.trans h.units, hp.course⟩⟩

/-- What is said of a context that had a clause offered. -/
structure Offered (f : Formula) (settled : Nat → Prop) (c : Context) (outcome : ClauseOutcome) (d : Context) : Prop where
  resting : Resting f settled d
  same : outcome ≠ .added → outcome ≠ .unsatisfiable → d = c
  pending : d.pending = c.pending
  count : d.atoms.count = c.atoms.count
  unsatisfiable : outcome = .unsatisfiable → d.state = .unsatisfiable
  added : outcome = .added → d.trail.level = 0 ∧ d.state = .input

theorem offered_same {outcome : ClauseOutcome} (h : Rooted f settled c) (hu : c.pendingUnits = #[])
    (hs : c.state ≠ .unsatisfiable) (hknown : ∀ l ∈ clause, l.atom < c.atoms.count) (hne : outcome ≠ .unsatisfiable)
    (hadded : outcome ≠ .added)
    (hclause : ∀ v, (∀ l ∈ c.trail.literals.toList, l.Holds v) → clause.Holds v) :
    Offered (f ++ [clause]) settled c outcome c := by
  have hbase : Base (f ++ [clause]) settled c := by
    refine h.toBase.grow (fun v hv => (Formula.holds_append.1 hv).1) (fun d hd => ?_)
      fun v hv hz => Formula.holds_append.2 ⟨hv, fun d hd => ?_⟩
    · rcases List.mem_append.1 hd with hd | hd
      · exact h.denotes.known d hd
      · rw [List.mem_singleton.1 hd]
        exact hknown
    · rw [List.mem_singleton.1 hd]
      exact hclause v (h.upTo_zero ▸ hz)
  have hrooted : Rooted (f ++ [clause]) settled c := ⟨⟨hbase, h.listed, h.marks⟩, h.level, h.current, h.head⟩
  exact ⟨.of_quiet (hrooted.quiet hu) hs, fun _ _ => rfl, rfl, rfl,
    fun he => absurd he hne, fun he => absurd he hadded⟩

/-- **An accepted clause becomes part of the formula.**  One that is not accepted leaves the formula, and the trail, as
they were. -/
theorem meets_addClause (h : Resting f settled c) (hz : settled 0) :
    Meets (addClause clause) c (Offered (f ++ [clause]) settled c)
      (fun d => Resting f settled d ∧ d.trail = c.trail ∧ d.atoms = c.atoms ∧ d.pending = c.pending ∧
        (c.state ≠ .unsatisfiable → d.state ≠ .unsatisfiable) ∧ (d = c ∨ d.state = .input)) := by
  unfold addClause
  rw [meets_bind, meets_get, meets_ite]
  constructor
  · intro hs
    have hbarren := (h.barren hs).mono (g := f ++ [clause]) fun v hv => (Formula.holds_append.1 hv).1
    exact ⟨.of_barren hbarren hs, fun _ hne => absurd rfl hne, rfl, rfl, fun _ => hs, nofun⟩
  intro hs
  have hquiet := h.quiet hs
  rw [meets_ite]
  refine ⟨fun _ => ⟨h, rfl, rfl, rfl, id, .inl rfl⟩, fun hlevel => ?_⟩
  rw [meets_ite]
  refine ⟨fun _ => ⟨h, rfl, rfl, rfl, id, .inl rfl⟩, fun hany => ?_⟩
  have hrooted := hquiet.rooted hz (Nat.eq_zero_of_not_pos hlevel)
  have hknown : ∀ l ∈ clause, l.atom < c.atoms.count := fun l hl => by
    rw [← AtomTable.knows_iff]
    simp only [List.any_eq_true, Bool.not_eq_true', not_exists, not_and, Bool.not_eq_false] at hany
    exact hany l hl
  dsimp only
  rw [meets_ite]
  constructor
  · intro hclash
    obtain ⟨l, hl, hn⟩ := (Clause.hasClash_iff clause.pairwise_normal).1 hclash
    exact offered_same hrooted hquiet.units hs hknown nofun nofun fun v _ =>
      Clause.holds_normal.1 (Clause.holds_of_mem_negate hl hn)
  intro hclash
  rw [meets_ite]
  constructor
  · intro htrue
    obtain ⟨l, hl, hlt⟩ := List.any_eq_true.1 htrue
    exact offered_same hrooted hquiet.units hs hknown nofun nofun fun v hz =>
      Clause.holds_normal.1 ⟨l, hl, hz l (hrooted.trailed.isTrue_iff_mem.1 hlt)⟩
  intro htrue
  rw [meets_bind, meets_setState]
  have hinstalling := installing_leftOf hrooted hquiet.units hknown hclash htrue
  refine (meets_install hinstalling).mono (fun outcome d ⟨hcount, hd⟩ => ?_) fun d ⟨hd, ht⟩ => ?_
  · rcases hd with ⟨rfl, hd, hunits, hcourse⟩ | ⟨rfl, hstate, hpending, hbarren⟩
    · have hstate : d.state ≠ .unsatisfiable := by
        rw [state_eq_of_course hcourse]
        nofun
      exact ⟨.of_quiet (hd.quiet hunits) hstate, fun hne => absurd rfl hne, congrArg Course.pending hcourse,
        hcount, nofun, fun _ => ⟨hd.level, state_eq_of_course hcourse⟩⟩
    · exact ⟨.of_barren hbarren hstate, fun _ hne => absurd rfl hne, hpending, hcount, fun _ => hstate, nofun⟩
  · have hstate : d.state ≠ .unsatisfiable := by
      rw [state_eq_of_course ht.course]
      nofun
    have hrooted := hinstalling.toRooted.trimmed hd ht
    exact ⟨.of_quiet (hrooted.quiet (ht.units.trans hquiet.units)) hstate, ht.trail, ht.atoms,
      congrArg Course.pending ht.course, fun _ => hstate, .inr (state_eq_of_course ht.course)⟩

end Solver
end Cdcl
