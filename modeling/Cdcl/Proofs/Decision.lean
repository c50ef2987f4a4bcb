import Cdcl.Proofs.Assignment
import Cdcl.Proofs.Outcome
import Cdcl.Solver.Decision
/-!
# Decision — a level opened for a literal

A literal without a value may be assigned on a level of its own (`Sound.decide`).  The atom chosen for it is off the
activity heap until it gets its value; in all else the context is as it was before the choice (`Chosen`).  When no atom is
found on the heap, every atom has a value (`meets_chooseDecision`).
-/
namespace Cdcl
namespace Context

variable {f : Formula} {settled : Nat → Prop} {c d e : Context} {l : Literal}

/-- A level has been opened, and a literal assigned first on it. -/
structure Opened (c : Context) (l : Literal) (d : Context) : Prop where
  level : d.trail.level = c.trail.level + 1
  starts : d.trail.starts = c.trail.starts.push c.trail.size
  literals : d.trail.literals.toList = c.trail.literals.toList ++ [l]
  upTo : ∀ k ≤ c.trail.level, d.trail.upTo k = c.trail.upTo k
  head : d.trail.head = c.trail.head
  count : d.atoms.count = c.atoms.count
  first : d.atoms.levelOrZero l.atom = d.trail.level
  decided : d.atoms.reason l.atom = none
  levels : ∀ m ∈ c.trail.literals.toList, d.atoms.levelOrZero m.atom = c.atoms.levelOrZero m.atom
  reasons : ∀ m ∈ c.trail.literals.toList, d.atoms.reason m.atom = c.atoms.reason m.atom
  current : c.Current c.trail.size → d.Current c.trail.size
  clauses : d.clauses.literals? = c.clauses.literals?
  watches : d.watches = c.watches
  units : d.pendingUnits = c.pendingUnits
  course : d.course = c.course

/-- **A literal without a value may be assigned on a level of its own.** -/
theorem Sound.decide (hs : Sound f settled c) (hc : settled c.trail.level → c.Current c.trail.size)
    (hp : Pushed { c with trail := c.trail.newLevel } l (c.trail.level + 1) none d) (hu : d.pendingUnits = c.pendingUnits)
    (hv : c.atoms.value l.atom = none) : Sound f settled d ∧ Opened c l d := by
  have hnew := hs.newLevel hc
  have hlevel : (c.trail.newLevel).level = c.trail.level + 1 := Trail.level_newLevel _
  have hfirst : c.trail.newLevel.size ∈ c.trail.newLevel.starts.toList := by simp [Trail.newLevel, Trail.size]
  have hne : ∀ m ∈ c.trail.literals.toList, m.atom ≠ l.atom := fun m hm he =>
    (hs.trailed.not_mem_of_value_none (he ▸ hv)).1 hm
  have hp' : Pushed { c with trail := c.trail.newLevel } l c.trail.newLevel.level none d := hlevel ▸ hp
  refine ⟨hnew.push hp hv (hp'.caused_first hnew.trailed.layered hfirst) (hu ▸ hs.denotes.units), ?_⟩
  have hlevel' : d.trail.level = c.trail.level + 1 := by rw [hp.trail, Trail.level_push, hlevel]
  refine ⟨hlevel', by rw [hp.trail]; rfl, hp.literals, fun k hk => ?_, by rw [hp.trail]; rfl, hp.count,
    hp.level_self.trans hlevel'.symm, hp.reason_self,
    fun m hm => by rw [hp.level, if_neg (hne m hm)], fun m hm => by rw [hp.reason, if_neg (hne m hm)], fun hcur => ?_,
    by rw [hp.clauses], hp.watches, hu, hp.course⟩
  · rw [hp.trail, Trail.Layered.upTo_push_of_lt (Trail.layered_newLevel hs.trailed.layered) (by rw [hlevel]; omega),
      Trail.upTo_newLevel_of_le hk]
  · exact hp.current (n := c.trail.size) (Nat.le_refl _) fun a b hab ha =>
      hcur a b (hab.carry (fun _ => rfl) fun _ _ => id) ha

/-- **The literal decided goes back to none**, and all others to what they did. -/
theorem Opened.anchored {bottom : Nat} (h : Opened c l d) (hc : Trailed f c) (hd : Trailed f d)
    (ha : c.Anchored bottom) : d.Anchored bottom := by
  intro m hm hlt hr
  have hmem := hm
  rw [h.literals, List.mem_append, List.mem_singleton] at hmem
  rcases hmem with hmem | rfl
  · exact ha.keep hc hd (fun n hn _ => h.levels n hn) hmem hm (h.reasons m hmem)
      (fun key ls _ hk => ⟨ls, by rw [h.clauses, hk], fun _ => id⟩) hlt hr
  · exact absurd h.decided hr

/-! ## The choice -/

/-- The context with another activity heap. -/
def withActivity (c : Context) (activity : IndexHeap Float) : Context := { c with atoms := { c.atoms with activity } }

/-- A context that differs in activities and in draws, and in nothing that the invariant or the user is told of. -/
structure Unmoved (c d : Context) : Prop extends Alike c d where
  marks : d.marks = c.marks
  course : d.course = c.course
  head : d.trail.head = c.trail.head

theorem Unmoved.refl (c : Context) : Unmoved c c := ⟨.refl c, rfl, rfl, rfl⟩

theorem Unmoved.trans (h : Unmoved c d) (h' : Unmoved d e) : Unmoved c e :=
  ⟨h.toAlike.trans h'.toAlike, h'.marks.trans h.marks, h'.course.trans h.course, h'.head.trans h.head⟩

/-- A literal of a known atom without a value has been chosen.  The atom may be missing on the heap. -/
structure Chosen (c : Context) (l : Literal) (d : Context) : Prop where
  unmoved : Unmoved c (d.withActivity c.atoms.activity)
  known : l.atom < c.atoms.count
  free : c.atoms.value l.atom = none
  stocked : d.atoms.StockedBut l.atom

theorem Unmoved.withActivity (h : Unmoved c d) : Unmoved c (d.withActivity c.atoms.activity) where
  literals := h.literals
  starts := h.starts
  layered := h.layered
  records := h.records
  stocked hs := ⟨hs.linked, hs.size.trans h.count.symm, fun a ha hv => hs.free a (h.count ▸ ha) (h.value a ▸ hv)⟩
  clauses := h.clauses
  watches := h.watches
  units := h.units
  marks := h.marks
  course := h.course
  head := h.head

theorem Unmoved.chosen (h : Unmoved c d) (hs : c.atoms.Stocked) (hl : l.atom < c.atoms.count)
    (hv : c.atoms.value l.atom = none) : Chosen c l d :=
  ⟨h.withActivity, hl, hv, (h.stocked hs).linked, (h.stocked hs).size, fun b hb hbv => .inr ((h.stocked hs).free b hb hbv)⟩

/-- **A literal chosen gets its value**, and its atom is not missed on the heap. -/
theorem Chosen.decide (h : Chosen c l d) (hs : Sound f settled c) (hc : settled c.trail.level → c.Current c.trail.size)
    (hp : Pushed { d with trail := d.trail.newLevel } l (d.trail.level + 1) none e)
    (hu : e.pendingUnits = d.pendingUnits) : Sound f settled e ∧ Opened c l e := by
  have hb := h.unmoved.sound hs h.unmoved.marks
  have hsize : (d.withActivity c.atoms.activity).trail.size = c.trail.size := h.unmoved.size
  have hlevel : (d.withActivity c.atoms.activity).trail.level = c.trail.level := h.unmoved.level
  have hv : (d.withActivity c.atoms.activity).atoms.value l.atom = none := (h.unmoved.value _).trans h.free
  have hp' : Pushed { d.withActivity c.atoms.activity with trail := (d.withActivity c.atoms.activity).trail.newLevel } l
      (d.trail.level + 1) none (e.withActivity c.atoms.activity) :=
    ⟨hp.trail, hp.count, hp.value, hp.level, hp.reason, hp.leveled, hp.units, rfl, hp.clauses, hp.watches, hp.marks,
      hp.course⟩
  obtain ⟨hsound, hopened⟩ := hb.decide (fun hset => by
    rw [hsize]
    exact h.unmoved.current (hc (hlevel ▸ hset))) hp' hu hv
  have halike : Alike (e.withActivity c.atoms.activity) e := {
    literals := rfl
    starts := rfl
    layered := id
    records := rfl
    stocked := fun _ => by
      refine ⟨hp.activity ▸ h.stocked.linked, ?_, fun a ha hav => ?_⟩
      · rw [hp.activity, hp.count]
        exact h.stocked.size
      · rw [hp.count] at ha
        rw [hp.value] at hav
        rw [hp.activity]
        split at hav
        · cases hav
        · exact (h.stocked.free a ha hav).resolve_left ‹_›
    clauses := .refl _
    watches := rfl
    units := rfl }
  refine ⟨halike.sound hsound rfl, ?_⟩
  exact {
    level := hopened.level.trans (congrArg (· + 1) hlevel)
    starts := hopened.starts.trans (by rw [hsize, h.unmoved.starts])
    literals := hopened.literals.trans (by rw [h.unmoved.literals])
    upTo := fun k hk => (hopened.upTo k (hlevel.symm ▸ hk)).trans (h.unmoved.upTo k)
    head := hopened.head.trans h.unmoved.head
    count := hopened.count.trans h.unmoved.count
    first := hopened.first
    decided := hopened.decided
    levels := fun m hm => (hopened.levels m (h.unmoved.literals ▸ hm)).trans (h.unmoved.levelOrZero _)
    reasons := fun m hm => (hopened.reasons m (h.unmoved.literals ▸ hm)).trans (h.unmoved.reason _)
    current := fun hcur => by
      rw [← hsize]
      exact halike.current (hopened.current (hsize.symm ▸ h.unmoved.current hcur))
    clauses := hopened.clauses.trans h.unmoved.literals?
    watches := hopened.watches.trans h.unmoved.watches
    units := hopened.units.trans h.unmoved.units
    course := hopened.course.trans h.unmoved.course }

end Context

namespace Solver

open Run Context

variable {f : Formula} {settled : Nat → Prop} {c d : Context} {l : Literal}

/-- **Deciding a literal opens a level with it.** -/
theorem answers_decideLiteral (hs : Sound f settled c) (hc : settled c.trail.level → c.Current c.trail.size)
    (h : Chosen c l d) :
    Answers (decideLiteral l) d fun _ e => Sound f settled e ∧ Opened c l e := by
  unfold decideLiteral
  rw [answers_bind, answers_count, answers_bind, answers_modify]
  have hcount : d.atoms.count = c.atoms.count := h.unmoved.count
  refine answers_assign (hcount ▸ h.known) fun e hp hu => h.decide hs hc ?_ hu
  rw [← Trail.level_newLevel]
  exact hp.recount (c := { d with trail := d.trail.newLevel })

/-! ## Looking for an atom -/

/-- What the search for an atom without a value ends with. -/
def Picked (c : Context) : Option Nat → Context → Prop
  | some a, d => a < c.atoms.count ∧ ∀ l : Literal, l.atom = a → Chosen c l d
  | none, d => Unmoved c d ∧ ∀ a < c.atoms.count, c.atoms.value a ≠ none

/-- **The heap has an atom without a value, unless there is none.** -/
theorem meets_mostActiveFor (hs : c.atoms.Stocked) : ∀ (fuel : Nat) (d : Context), Unmoved c d →
    d.atoms.activity.heap.size < fuel → Meets (mostActiveFor fuel) d (Picked c) (fun _ => False)
  | 0, d, _, hfuel => absurd hfuel (Nat.not_lt_zero _)
  | fuel + 1, d, h, hfuel => by
    unfold mostActiveFor
    rw [meets_bind]
    refine (gives_onAtoms AtomTable.Call.gives_popMostActive).meets ?_
    cases hpop : d.atoms.popMostActive with
    | mk popped t =>
      dsimp only
      cases popped with
      | none =>
        obtain ⟨hrecords, hstocked, hall⟩ := AtomTable.popMostActive_eq_none (h.stocked hs) hpop
        refine ⟨h.trans ⟨⟨rfl, rfl, id, hrecords, fun _ => hstocked, .refl _, rfl, rfl⟩, rfl, rfl, rfl⟩, fun a ha => ?_⟩
        rw [← h.value]
        exact hall a (h.count ▸ ha)
      | some a =>
        obtain ⟨hrecords, hlt, hbut, hsize⟩ := AtomTable.popMostActive_eq_some (h.stocked hs) hpop
        have hvalue : ∀ b, t.value b = c.atoms.value b := fun b => by
          rw [← h.value, AtomTable.value_eq, AtomTable.value_eq, hrecords]
        have hcount : t.count = c.atoms.count := (congrArg Array.size hrecords).trans h.count
        dsimp only
        rw [meets_bind, meets_record]
        intro r hr
        rw [← AtomTable.value_of_record hr, meets_ite]
        constructor
        · intro hnone
          refine ⟨h.count ▸ hlt, fun l hl => ?_⟩
          subst hl
          have hw := h.withActivity
          refine ⟨⟨⟨hw.literals, hw.starts, hw.layered, hrecords.trans h.records, fun hs => ?_, hw.clauses, hw.watches,
            hw.units⟩, hw.marks, hw.course, hw.head⟩, h.count ▸ hlt, hvalue _ ▸ Option.isNone_iff_eq_none.1 hnone, hbut⟩
          exact ⟨hs.linked, hs.size.trans hcount.symm, fun a ha hv => hs.free a (hcount ▸ ha) (hvalue a ▸ hv)⟩
        · intro hsome
          have hne : t.value a ≠ none := fun e => hsome (by rw [e]; rfl)
          refine meets_mostActiveFor hs fuel _ (h.trans ⟨⟨rfl, rfl, id, hrecords, fun _ => hbut.stocked hne, .refl _, rfl,
            rfl⟩, rfl, rfl, rfl⟩) ?_
          show t.activity.heap.size < fuel
          omega

theorem meets_randomAtom (hs : c.atoms.Stocked) (h : Unmoved c d) :
    Meets randomAtom d (fun choice e => Unmoved c e ∧ ∀ a, choice = some a → Picked c choice e) (fun _ => False) := by
  unfold randomAtom
  rw [meets_bind, meets_get, meets_ite]
  constructor
  · exact fun _ => ⟨h, fun _ e => by cases e⟩
  · intro _
    rw [meets_bind, meets_get, meets_bind]
    refine meets_chance fun wanted random => ?_
    have hdrawn : ∀ random, Unmoved c { d with random } := fun random =>
      h.trans ⟨.of_eq rfl rfl rfl rfl rfl, rfl, rfl, rfl⟩
    rw [meets_ite]
    constructor
    · intro _
      rw [meets_bind, meets_get, meets_bind, meets_expect]
      rintro ⟨a, random⟩ hbelow
      rw [meets_bind, meets_modify, meets_bind, meets_record]
      intro r hr
      rw [← AtomTable.value_of_record hr, meets_pure]
      refine ⟨hdrawn random, fun b hb => ?_⟩
      split at hb
      · rename_i hnone
        rw [if_pos hnone]
        have hlt := h.count ▸ Chance.lt_of_below? hbelow
        refine ⟨hlt, fun l hl => ?_⟩
        subst hl
        exact (hdrawn random).chosen hs hlt ((h.value _).symm.trans (Option.isNone_iff_eq_none.1 hnone))
      · cases hb
    · exact fun _ => ⟨hdrawn random, fun _ e => by cases e⟩

/-- **A literal is chosen, unless every atom has a value.** -/
theorem meets_chooseDecision (hs : c.atoms.Stocked) (hbound : c.atoms.count ≤ atomLimit) :
    Meets chooseDecision c (fun choice d => (∃ l, choice = some l ∧ Chosen c l d) ∨
      choice = none ∧ Unmoved c d ∧ ∀ a < c.atoms.count, c.atoms.value a ≠ none) (fun _ => False) := by
  have hnote : Unmoved c { c with atoms := c.atoms.noteDecision } :=
    ⟨⟨rfl, rfl, id, AtomTable.records_noteDecision _, AtomTable.stocked_noteDecision, .refl _, rfl, rfl⟩, rfl, rfl, rfl⟩
  have hvalue : ∀ (a : Nat) (d : Context), Picked c (some a) d → Meets (do
      let c ← get
      let value ←
        if c.options.phaseSaving.value then pure (← record a).previous
        else chance c.options.positiveChance.value
      pure (some (.ofAtom a value))) d (fun choice d => (∃ l, choice = some l ∧ Chosen c l d) ∨
      choice = none ∧ Unmoved c d ∧ ∀ a < c.atoms.count, c.atoms.value a ≠ none) (fun _ => False) := by
    rintro a d ⟨hlt, hchosen⟩
    have hatom := Literal.atom_ofAtom (Literal.lt_of_lt_atomLimit (Nat.lt_of_lt_of_le hlt hbound))
    rw [meets_bind, meets_get]
    dsimp only
    rw [meets_ite]
    constructor
    · intro _
      rw [meets_bind, meets_record]
      exact fun r _ => .inl ⟨_, rfl, hchosen _ (hatom r.previous)⟩
    · intro _
      rw [meets_bind]
      refine meets_chance fun b random => .inl ⟨_, rfl, ?_⟩
      have h := hchosen _ (hatom b)
      exact ⟨h.unmoved.trans ⟨.of_eq rfl rfl rfl rfl rfl, rfl, rfl, rfl⟩, h.known, h.free, h.stocked⟩
  unfold chooseDecision
  rw [meets_bind, meets_modify, meets_bind]
  refine (meets_randomAtom hs hnote).mono (fun drawn d hd => ?_) fun _ => id
  cases drawn with
  | some a => exact hvalue a d (hd.2 a rfl)
  | none =>
    dsimp only
    rw [meets_bind]
    unfold mostActiveAtom
    rw [meets_bind, meets_get]
    refine (meets_mostActiveFor hs _ d hd.1 (Nat.lt_succ_self _)).mono (fun choice e he => ?_) fun _ => id
    cases choice with
    | none => exact .inr ⟨rfl, he⟩
    | some a => exact hvalue a e he

end Solver
end Cdcl
