import Cdcl.Proofs.Backjump
import Cdcl.Proofs.Decision
import Cdcl.Proofs.FailedAssumptions
import Cdcl.Proofs.Propagation
import Cdcl.Solver.Search
/-!
# Assumptions — what is assumed stays, and what is blamed was assumed

Assumptions are made one on each level.  All that comes to these levels besides them has a reason, or level zero
(`Supposed`), and that is so for as long as the levels stand (`Upholds`).  The literals blamed for a failure are therefore
negations of assumptions, and the formula entails that one of them is true, unless the failure is that of an assumption
whose opposite was assumed before it (`Core`).
-/
namespace Cdcl

/-- What is blamed for a failure.  Of two opposite assumptions the later one is blamed alone. -/
structure Core (f : Formula) (assumptions failed : List Literal) : Prop where
  negated : ∀ l ∈ failed, l.negate ∈ assumptions
  entails : f.Entails failed ∨ ∃ l, failed = [l] ∧ l ∈ assumptions

/-- **With a core, no model of the formula agrees with the assumptions.** -/
theorem Core.not_holds {f : Formula} {assumptions failed : List Literal} {v : Valuation} (h : Core f assumptions failed)
    (hv : f.Holds v) : ¬∀ l ∈ assumptions, l.Holds v := by
  intro hall
  have hfalse : ∀ l ∈ failed, ¬l.Holds v := fun l hl => Literal.holds_negate.1 (hall _ (h.negated l hl))
  rcases h.entails with he | ⟨l, rfl, hl⟩
  · obtain ⟨l, hl, hlv⟩ := he v hv
    exact hfalse l hl hlv
  · exact hfalse l (List.mem_singleton_self l) (hall l hl)

theorem Core.mono {f : Formula} {made assumptions failed : List Literal} (h : Core f made failed)
    (hsub : made ⊆ assumptions) : Core f assumptions failed where
  negated l hl := hsub (h.negated l hl)
  entails := h.entails.imp_right fun ⟨l, he, hl⟩ => ⟨l, he, hsub hl⟩

namespace Context

/-- What a solve leaves as it was, wherever it stops. -/
structure Steady (c d : Context) : Prop where
  state : d.state = c.state
  pending : d.pending = c.pending
  count : d.atoms.count = c.atoms.count

/-- What was on the levels up to one stays there, and what comes to them has a reason or level zero. -/
structure Upholds (k : Nat) (c d : Context) : Prop where
  stays : c.trail.upTo k ⊆ d.trail.upTo k
  comes : ∀ l ∈ d.trail.upTo k, d.atoms.reason l.atom = none → 0 < d.atoms.levelOrZero l.atom →
    l ∈ c.trail.upTo k ∧ c.atoms.reason l.atom = none ∧ 0 < c.atoms.levelOrZero l.atom
  levels : ∀ l ∈ c.trail.upTo k, d.atoms.levelOrZero l.atom = c.atoms.levelOrZero l.atom

/-- The assumptions are on the levels up to one, and are all that is there without a reason and above level zero. -/
structure Supposed (assumptions : List Literal) (k : Nat) (c : Context) : Prop where
  made : ∀ l ∈ assumptions, l ∈ c.trail.upTo k
  grounded : ∀ l ∈ c.trail.upTo k, c.atoms.reason l.atom = none → 0 < c.atoms.levelOrZero l.atom → l ∈ assumptions

/-- The pending units are on the levels up to one, and have level zero. -/
def Noted (k : Nat) (c : Context) : Prop :=
  ∀ l ∈ c.pendingUnits.toList, l ∈ c.trail.upTo k ∧ c.atoms.levelOrZero l.atom = 0

variable {f : Formula} {settled : Nat → Prop} {c d e : Context} {l : Literal} {k : Nat} {assumptions made : List Literal}

theorem Steady.refl (c : Context) : Steady c c := ⟨rfl, rfl, rfl⟩

theorem Steady.trans (h : Steady c d) (h' : Steady d e) : Steady c e :=
  ⟨h'.state.trans h.state, h'.pending.trans h.pending, h'.count.trans h.count⟩

theorem Steady.of_course (h : d.course = c.course) (hc : d.atoms.count = c.atoms.count) : Steady c d :=
  ⟨state_eq_of_course h, pending_eq_of_course h, hc⟩

theorem Current.mono {m n : Nat} (h : c.Current n) (hmn : m ≤ n) : c.Current m :=
  fun a b hab ha => h a b hab (Trail.before_subset hmn ha)

/-! ## Levels that stand -/

theorem Supposed.carry (h : Supposed assumptions k c) (hu : Upholds k c d) : Supposed assumptions k d where
  made l hl := hu.stays (h.made l hl)
  grounded l hl hr hz :=
    have ⟨hmem, hreason, hlevel⟩ := hu.comes l hl hr hz
    h.grounded l hmem hreason hlevel

theorem Noted.of_none (h : c.pendingUnits = #[]) : Noted k c := by simp [Noted, h]

theorem Noted.mono {more : Nat} (h : Noted k c) (ht : c.trail.Layered) (hle : k ≤ more) : Noted more c := fun l hl =>
  ⟨ht.upTo_subset hle (h l hl).1, (h l hl).2⟩

/-- Up to a level that has the pending units, literals are where their levels are. -/
theorem Noted.mem_upTo (h : Noted k c) (ht : Trailed f c) (hl : l ∈ c.trail.literals.toList)
    (hle : c.atoms.levelOrZero l.atom ≤ k) : l ∈ c.trail.upTo k := by
  by_cases hu : l ∈ c.pendingUnits.toList
  · exact (h l hu).1
  obtain ⟨i, hi⟩ := Trail.mem_literals.1 hl
  refine ht.layered.mem_upTo_iff.2 ⟨i, hi, ?_⟩
  by_cases hr : c.atoms.reason l.atom = none
  · have hc := ht.caused i l hi
    rw [hr] at hc
    rcases hc with ⟨-, -, hz | hp⟩ | ⟨he, -⟩
    · omega
    · exact absurd hp hu
    · exact he ▸ hle
  · exact ht.level_eq_of_reason hi hr ▸ hle

theorem Noted.upheld (h : Noted k c) (hu : Upholds k c d) (hl : l ∈ c.pendingUnits.toList) :
    l ∈ d.trail.upTo k ∧ d.atoms.levelOrZero l.atom = 0 :=
  have ⟨hmem, hz⟩ := h l hl
  ⟨hu.stays hmem, (hu.levels l hmem).trans hz⟩

theorem Noted.carry (h : Noted k c) (hu : Upholds k c d) (he : d.pendingUnits = c.pendingUnits) : Noted k d :=
  fun _ hl => h.upheld hu (he ▸ hl)

theorem Alike.upholds (h : Alike c d) (k : Nat) : Upholds k c d where
  levels _ _ := h.levelOrZero _
  stays := by
    rw [h.upTo]
    exact fun _ => id
  comes l hl hr hz := by
    rw [h.upTo] at hl
    rw [h.reason] at hr
    rw [h.levelOrZero] at hz
    exact ⟨hl, hr, hz⟩

theorem Extends.upholds (h : Extends c d) (hc : Trailed f c) (hd : Trailed f d) (k : Nat) : Upholds k c d := by
  refine ⟨fun l hl => ?_, fun l hl hr hz => ?_, fun l hl => h.level l (Trail.upTo_subset_literals hl)⟩
  · obtain ⟨i, hi, hik⟩ := hc.layered.mem_upTo_iff.1 hl
    exact hd.layered.mem_upTo_iff.2 ⟨i, h.getElem? hi, (h.levelAt i).symm ▸ hik⟩
  · have hmem : l ∈ c.trail.literals.toList := by
      rcases h.implied l (Trail.upTo_subset_literals hl) with hl | hr' | hz'
      · exact hl
      · exact absurd hr hr'
      · omega
    rw [h.reason l hmem] at hr
    rw [h.level l hmem] at hz
    refine ⟨?_, hr, hz⟩
    -- the literal has one place on the trail, which is that of before
    obtain ⟨i, hi, hik⟩ := hd.layered.mem_upTo_iff.1 hl
    obtain ⟨j, hj⟩ := Trail.mem_literals.1 hmem
    rw [hd.index_inj hi (h.getElem? hj), h.levelAt] at hik
    exact hc.layered.mem_upTo_iff.2 ⟨j, hj, hik⟩

theorem Jumped.upholds {target : Nat} (h : Jumped c target d) (hk : k ≤ target) : Upholds k c d where
  levels l hl := h.levels l (Trail.upTo_subset_literals (h.upTo k hk ▸ hl))
  stays := by
    rw [h.upTo k hk]
    exact fun _ => id
  comes l hl hr hz := by
    have hmem := Trail.upTo_subset_literals hl
    rw [h.upTo k hk] at hl
    rw [h.reasons l hmem] at hr
    rw [h.levels l hmem] at hz
    exact ⟨hl, hr, hz⟩

theorem Opened.upholds (h : Opened c l d) (hk : k ≤ c.trail.level) : Upholds k c d where
  levels m hm := h.levels m (Trail.upTo_subset_literals hm)
  stays := by
    rw [h.upTo k hk]
    exact fun _ => id
  comes m hm hr hz := by
    rw [h.upTo k hk] at hm
    have hmem := Trail.upTo_subset_literals hm
    rw [h.reasons m hmem] at hr
    rw [h.levels m hmem] at hz
    exact ⟨hm, hr, hz⟩

/-! ## Where a solve may stop -/

/-- The invariant wherever a solve may stop.  At level zero, what is before the head is settled, unless it does not matter
any more. -/
structure Stopped (f : Formula) (matters : Prop) (c : Context) : Prop extends Sound f (· = 0) c where
  current : matters → c.trail.level = 0 → c.Current c.trail.head
  noted : ∃ k, Noted k c

theorem Rested.steady (h : Rested c d) (failed : List Literal) : Steady c { d with failed } :=
  (Steady.of_course h.course h.count).trans ⟨rfl, rfl, rfl⟩

theorem Rested.stopped (h : Rested c d) (hs : Sound f settled c) (hn : Noted k c) (hz : settled 0)
    (hc : c.trail.level = 0 → c.Current c.trail.size) (matters : Prop) (failed : List Literal) :
    Stopped f matters { d with failed } := by
  have halike : Alike c { d with failed } := h.toAlike.trans (.of_eq rfl rfl rfl rfl rfl)
  have hsound : Sound f settled { d with failed } := halike.sound hs (h.marks.trans hs.marks.symm)
  refine ⟨hsound.weaken fun k hk _ => hk ▸ hz, fun _ hl => (halike.current (hc (halike.level ▸ hl))).mono ?_,
    k, hn.carry (halike.upholds k) halike.units⟩
  rw [← halike.size]
  exact hsound.trailed.layered.head

/-! ## Making assumptions -/

/-- Some assumptions have been made, and all is propagated. -/
structure Assuming (f : Formula) (made : List Literal) (c : Context) : Prop extends Sound f (fun _ => True) c where
  supposed : Supposed made c.trail.level c
  current : c.Current c.trail.size
  head : c.trail.head = c.trail.size
  units : c.pendingUnits = #[]

theorem Assuming.hold (h : Assuming f made c) (hl : l ∈ c.trail.literals.toList) :
    Assuming f (made ++ [l]) { c with trail := c.trail.newLevel } := by
  have hlevel : c.trail.newLevel.level = c.trail.level + 1 := Trail.level_newLevel _
  have hall : c.trail.newLevel.upTo c.trail.newLevel.level = c.trail.literals.toList :=
    Trail.upTo_of_level_le (Nat.le_refl _)
  refine ⟨h.newLevel fun _ => h.current, ⟨fun m hm => ?_, fun m hm hr hz => ?_⟩,
    fun a b hab => h.current a b (hab.carry (fun _ => rfl) fun _ _ => id), h.head, h.units⟩
  · rw [hall]
    rcases List.mem_append.1 hm with hm | hm
    · exact Trail.upTo_subset_literals (h.supposed.made m hm)
    · exact List.mem_singleton.1 hm ▸ hl
  · rw [hall] at hm
    rw [← Trail.upTo_of_level_le (Nat.le_refl c.trail.level)] at hm
    exact List.mem_append_left _ (h.supposed.grounded m hm hr hz)

theorem Supposed.opened (h : Supposed made c.trail.level c) (ho : Opened c l d) :
    Supposed (made ++ [l]) d.trail.level d := by
  have hall : d.trail.upTo d.trail.level = c.trail.literals.toList ++ [l] := by
    rw [Trail.upTo_of_level_le (Nat.le_refl _), ho.literals]
  refine ⟨fun m hm => ?_, fun m hm hr hz => ?_⟩
  · rw [hall]
    exact (List.mem_append.1 hm).elim (fun hm => List.mem_append_left _ (Trail.upTo_subset_literals (h.made m hm)))
      (List.mem_append_right _)
  · rw [hall] at hm
    rcases List.mem_append.1 hm with hm | hm
    · rw [ho.reasons m hm] at hr
      rw [ho.levels m hm] at hz
      rw [← Trail.upTo_of_level_le (Nat.le_refl c.trail.level)] at hm
      exact List.mem_append_left _ (h.grounded m hm hr hz)
    · exact List.mem_append_right _ hm

theorem Assuming.current_opened (h : Assuming f made c) (ho : Opened c l d) : d.Current d.trail.head := by
  rw [ho.head, h.head]
  exact ho.current h.current

theorem Assuming.propagated (h : Assuming f made c) (hd : Sound f (fun _ => True) d) (ho : Opened c l d)
    (he : Propagates f (fun _ => True) d .complete e) : Assuming f (made ++ [l]) e where
  toSound := he.sound
  supposed := by
    rw [he.extended.trail_level]
    exact (h.supposed.opened ho).carry (he.extended.upholds hd.trailed he.sound.trailed _)
  current := he.verdict trivial
  head := he.head
  units := (he.units.trans ho.units).trans h.units

/-- What making assumptions comes to: all are made, with a level for each of the `n` that were left, or what failed is
known. -/
structure Made (f : Formula) (all : List Literal) (n : Nat) (c : Context) (failed : Bool) (d : Context) : Prop where
  steady : Steady c d
  refused : failed = true → Stopped f True d ∧ Core f all d.failed
  accepted : failed = false → Assuming f all d ∧ d.trail.level = c.trail.level + n ∧ d.trail.root = c.trail.root

theorem Made.of_core {all : List Literal} {n : Nat} (hs : Steady c d) (hd : Stopped f True d)
    (hc : Core f all d.failed) : Made f all n c true d := ⟨hs, fun _ => ⟨hd, hc⟩, nofun⟩

theorem Made.after {all : List Literal} {n : Nat} {failed : Bool} (h : Made f all n d failed e) (hs : Steady c d)
    (hl : d.trail.level = c.trail.level + 1) (hr : d.trail.root = c.trail.root) : Made f all (n + 1) c failed e where
  steady := hs.trans h.steady
  refused := h.refused
  accepted hf := by
    obtain ⟨ha, hlevel, hroot⟩ := h.accepted hf
    exact ⟨ha, by omega, hroot.trans hr⟩

/-- What has no reason, and is false above level zero, is the negation of an assumption. -/
theorem Supposed.negate_mem (h : Supposed made c.trail.level c) (ha : Assumed c l) : l.negate ∈ made := by
  obtain ⟨hmem, hr, hz⟩ := ha
  rw [← Literal.atom_negate] at hr hz
  exact h.grounded _ (by rwa [Trail.upTo_of_level_le (Nat.le_refl _)]) hr hz

end Context

namespace Solver

open Run Context

variable {f : Formula} {settled : Nat → Prop} {c : Context} {assumptions : List Literal}

/-- **The assumptions blamed for a conflict are a core**, where no level was opened but for assumptions. -/
theorem meets_blame {conflict : Conflict} (h : Sound f settled c) (hs : Supposed assumptions c.trail.level c)
    (hr : Refuted f c conflict) (hroot : c.trail.root ≠ 0) :
    Meets (failedByConflict conflict) c (fun failed d => Rested c d ∧ Core f assumptions failed) (fun _ => False) :=
  (answers_failedByConflict h.toBase h.marks hr).meets.mono
    (fun _ _ ⟨hd, he, ha⟩ => ⟨hd, fun l hl => hs.negate_mem (ha l hl), .inl (he hroot)⟩) fun _ => id

theorem meets_assume {made : List Literal} {l : Literal} (h : Assuming f made c) (hv : c.atoms.value l.atom = none) :
    Meets (do
      modify fun c => { c with trail := c.trail.newLevel }
      assign l none) c (fun _ d => Sound f (fun _ => True) d ∧ Opened c l d) (fun _ => False) := by
  rw [meets_bind, meets_modify]
  refine meets_assign fun d hp hu _ => ?_
  rw [show ({ c with trail := c.trail.newLevel } : Context).trail.level = c.trail.level + 1 from
    Trail.level_newLevel _] at hp
  exact h.decide (fun _ => h.current) hp hu hv

/-- An assumption that is false already is refused, with a core of it and those made before it. -/
theorem meets_refuse {made all : List Literal} {l : Literal} {n : Nat} (h : Assuming f made c)
    (hroot : c.trail.root ≠ 0) (hl : l.negate ∈ c.trail.literals.toList) (hsub : made ++ [l] ⊆ all) :
    Meets (do
      let failed ← failedByAssumption l
      modify ({ · with failed })
      pure true) c (Made f all n c) (fun _ => False) := by
  rw [meets_bind]
  refine (answers_failedByAssumption h.toBase h.marks hl).meets.mono (fun failed d ⟨hd, hent, hneg⟩ => ?_) fun _ => id
  rw [meets_bind, meets_modify, meets_pure]
  have hcore : Core f (made ++ [l]) failed := by
    refine ⟨fun m hm => ?_, ?_⟩
    · rcases hneg m hm with ha | rfl
      · exact List.mem_append_left _ (h.supposed.negate_mem ha)
      · simp
    · -- the opposite of the assumption is true: by the formula, or because it was assumed
      exact (hent hroot).imp id fun ⟨he, ha⟩ => ⟨_, he, List.mem_append_left _ (h.supposed.negate_mem ha)⟩
  exact .of_core (hd.steady failed)
    (hd.stopped (k := 0) h.toSound (.of_none h.units) trivial (fun _ => h.current) True failed) (hcore.mono hsub)

/-- A conflict above level zero, among assumptions and what they imply, is counted and blamed on a core of them. -/
theorem meets_blameCounted {made all : List Literal} {conflict : Conflict} {n : Nat} (h : Sound f settled c)
    (hz : settled 0) (hs : Supposed made c.trail.level c) (hr : Refuted f c conflict) (hroot : c.trail.root ≠ 0)
    (hlevel : c.trail.level ≠ 0) (hunits : c.pendingUnits = #[]) (hsub : made ⊆ all) :
    Meets (do
      count fun n => { n with conflicts := n.conflicts + 1 }
      let failed ← failedByConflict conflict
      modify ({ · with failed })
      pure true) c (Made f all n c) (fun _ => False) := by
  rw [meets_bind, meets_count, meets_bind]
  have halike : Alike c { c with counters := { c.counters with conflicts := c.counters.conflicts + 1 } } :=
    .of_eq rfl rfl rfl rfl rfl
  have hsound := halike.sound h rfl
  refine (meets_blame hsound (hs.carry (halike.upholds _)) (Refuted.alike hr halike) hroot).mono
    (fun failed d ⟨hd, hcore⟩ => ?_) fun _ => id
  rw [meets_bind, meets_modify, meets_pure]
  have hsteady : Steady c d := .of_course hd.course hd.count
  exact .of_core (hsteady.trans ⟨rfl, rfl, rfl⟩)
    (hd.stopped (k := 0) hsound (.of_none hunits) hz (fun hl => absurd hl hlevel) True failed) (hcore.mono hsub)

/-- **Assumptions are made one after the other**, until one of them fails, and with it a core is told. -/
theorem meets_assumeEach : ∀ (rest made : List Literal) (c : Context), Assuming f made c →
    (rest ≠ [] → c.trail.root ≠ 0) →
    Meets (assumeEach rest) c (Made f (made ++ rest) rest.length c) (fun _ => False)
  | [], made, c, h, _ => by
    rw [List.append_nil]
    exact ⟨.refl c, nofun, fun _ => ⟨h, rfl, rfl⟩⟩
  | l :: rest, made, c, h, hroot => by
    have hroot := hroot (List.cons_ne_nil _ _)
    rw [show made ++ l :: rest = (made ++ [l]) ++ rest by simp]
    have hsub : made ++ [l] ⊆ (made ++ [l]) ++ rest := List.subset_append_left ..
    unfold assumeEach
    rw [meets_bind, meets_get]
    cases hstanding : c.atoms.standing l with
    | unknown => trivial
    | holds =>
      show Meets (modify _ >>= _) _ _ _
      rw [meets_bind, meets_modify]
      have hhold := h.hold (h.trailed.standing_holds_iff.1 hstanding)
      exact (meets_assumeEach rest (made ++ [l]) _ hhold fun _ => hroot).mono
        (fun failed d hd => hd.after ⟨rfl, rfl, rfl⟩ (Trail.level_newLevel _) rfl) fun _ => id
    | fails => exact meets_refuse h hroot (h.trailed.standing_fails_iff.1 hstanding) hsub
    | free =>
      have hv := (AtomTable.standing_eq_free_iff.1 hstanding).2
      show Meets (modify _ >>= fun _ => assign l none >>= _) _ _ _
      rw [← bind_assoc, meets_bind]
      refine (meets_assume h hv).mono (fun _ d ⟨hd, hopened⟩ => ?_) fun _ => id
      rw [meets_bind]
      refine (meets_propagate hd fun _ => h.current_opened hopened).mono (fun result e he => ?_) fun _ => id
      have hlevel : e.trail.level = c.trail.level + 1 := he.extended.trail_level.trans hopened.level
      have hcourse : e.course = c.course := he.extended.course.trans hopened.course
      have hsteady : Steady c e := .of_course hcourse (he.extended.count.trans hopened.count)
      have hrooted : e.trail.root = c.trail.root := root_eq_of_course hcourse
      cases result with
      | corrupt => exact he.verdict.elim
      | complete =>
        exact (meets_assumeEach rest (made ++ [l]) e (h.propagated hd hopened he) fun _ => hrooted ▸ hroot).mono
          (fun failed g hg => hg.after hsteady hlevel hrooted) fun _ => id
      | conflict conflict =>
        have hsupposed := (h.supposed.opened hopened).carry (he.extended.upholds hd.trailed he.sound.trailed _)
        rw [← he.extended.trail_level] at hsupposed
        exact (meets_blameCounted (n := rest.length) he.sound trivial hsupposed he.verdict (hrooted ▸ hroot) (by omega)
          (he.units.trans (hopened.units.trans h.units)) hsub).mono
          (fun failed g hg => hg.after hsteady hlevel hrooted) fun _ => id

end Solver
end Cdcl
