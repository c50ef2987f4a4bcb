import Cdcl.Proofs.Calls
import Cdcl.Proofs.Readiness
import Cdcl.Proofs.Uninterrupted
/-!
# Reliability — no call fails for a reason of its own

Every look at a table, a list, the trail or the heap is checked where a program makes it, and so is every count that is
taken down: what is not there is a fault, and so is a count below zero.  A session keeps what a search needs besides the
invariant, and with options within their bounds its calls stop for one reason only: there is no room for a further clause
(`calls_reliable`).  A solve may run out of fuel, too.  So there is no fault, no key leads nowhere, and no analysis ends
without a clause.

Behind it is that what a context names is there: an atom has its record, mark and lists, a key in a list or in a reason its
clause, and an index of the heap its slot (`Indexed`), between calls and wherever a call takes a step.
-/
namespace Cdcl

namespace Context

/-- **What is named is there.**  Every table has a place for each atom, and whatever names an atom, a clause, a place of the
trail or a slot of the heap names one there is. -/
structure Indexed (c : Context) : Prop where
  marks : c.marks.size = c.atoms.count
  lists : c.watches.binary.size = 2 * c.atoms.count ∧ c.watches.long.size = 2 * c.atoms.count
  activity : c.atoms.activity.count = c.atoms.count ∧ c.atoms.activity.Linked
  trail : ∀ l ∈ c.trail.literals.toList, l.atom < c.atoms.count
  places : c.trail.head ≤ c.trail.size ∧ ∀ i ∈ c.trail.starts.toList, i ≤ c.trail.size
  units : ∀ l ∈ c.pendingUnits.toList, l.atom < c.atoms.count
  clauses : ∀ key ls, c.clauses.literals? key = some ls → 3 ≤ ls.length ∧ ∀ l ∈ ls, l.atom < c.atoms.count
  pairs : ∀ a, ∀ b ∈ (c.watches.binaryOf a).toList, b.atom < c.atoms.count
  watching : ∀ a, ∀ key ∈ (c.watches.longOf a).toList, ∃ ls, c.clauses.literals? key = some ls
  reasons : ∀ l ∈ c.trail.literals.toList, ∀ key, c.atoms.reason l.atom = some (.long key) →
    ∃ ls, c.clauses.literals? key = some ls

variable {f : Formula} {settled : Nat → Prop} {c d : Context}

theorem Sound.indexed (h : Sound f settled c) (hn : ∃ k, Noted k c) : c.Indexed where
  marks := by rw [h.marks, Array.size_replicate]
  lists := ⟨h.shaped.binarySize, h.shaped.longSize⟩
  activity := ⟨h.stocked.size, h.stocked.linked⟩
  trail _ := h.trailed.mem_known
  places := ⟨h.trailed.layered.head, h.trailed.layered.bounded⟩
  units l hl :=
    have ⟨_, hn⟩ := hn
    h.trailed.mem_known (Trail.upTo_subset_literals (hn l hl).1)
  clauses key ls hk := ⟨(h.shaped.long key ls hk).1, (h.shaped.long key ls hk).2.2⟩
  pairs a b hb := (h.shaped.binary a b hb).2.2
  watching a key hk :=
    have ⟨ls, hls, _⟩ := (h.listed.mem_iff a key).1 hk
    ⟨ls, hls⟩
  reasons l hl key hr := by
    obtain ⟨i, hi⟩ := Trail.mem_literals.1 hl
    have hcaused := h.trailed.caused i l hi
    rw [hr] at hcaused
    obtain ⟨-, rest, hk, -⟩ := hcaused
    exact ⟨_, hk⟩

/-- The store counts what it holds, and nobody hears of values undone who may object. -/
structure Counted (c : Context) : Prop where
  tallied : c.clauses.Tallied
  heard : c.listeners.onUnassign ≠ .track

theorem Counted.kept (h : Counted c) (hk : Kept c d) : Counted d := ⟨hk.tallied h.tallied, hk.onUnassign ▸ h.heard⟩

theorem counted_make (options : Options) (random : Chance) : Counted (.make options random) :=
  ⟨ClauseStore.tallied_make _, nofun⟩

end Context

/-- There is no room for a further clause, or the fuel is out.  A fault is neither, nor is a failure. -/
def Interrupt.Spent (e : Interrupt) : Prop := e = .full ∨ e = .exhausted

namespace Session

open Run Context Solver

variable {s t : Session} {k : Call}

/-- **Every orderly run counts the clauses it stores.** -/
theorem Orderly.counted (h : s.Orderly) : s.context.Counted := by
  induction h with
  | start options random => exact counted_make options random
  | configure _ _ ih => exact ⟨ih.tallied, ih.heard⟩
  | call _ ht ih => exact ih.kept (kept_call ht)
  | @assert s t _ _ ht ih =>
    exact ih.kept (meets_after (P := fun t => Kept s.context t.context) (within_assertHere (R := Kept) s.context).meets ht)

theorem Orderly.fit (h : s.Orderly) (ho : s.context.options.Declared) : s.context.Fit :=
  ⟨h.counted.tallied, h.counted.heard, ho⟩

/-- Why calls stop, where they may be made, and that what is named is there wherever one takes a step. -/
structure Reliable (s : Session) : Prop where
  solve : ∀ fuel, Stops (Solver.solve fuel) s.context Interrupt.Spent
  solveGiven : ∀ fuel assumptions, (∀ l ∈ assumptions, l.atom < s.context.atoms.count) →
    assumptions.length + s.context.atoms.count < levelLimit →
    Stops (Solver.solveGiven fuel assumptions) s.context Interrupt.Spent
  simplify : s.context.level = 0 → Stops Solver.simplify s.context fun _ => False
  reduce : Stops Solver.reduce s.context fun _ => False
  addClause : s.context.level = 0 → ∀ clause : Clause, (∀ l ∈ clause, l.atom < s.context.atoms.count) →
    Stops (Solver.addClause clause) s.context (· = .full)
  decide : ∀ l : Literal, l.atom < s.context.atoms.count → s.context.atoms.value l.atom = none →
    Stops (Solver.decide l) s.context fun _ => False
  assertHere : s.outdated = false → s.context.atAssertionLevel = true → Stops Solver.assertHere s.context (· = .full)
  indexed : s.context.Indexed
  steps : ∀ k st d, s.steps k s.context st d → d.Indexed

/-- **No call stops for a reason of its own**, whatever calls there were before, with options within their bounds.  A clause
may find no room, and a solve may run out of fuel.  No look goes beside a table, and no count goes below zero: that would be
a fault. -/
theorem calls_reliable (h : s.Orderly) (ho : s.context.options.Declared) : s.Reliable where
  solve _ := stops_solveGiven (.inl rfl) (.inr rfl) h.held.toResting (h.fit ho) nofun
  solveGiven _ _ hknown _ := stops_solveGiven (.inl rfl) (.inr rfl) h.held.toResting (h.fit ho) hknown
  simplify hl := stops_simplify hl (fun hs => (h.held.quiet hs).rooted rfl hl) h.counted.tallied
  reduce :=
    have ⟨_, _, hs, _⟩ := h.held.exists_sound
    stops_reduce hs h.counted.tallied
  addClause hl _ hknown := stops_addClause rfl h.held.toResting hl hknown
  decide _ hl hv := stops_decide h.held.toResting hl hv
  assertHere ho hl := stops_assertHere rfl (h.held.idle ho) hl
  indexed :=
    have ⟨_, _, hs, hu, _⟩ := h.held.exists_sound
    hs.indexed ⟨0, .of_none hu⟩
  steps _ _ _ hst :=
    have ⟨_, hd, _⟩ := h.held.ready hst
    have ⟨_, hs⟩ := hd.sound
    hs.indexed hd.noted

/-- With two clauses that leave the first atom no choice, and the decision against it undone: level zero is where the clause
that was learnt waits. -/
theorem calls_reliable_or : ∃ s : Session, s.Orderly ∧ s.context.options.Declared ∧ s.outdated = false ∧
    s.context.atAssertionLevel = true ∧ s.context.level = 0 ∧ s.context.atoms.value x₁.atom = none ∧ s.Reliable := by
  have h : ((start {} .default).run [.freshAtom, .freshAtom, .addClause [x₀, x₁], .addClause [x₀, x₁.negate],
      .decide x₀.negate, .undo x₀.negate]).map (fun s => (s.outdated, s.context.atAssertionLevel, s.context.level,
        s.context.atoms.value x₁.atom)) = some (false, true, 0, none) := by
    simp only [Session.run, Session.call, Session.after, Solver.addClause, normal_or, normal_or_negate]
    decide +kernel
  obtain ⟨s, hs, hview⟩ := Option.map_eq_some_iff.1 h
  simp only [Prod.mk.injEq] at hview
  obtain ⟨hout, hl, hlevel, hv⟩ := hview
  have horderly : s.Orderly := .run _ (.start {} .default) hs
  have hdeclared : s.context.options.Declared := (kept_run _ hs).options ▸ Options.declared_default
  exact ⟨s, horderly, hdeclared, hout, hl, hlevel, hv, calls_reliable horderly hdeclared⟩

end Session
end Cdcl
