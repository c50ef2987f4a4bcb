import Cdcl.Proofs.Readiness
import Cdcl.Proofs.Soundness
/-!
# Consistency — watch lists, trail, values and reasons fit together

Between calls, and wherever a call takes a step, the watch lists name the clauses that are watched and no others
(`watches_agree`), and the trail is an acyclic implication graph (`trail_implicationGraph`).  Both are parts of the
invariant, told here in terms of the lists and records themselves.
-/
namespace Cdcl
namespace Context

/-- A literal is one of the first two of the clause a key leads to. -/
def Watches (c : Context) (l : Literal) (key : ClauseKey) : Prop :=
  ∃ ls, c.clauses.literals? key = some ls ∧ (ls[0]? = some l ∨ ls[1]? = some l)

/-- **Watch lists and clauses agree.** -/
structure Agree (c : Context) : Prop where
  once : ∀ l key, c.Watches l key → (c.watches.longOf l).toList.count key = 1
  absent : ∀ l key, ¬c.Watches l key → key ∉ (c.watches.longOf l).toList
  long : ∀ key ls, c.clauses.literals? key = some ls → 3 ≤ ls.length ∧ (ls.map Literal.atom).Nodup
  symmetric : ∀ a b, (c.watches.binaryOf a).toList.count b = (c.watches.binaryOf b).toList.count a
  apart : ∀ a, a ∉ (c.watches.binaryOf a).toList ∧ a.negate ∉ (c.watches.binaryOf a).toList

/-- **The trail, the values and the reasons form an acyclic implication graph.**  What a reason of a literal makes false
stands before the literal. -/
structure ImplicationGraph (f : Formula) (c : Context) : Prop where
  once : (c.trail.literals.toList.map Literal.atom).Nodup
  value : ∀ a b, c.atoms.value a = some b ↔ ∃ l ∈ c.trail.literals.toList, l.atom = a ∧ l.positive = b
  sorted : c.trail.starts.toList.Pairwise (· ≤ ·)
  bounded : ∀ i ∈ c.trail.starts.toList, i ≤ c.trail.size
  level : ∀ (i : Nat) (l : Literal), c.trail.literals[i]? = some l →
    c.atoms.level? l.atom = some (if l ∈ c.pendingUnits.toList then 0 else c.trail.levelAt i)
  ungrounded : ∀ (i : Nat) (l : Literal), c.trail.literals[i]? = some l → c.atoms.reason l.atom = none →
    c.trail.levelAt i = 0 ∨ l ∈ c.pendingUnits.toList ∨ c.trail.start (c.trail.levelAt i) = i
  binary : ∀ (i : Nat) (l other : Literal), c.trail.literals[i]? = some l →
    c.atoms.reason l.atom = some (.binary other) → f.Entails [l, other] ∧ other.negate ∈ c.trail.before i
  long : ∀ (i : Nat) (l : Literal) (key : ClauseKey), c.trail.literals[i]? = some l →
    c.atoms.reason l.atom = some (.long key) → ∃ rest, c.clauses.literals? key = some (l :: rest) ∧
      f.Entails (l :: rest) ∧ ∀ m ∈ rest, m.negate ∈ c.trail.before i

variable {f g : Formula} {settled : Nat → Prop} {c d : Context} {l : Literal} {key : ClauseKey} {k : Nat}

theorem watches_iff : c.Watches l key ↔ ∃ ls, c.clauses.literals? key = some ls ∧ l ∈ ls.take 2 := by
  unfold Watches
  refine exists_congr fun ls => and_congr_right fun _ => ?_
  match ls with
  | [] => simp
  | [a] => simp [eq_comm]
  | a :: b :: rest => simp [eq_comm]

theorem Sound.agree (h : Sound f settled c) : c.Agree where
  once l key hw := (List.count_eq_one_of_mem (h.listed.nodup l)) ((h.listed.mem_iff l key).2 (watches_iff.1 hw))
  absent l key hw hm := hw (watches_iff.2 ((h.listed.mem_iff l key).1 hm))
  long key ls hk :=
    have ⟨hlen, hnodup, _⟩ := h.shaped.long key ls hk
    ⟨hlen, hnodup⟩
  symmetric := h.shaped.symmetric
  apart a := ⟨fun hm => (h.shaped.binary a a hm).1 rfl, fun hm => (h.shaped.binary a _ hm).1 (Literal.atom_negate a).symm⟩

/-- A literal's level is that of its place, unless it is a pending unit. -/
theorem Base.level?_eq (h : Base f settled c) (hn : Noted k c) {i : Nat} (hi : c.trail.literals[i]? = some l) :
    c.atoms.level? l.atom = some (if l ∈ c.pendingUnits.toList then 0 else c.trail.levelAt i) := by
  rw [h.leveled.level?_eq ((h.trailed.value l).2 (Trail.mem_of_getElem? hi))]
  split
  · rename_i hu
    rw [(hn l hu).2]
  · rename_i hu
    by_cases hr : c.atoms.reason l.atom = none
    · have hcause := h.trailed.caused i l hi
      rw [hr] at hcause
      rcases hcause with ⟨hz, -, hplace⟩ | ⟨he, -⟩
      · rw [hz, hplace.resolve_right hu]
      · rw [he]
    · rw [h.trailed.level_eq_of_reason hi hr]

theorem Sound.implicationGraph (h : Sound g settled c) (hn : Noted k c) (hf : ∀ v, f.Holds v → g.Holds v) :
    ImplicationGraph f c where
  once := h.trailed.nodup.map_on fun l hl m hm he => h.trailed.eq_of_atom hl hm he
  value a b := by
    refine ⟨h.exists_literal, ?_⟩
    · rintro ⟨l, hl, rfl, rfl⟩
      exact (h.trailed.value l).2 hl
  sorted := h.trailed.layered.sorted
  bounded := h.trailed.layered.bounded
  level i l hi := h.level?_eq hn hi
  ungrounded i l hi hr := by
    have hcause := h.trailed.caused i l hi
    rw [hr] at hcause
    rcases hcause with ⟨-, -, hplace⟩ | ⟨-, hs⟩
    · exact hplace.imp id .inl
    · exact .inr (.inr (h.trailed.layered.start_levelAt_of_mem hs))
  binary i l other hi hr := by
    have hcause := h.trailed.caused i l hi
    rw [hr] at hcause
    exact ⟨hcause.2.2.mono hf, hcause.2.1⟩
  long i l key hi hr := by
    have hcause := h.trailed.caused i l hi
    rw [hr] at hcause
    obtain ⟨-, rest, hk, hrest⟩ := hcause
    exact ⟨rest, hk, (h.denotes.long key _ hk).mono hf, hrest⟩

end Context

namespace Solver

open Run Context

variable {f : Formula} {settled : Nat → Prop} {c : Context} {st : Step}

/-- **Each step keeps watch lists and clauses in agreement**, where it may be taken. -/
theorem meets_agree (h : st.Ready f c) : Meets st.program c (fun _ d => d.Agree) Agree := by
  obtain ⟨⟨settled, hs⟩, -, hasks⟩ := h
  have hend : ∀ d, (∃ settled, Sound f settled d) → d.Agree := fun d ⟨_, hd⟩ => hd.agree
  unfold Step.program
  cases st with
  | propagate =>
    rw [meets_bind]
    exact (meets_propagate (E := Agree) hs.unsettled nofun).mono
      (fun _ d hd => hd.sound.agree) fun _ => id
  | analyze conflict =>
    obtain ⟨hr, hhere, hpos⟩ := hasks
    rw [meets_bind]
    exact (answers_analyzeConflict hs.toBase hs.marks hr hhere hpos).meets.mono
      (fun _ d hd => (hd.1.toAlike.sound hs (hd.1.marks.trans hs.marks.symm)).agree) fun _ => id
  | reduce => exact (meets_reduce hs).mono (fun _ d hd => hd.1.agree) fun d hd => hd.1.agree
  | simplify =>
    by_cases hstop : 0 < c.trail.level ∨ c.state = .unsatisfiable
    · unfold simplify
      rw [meets_bind, meets_get, meets_ite]
      refine ⟨fun _ => hs.agree, fun hz => ?_⟩
      rw [if_pos (hstop.resolve_left hz)]
      exact hs.agree
    · rw [not_or] at hstop
      obtain ⟨hcurrent, hhead⟩ := (hasks.resolve_left hstop.1).resolve_left hstop.2
      exact (meets_simplify ⟨hs, Nat.eq_zero_of_not_pos hstop.1, hcurrent, hhead⟩).mono (fun _ d hd => hd.1.agree)
        fun d hd => hd.1.agree

/-- **Propagation never finds a watch on a clause that is not stored.** -/
theorem answers_propagate_agree (h : Sound f settled c) :
    Answers propagate c fun result d => result ≠ .corrupt ∧ d.Agree := by
  refine (answers_propagate h.unsettled nofun).mono fun result d hd =>
    ⟨?_, hd.sound.agree⟩
  rintro rfl
  exact hd.verdict

end Solver

namespace Session

open Run Context Solver

variable {s : Session}

/-- A clause of three literals, and decisions that leave only the last of them. -/
theorem exists_decided_three : ∃ s : Session, s.Reachable ∧ s.formula = [[x₀, x₁, x₂]] ∧
    s.context.trail.literals = #[x₀.negate, x₁.negate, x₂] ∧ s.context.trail.starts = #[0, 1] ∧
    (s.context.atoms.reason x₂.atom).isSome ∧ (s.context.watches.longOf x₂).size = 1 := by
  have h : ((start {} .default).run [.freshAtom, .freshAtom, .freshAtom, .addClause [x₀, x₁, x₂], .decide x₀.negate,
      .decide x₁.negate]).map (fun s => (s.formula, s.context.trail.literals, s.context.trail.starts,
        (s.context.atoms.reason x₂.atom).isSome, (s.context.watches.longOf x₂).size)) =
      some ([[x₀, x₁, x₂]], #[x₀.negate, x₁.negate, x₂], #[0, 1], true, 1) := by
    simp only [Session.run, Session.call, Session.after, addClause, normal_or_three]
    decide +kernel
  obtain ⟨s, hs, hview⟩ := reachable_of_run h
  simp only [Prod.mk.injEq] at hview
  exact ⟨s, hs, hview⟩

/-- **Watch lists and clauses agree**, between calls and wherever a call propagates, analyses, simplifies or reduces, both
before and after this is done; and propagation never finds a watch on a clause that is not stored. -/
theorem watches_agree (h : s.Reachable) :
    s.context.Agree ∧ Answers propagate s.context (fun result _ => result ≠ .corrupt) ∧
      ∀ k st d, s.steps k s.context st d → d.Agree ∧ Meets st.program d (fun _ e => e.Agree) Agree ∧
        Answers propagate d fun result _ => result ≠ .corrupt := by
  have hpropagate : ∀ {f settled d}, Sound f settled d → Answers propagate d fun result _ => result ≠ .corrupt :=
    fun hd => (answers_propagate_agree hd).mono fun _ _ => And.left
  obtain ⟨g, settled, hs, -⟩ := h.held.exists_sound
  refine ⟨hs.agree, hpropagate hs, fun k st d hst => ?_⟩
  obtain ⟨f, hd, -⟩ := h.held.ready hst
  obtain ⟨_, hsound⟩ := hd.sound
  exact ⟨hsound.agree, meets_agree hd, hpropagate hsound⟩

/-- With a clause of three literals, of which two are false. -/
theorem watches_agree_or : ∃ s : Session, s.Reachable ∧ s.formula = [[x₀, x₁, x₂]] ∧
    s.context.trail.literals = #[x₀.negate, x₁.negate, x₂] ∧ (s.context.watches.longOf x₂).size = 1 ∧
    s.context.Agree ∧ Answers propagate s.context (fun result _ => result ≠ .corrupt) ∧
      ∀ k st d, s.steps k s.context st d → d.Agree ∧ Meets st.program d (fun _ e => e.Agree) Agree ∧
        Answers propagate d fun result _ => result ≠ .corrupt := by
  obtain ⟨s, hs, hf, ht, -, -, hsize⟩ := exists_decided_three
  exact ⟨s, hs, hf, ht, hsize, watches_agree hs⟩

/-- **The trail, the values and the reasons form an implication graph**, between calls and wherever a call analyses,
simplifies or reduces. -/
theorem trail_implicationGraph (h : s.Reachable) :
    ImplicationGraph s.formula s.context ∧
      ∀ k st d, s.steps k s.context st d → st ≠ .propagate → ImplicationGraph s.formula d := by
  obtain ⟨g, settled, hs, hu, hg⟩ := h.held.exists_sound
  refine ⟨hs.implicationGraph (k := 0) (.of_none hu) hg, fun k st d hst hne => ?_⟩
  obtain ⟨f, ⟨⟨_, hsound⟩, ⟨_, hnoted⟩, -⟩, hf⟩ := h.held.ready hst
  exact hsound.implicationGraph hnoted (hf hne)

/-- With a clause of three literals, of which two are false, so that it is the reason of the third. -/
theorem trail_implicationGraph_or : ∃ s : Session, s.Reachable ∧ s.formula = [[x₀, x₁, x₂]] ∧
    s.context.trail.literals = #[x₀.negate, x₁.negate, x₂] ∧ s.context.trail.starts = #[0, 1] ∧
    (s.context.atoms.reason x₂.atom).isSome ∧ ImplicationGraph s.formula s.context ∧
      ∀ k st d, s.steps k s.context st d → st ≠ .propagate → ImplicationGraph s.formula d := by
  obtain ⟨s, hs, hf, ht, hstarts, hreason, -⟩ := exists_decided_three
  exact ⟨s, hs, hf, ht, hstarts, hreason, trail_implicationGraph hs⟩

end Session
end Cdcl
