import Cdcl.Proofs.Overtaking
import Cdcl.Proofs.Tolerance
/-!
# StoredModel — the model that a context hands out

A context stores the model its last solve found, and hands it out while its state tells of a model.  The two are changed in
different places: an accepted clause that says something new changes the state, a solve empties the model as it sets out, and
decisions and simplifications leave both as they are, or find that there is no model.

So a model that is handed out has a value for each atom there was at the last solve that found one, and no clause accepted
since is against it, unless a solve has failed since: one that is refused for an atom it does not know has emptied the model,
and leaves the state (`model_sound`, `model_emptied`).
-/
namespace Cdcl

/-- A valuation gives each atom the value that a model has for it, if it has one. -/
def Valuation.Agrees (v : Valuation) (model : Array Bool) : Prop := ∀ a b, model[a]? = some b → v a = b

theorem Clause.holds_of_satisfiedBy {clause : Clause} {model : Array Bool} {v : Valuation} (hv : v.Agrees model)
    (h : clause.satisfiedBy model = true) : clause.Holds v := by
  obtain ⟨l, hl, hm⟩ := Clause.satisfiedBy_iff.1 h
  exact ⟨l, hl, hv _ _ hm⟩

/-- **A clause that every extension of a model satisfies is satisfied by the model**, or has a literal and its negation. -/
theorem Clause.satisfiedBy_or_clash {clause : Clause} {model : Array Bool}
    (h : ∀ v : Valuation, v.Agrees model → clause.Holds v) :
    clause.satisfiedBy model = true ∨ ∃ l ∈ clause, l.negate ∈ clause := by
  -- where the model has no value, the atom is made to fail the literal that the clause has of it
  obtain ⟨l, hl, hv⟩ := h (fun a => (model[a]?).getD (decide (∃ m ∈ clause, m.atom = a ∧ m.positive = false)))
    fun a b hb => by simp only [hb, Option.getD_some]
  unfold Literal.Holds at hv
  cases hm : model[l.atom]? with
  | some b =>
    simp only [hm, Option.getD_some] at hv
    exact .inl (Clause.satisfiedBy_iff.2 ⟨l, hl, hm.trans (congrArg some hv)⟩)
  | none =>
    simp only [hm, Option.getD_none] at hv
    by_cases hex : ∃ m ∈ clause, m.atom = l.atom ∧ m.positive = false
    · obtain ⟨m, hmem, hatom, hneg⟩ := hex
      rw [decide_eq_true ⟨m, hmem, hatom, hneg⟩] at hv
      have he : m = l.negate := Literal.eq_iff.2 ⟨by rw [hatom, Literal.atom_negate], by
        rw [hneg, Literal.positive_negate, ← hv]
        rfl⟩
      exact .inr ⟨l, hl, he ▸ hmem⟩
    · rw [decide_eq_false hex] at hv
      exact absurd ⟨l, hl, rfl, hv.symm⟩ hex

namespace Context

/-- What was found stays, or it is found that there is no model. -/
structure Spared (c d : Context) : Prop where
  model : d.model = c.model
  state : d.state = c.state ∨ d.state = .unsatisfiable

end Context

namespace Solver

open Run Context

instance : Chained Spared where
  refl _ := ⟨rfl, .inl rfl⟩
  trans h h' := ⟨h'.model.trans h.model, h'.state.elim (fun he => h.state.imp he.trans he.trans) .inr⟩

instance : Stepped Spared := .ofStill (fun _ _ => trivial) fun h => ⟨h.model, .inl h.state⟩

/-- **Simplifications and decisions leave the model, and the state unless there is none.** -/
instance : Telling Spared where
  refuted _ := ⟨rfl, .inr rfl⟩
  conflict _ := ⟨rfl, .inl rfl⟩
  noted _ _ _ _ := ⟨rfl, .inl rfl⟩
  told _ _ := ⟨rfl, .inl rfl⟩

end Solver

namespace Context

variable {f g : Formula} {settled : Nat → Prop} {c : Context} {v : Valuation}

/-- One context denotes one formula: what rests on two formulas at once makes both hold where one does. -/
theorem Quiet.holds_of_holds (h : Quiet f settled c) (h' : Quiet g settled c) (hv : f.Holds v) : g.Holds v := by
  refine h'.denotes.complete v (fun a b hb => h.denotes.binary a b hb v hv)
    (fun key ls _ hls => h.denotes.long key ls hls v hv) fun l hl => ?_
  obtain ⟨m, hm, hmv⟩ := h.trailed.entails_of_mem_upTo_zero h.denotes hl v hv
  exact List.mem_singleton.1 hm ▸ hmv

end Context

namespace Session

open Run Context Solver

/-- What is remembered of the solves of a run: how many atoms there were when one last found a model, and whether one has
failed since. -/
structure Memory where
  atoms : Nat := 0
  failed : Bool := false

namespace Memory

/-- What is remembered after a solve. -/
def solved (memory : Memory) (program : Solver Report) (c : Context) : Memory :=
  match program.ended c with
  | some (some .satisfiable, d) => ⟨d.atoms.count, false⟩
  | some (none, _) => { memory with failed := true }
  | _ => memory

/-- What is remembered after a call. -/
def next (memory : Memory) (c : Context) : Call → Memory
  | .solve fuel => memory.solved (Solver.solve fuel) c
  | .solveGiven fuel assumptions => memory.solved (Solver.solveGiven fuel assumptions) c
  | _ => memory

end Memory

/-- A session that an orderly run leads to, with what is remembered of its solves. -/
inductive Recalls : Session → Memory → Prop
  | start (options : Options) (random : Chance) : Recalls (start options random) {}
  | configure {s : Session} {memory : Memory} (h : Recalls s memory) (options : Options) :
    Recalls (s.goTo { s.context with options }) memory
  | call {s t : Session} {memory : Memory} {k : Call} (h : Recalls s memory) (ht : s.call k = some t) :
    Recalls t (memory.next s.context k)
  | assert {s t : Session} {memory : Memory} (h : Recalls s memory) (hfree : s.context.Assertable)
    (ht : s.after Solver.assertHere (fun _ => s.forget) = some t) : Recalls t memory

theorem Recalls.orderly {s : Session} {memory : Memory} (h : s.Recalls memory) : s.Orderly := by
  induction h with
  | start options random => exact .start options random
  | configure _ options ih => exact ih.configure options
  | call _ ht ih => exact ih.call ht
  | assert _ hfree ht ih => exact ih.assert hfree ht

/-- A list of calls, with what is remembered on the way. -/
def remembering : List Call → Session → Memory → Option (Session × Memory)
  | [], s, memory => some (s, memory)
  | k :: rest, s, memory => (s.call k).bind fun t => remembering rest t (memory.next s.context k)

theorem Recalls.remembering : ∀ (calls : List Call) {s t : Session} {memory later : Memory}, s.Recalls memory →
    s.remembering calls memory = some (t, later) → t.Recalls later
  | [], _, _, _, _, h, ht => by
    cases ht
    exact h
  | _ :: rest, _, _, _, _, h, ht => by
    obtain ⟨u, hu, ht⟩ := Option.bind_eq_some_iff.1 ht
    exact Recalls.remembering rest (h.call hu) ht

theorem recalls_of_remembering {α : Type} {a : α} {calls : List Call} {view : Session × Memory → α}
    (h : ((start {} .default).remembering calls {}).map view = some a) :
    ∃ (s : Session) (memory : Memory), s.Recalls memory ∧ view (s, memory) = a := by
  obtain ⟨⟨s, memory⟩, hs, ha⟩ := Option.map_eq_some_iff.1 h
  exact ⟨s, memory, Recalls.remembering calls (.start {} .default) hs, ha⟩

/-- What the stored model is, where the state tells of one. -/
def Remembers (memory : Memory) (s : Session) : Prop := s.context.state = .satisfiable →
  (memory.failed = true → s.context.model = #[]) ∧
    (memory.failed = false → s.context.model.size = memory.atoms ∧
      ∀ v : Valuation, v.Agrees s.context.model → s.formula.Holds v)

variable {s t : Session} {d : Context} {memory : Memory} {k : Call}

theorem Remembers.of_state (h : t.context.state ≠ .satisfiable) : Remembers memory t := fun hs => absurd hs h

/-- What spares the model of a session leaves what it is. -/
theorem Remembers.spared (h : Remembers memory s) (hf : t.formula = s.formula) (hd : Spared s.context t.context) :
    Remembers memory t := fun hs => by
  have hstate : s.context.state = .satisfiable := by
    rcases hd.state with he | he
    · exact he.symm.trans hs
    · cases he.symm.trans hs
  rw [hd.model, hf]
  exact h hstate

theorem Remembers.course (h : Remembers memory s) (hd : d.course = s.context.course) : Remembers memory (s.goTo d) :=
  h.spared rfl ⟨congrArg Course.model hd, .inl (state_eq_of_course hd)⟩

/-- What is owed to the clause that waits, and what the stored model is. -/
structure Trusted (memory : Memory) (s : Session) : Prop extends Owing s where
  remembers : Remembers memory s

theorem Trusted.freshAtom (h : Trusted memory s) :
    Meets freshAtom s.context (fun _ d => Trusted memory (s.goTo d)) fun d => Trusted memory (s.goTo d) :=
  (h.toOwing.freshAtom.and meets_freshAtom_course).mono (fun _ _ hd => ⟨hd.1, h.remembers.course hd.2⟩) fun _ hd =>
    ⟨hd.1, h.remembers.course hd.2⟩

/-- **An accepted clause that says something new takes the model out of sight**, and the model makes any other true. -/
theorem Trusted.addClause (h : Trusted memory s) (clause : Clause) :
    Meets (addClause clause) s.context (fun outcome d => Trusted memory (s.accept clause outcome d))
      fun d => Trusted memory (s.goTo d) := by
  refine ((h.toOwing.addClause clause).and (meets_addClause h.toResting rfl)).mono
    (fun outcome d ⟨howing, hd⟩ => ⟨howing, ?_⟩) fun d ⟨howing, _, _, _, _, _, hd⟩ => ⟨howing, ?_⟩
  · by_cases hadded : outcome = .added
    · exact .of_state fun hs => by cases ((hd.added hadded).2).symm.trans hs
    by_cases hunsat : outcome = .unsatisfiable
    · exact .of_state fun hs => by cases (hd.unsatisfiable hunsat).symm.trans hs
    intro hs
    have he := hd.same hadded hunsat
    subst he
    have hne : s.context.state ≠ .unsatisfiable := fun hu => by cases hu.symm.trans hs
    obtain ⟨hfailed, hfound⟩ := h.remembers hs
    refine ⟨hfailed, fun hm => ⟨(hfound hm).1, fun v hv => ?_⟩⟩
    exact (h.quiet hne).holds_of_holds (hd.resting.quiet hne) ((hfound hm).2 v hv)
  · rcases hd with rfl | hd
    · exact h.remembers
    · exact .of_state fun hs => by cases hd.symm.trans hs

theorem trusted_building : Building (Trusted memory) := ⟨fun _ h => h.freshAtom, fun clause _ h => h.addClause clause⟩

/-- **What a solve leaves for a model is one if it found one, and is empty if it failed.** -/
theorem Remembers.solveGiven (h : Owing s) {fuel : Nat} {assumptions : List Literal}
    (ht : s.after (Solver.solveGiven fuel assumptions) (fun _ => s.forget) = some t) :
    Remembers (memory.solved (Solver.solveGiven fuel assumptions) s.context) t := by
  obtain ⟨r, d, hr, rfl⟩ := after_eq_some ht
  have hd : Meets (Solver.solveGiven fuel assumptions) s.context
      (Concluded s.formula (· = 0) assumptions s.context)
      (fun d => Resting s.formula (· = 0) d ∧ d.pending = none ∧ d.atoms.count = s.context.atoms.count ∧
        (d.state = .satisfiable → d.model = #[])) := meets_solveGiven h.toResting rfl
  unfold Memory.solved
  rw [hr]
  intro hs
  cases r with
  | none =>
    have hfail := Meets.of_ended (P := fun r d => r = none → d.state = .satisfiable → d.model = #[])
      (hd.mono (fun _ _ _ => nofun) fun _ hd _ => hd.2.2.2) hr
    exact ⟨fun _ => hfail rfl hs, nofun⟩
  | some report =>
    have hc := hd.of_ok (ended_eq_answer hr)
    have hreport : report = .satisfiable := hc.reported.trans (congrArg SolveState.report hs)
    subst hreport
    obtain ⟨hmodels, hsize⟩ := hc.satisfiable hs
    exact ⟨nofun, fun _ => ⟨hsize, fun v hv clause hmem => Clause.holds_of_satisfiedBy hv (hmodels.clauses clause hmem)⟩⟩

/-- **Every call keeps what the stored model is.** -/
theorem Trusted.call (h : Trusted memory s) (ht : s.call k = some t) : Trusted (memory.next s.context k) t := by
  refine ⟨h.toOwing.call ht, ?_⟩
  have hspared : ∀ {α : Type} {m : Solver α} {next : Option α → Context → Session}, s.after m next = some t →
      Within Spared m → (∀ r d, (next r d).formula = s.formula ∧ (next r d).context = d) → Remembers memory t :=
    fun ht hm hnext => meets_after (P := Remembers memory)
      ((hm s.context).meets.mono (fun a d hd => h.remembers.spared (hnext (some a) d).1 ((hnext (some a) d).2.symm ▸ hd))
        fun d hd => h.remembers.spared (hnext none d).1 ((hnext none d).2.symm ▸ hd)) ht
  unfold Session.call at ht
  cases k with
  | freshAtom => exact (meets_after h.freshAtom ht).remembers
  | addClause clause => exact (meets_after (h.addClause clause) ht).remembers
  | readDimacs lines =>
    exact (meets_after ((trusted_building.readAll h lines).mono (fun _ _ => And.left) fun _ => And.left) ht).remembers
  | solve fuel => exact Remembers.solveGiven h.toOwing ht
  | solveGiven fuel assumptions => exact Remembers.solveGiven h.toOwing (Option.ite_none_right_eq_some.1 ht).2
  | simplify => exact hspared ht within_simplify fun _ _ => ⟨rfl, rfl⟩
  | reduce => exact hspared ht within_reduce fun _ _ => ⟨rfl, rfl⟩
  | decide l => exact hspared ht within_decide fun _ _ => ⟨rfl, rfl⟩
  | undo l => exact hspared ht within_undo fun _ _ => ⟨rfl, rfl⟩
  | assertHere =>
    dsimp only at ht
    split at ht
    · cases ht
    · exact hspared ht within_assertHere fun _ _ => ⟨rfl, rfl⟩
  | countModels => exact hspared ht within_countModels fun _ _ => ⟨rfl, rfl⟩
  | findModel fuel => exact hspared ht (within_findModel fuel) fun _ _ => ⟨rfl, rfl⟩

theorem Recalls.trusted (h : s.Recalls memory) : Trusted memory s := by
  induction h with
  | start options random => exact ⟨(Orderly.start options random).owing, .of_state nofun⟩
  | configure _ options ih => exact ⟨ih.toOwing.equip options _, ih.remembers.spared rfl ⟨rfl, .inl rfl⟩⟩
  | call _ ht ih => exact ih.call ht
  | @assert s t memory h hfree ht ih =>
    refine meets_after (P := Trusted memory) ?_ ht
    exact ((ih.toOwing.assert hfree).and (within_assertHere (R := Spared) s.context).meets).mono
      (fun _ _ hd => ⟨hd.1, ih.remembers.spared rfl hd.2⟩) fun _ hd => ⟨hd.1, ih.remembers.spared rfl hd.2⟩

/-- **A model that is handed out is right, unless a solve has failed since it was found.**  It has a value for each atom there
was, every valuation that agrees with it makes every accepted clause true, and of each it makes a literal true itself, but
for clauses with a literal and its negation.  Where a solve has failed since it is empty. -/
theorem model_sound (h : s.Recalls memory) {model : Array Bool} (hm : s.context.model? = .ok model) :
    (memory.failed = false → model.size = memory.atoms ∧
      (∀ v : Valuation, v.Agrees model → s.formula.Holds v) ∧
      ∀ clause ∈ s.formula, clause.satisfiedBy model = true ∨ ∃ l ∈ clause, l.negate ∈ clause) ∧
    (memory.failed = true → model = #[]) := by
  unfold model? at hm
  split at hm
  case isFalse => cases hm
  cases hm
  obtain ⟨hfailed, hfound⟩ := h.trusted.remembers ‹_›
  exact ⟨fun hf => ⟨(hfound hf).1, (hfound hf).2, fun clause hmem =>
    Clause.satisfiedBy_or_clash fun v hv => (hfound hf).2 v hv clause hmem⟩, hfailed⟩

/-- With one of two atoms to hold, and an atom added since: the model found is still handed out, and has no value for the new
atom. -/
theorem model_sound_or : ∃ (s : Session) (memory : Memory) (model : Array Bool), s.Recalls memory ∧
    s.context.model? = .ok model ∧ s.formula = [[x₀, x₁]] ∧ s.context.atoms.count = 3 ∧ memory.atoms = 2 ∧
    memory.failed = false ∧
    (memory.failed = false → model.size = memory.atoms ∧
      (∀ v : Valuation, v.Agrees model → s.formula.Holds v) ∧
      ∀ clause ∈ s.formula, clause.satisfiedBy model = true ∨ ∃ l ∈ clause, l.negate ∈ clause) ∧
    (memory.failed = true → model = #[]) := by
  have h : ((start {} .default).remembering [.freshAtom, .freshAtom, .addClause [x₀, x₁], .solve 10, .freshAtom, .simplify]
      {}).map (fun r => (r.1.formula, r.1.context.state, r.1.context.atoms.count, r.2.atoms, r.2.failed)) =
      some ([[x₀, x₁]], .satisfiable, 3, 2, false) := by
    simp only [Session.remembering, Session.call, Session.after, Solver.addClause, normal_or]
    decide +kernel
  obtain ⟨s, memory, hs, hview⟩ := recalls_of_remembering h
  simp only [Prod.mk.injEq] at hview
  obtain ⟨hf, hstate, hcount, hatoms, hfailed⟩ := hview
  have hm : s.context.model? = .ok s.context.model := by rw [model?, if_pos hstate]
  exact ⟨s, memory, s.context.model, hs, hm, hf, hcount, hatoms, hfailed, model_sound hs hm⟩

/-- A solve is refused for an atom that is not known, after one has found a model: an empty model is handed out, with no value
for the atom there was, and the accepted clause is not true in it. -/
theorem model_emptied : ∃ (s : Session) (memory : Memory), s.Recalls memory ∧ s.context.model? = .ok #[] ∧
    memory.atoms = 1 ∧ s.formula = [[x₀]] ∧ Clause.satisfiedBy [x₀] #[] = false := by
  have hunit : Clause.normal [x₀] = [x₀] := Clause.normal_of_pairwise (by decide)
  have h : ((start {} .default).remembering [.freshAtom, .addClause [x₀], .solve 10, .solveGiven 10 [x₄]] {}).map
      (fun r => (r.1.formula, r.1.context.state, r.1.context.model, r.2.atoms)) = some ([[x₀]], .satisfiable, #[], 1) := by
    simp only [Session.remembering, Session.call, Session.after, Solver.addClause, hunit]
    decide +kernel
  obtain ⟨s, memory, hs, hview⟩ := recalls_of_remembering h
  simp only [Prod.mk.injEq] at hview
  obtain ⟨hf, hstate, hmodel, hatoms⟩ := hview
  refine ⟨s, memory, hs, ?_, hatoms, hf, by decide⟩
  rw [model?, if_pos hstate, hmodel]

end Session
end Cdcl
