import Cdcl.Proofs.Availability
import Cdcl.Proofs.StoredModel
/-!
# ReadOff — a model is read off where every atom has a value

A solve that finds a model has asked for a decision and there was none (`Asks.ReadsOff`): every part of it finds a model only
where it asks (`Asks.Finds`), and what comes after that leaves the model.  Since a decision is missing only where every atom
has a value, a model has the values that the atoms had there, and none by default (`model_readOff`).
-/
namespace Cdcl

open Run Context

namespace Asks

variable {α β : Type}

/-- A model is that of a context in which a program asks and there is nothing to decide. -/
def ReadsOff (p : Asks) (c d : Context) : Prop :=
  ∃ e ∈ p c, ∃ g, Solver.chooseDecision e = .ok none g ∧ d.model = Solver.currentModel g

/-- What a program has found it has read off. -/
def Finds (p : Asks) (m : Solver α) (found : α → Prop) : Prop :=
  ∀ c a d, m c = .ok a d → found a → p.ReadsOff c d

variable {m : Solver α} {f : α → Solver β} {p : Asks} {q : α → Asks} {c d : Context} {a : α} {found : β → Prop}
  {found' : α → Prop}

theorem after_eq (hm : m c = .ok a d) : after m q c = q a d := by
  unfold after
  rw [hm]

theorem finds_of_meets (h : ∀ c, m.Meets c (fun a _ => ¬found' a) fun _ => True) : p.Finds m found' :=
  fun c _ _ hd ha => absurd ha ((h c).of_ok hd)

theorem finds_pure (h : ¬found' a) : p.Finds (pure a) found' := finds_of_meets fun _ => meets_pure.2 h

theorem finds_throw {i : Interrupt} : p.Finds (throw i : Solver β) found := fun _ _ _ hd => by cases hd

theorem finds_look {x : Context → Asks} {m : Context → Solver β} (h : ∀ c, (x c).Finds (m c) found) :
    (look x).Finds (get >>= m) found := fun c => h c c

theorem finds_ite {b : Prop} [Decidable b] {x y : Asks} {m n : Solver β} (hx : x.Finds m found) (hy : y.Finds n found) :
    (if b then x else y).Finds (if b then m else n) found := by
  split
  · exact hx
  · exact hy

theorem finds_after_of_meets (h : ∀ c, m.Meets c (fun a _ => (q a).Finds (f a) found) fun _ => True) :
    (after m q).Finds (m >>= f) found := by
  intro c b d hd hb
  obtain ⟨a, e, he, hd⟩ := bind_eq_ok_iff.1 hd
  unfold ReadsOff
  rw [after_eq he]
  exact (h c).of_ok he e b d hd hb

theorem finds_after (h : ∀ a, (q a).Finds (f a) found) : (after m q).Finds (m >>= f) found :=
  finds_after_of_meets fun _ => meets_any.mono (fun a _ _ => h a) fun _ => id

/-- What a part has found is answered at once. -/
theorem finds_seq (hp : p.Finds m found')
    (hf : ∀ a, (q a).Finds (f a) found ∨ found' a ∧ ∃ b, f a = pure b) : (seq m p q).Finds (m >>= f) found := by
  intro c b e hd hb
  obtain ⟨a, d, he, hd⟩ := bind_eq_ok_iff.1 hd
  rcases hf a with hf | ⟨ha, u, hf⟩
  · obtain ⟨g, hg, hmodel⟩ := hf d b e hd hb
    exact ⟨g, List.mem_append_right _ ((after_eq he).symm ▸ hg), hmodel⟩
  · rw [hf] at hd
    cases hd
    obtain ⟨g, hg, hmodel⟩ := hp c a _ he ha
    exact ⟨g, List.mem_append_left _ hg, hmodel⟩

end Asks

namespace Solver

open Asks

variable {c : Context} {budget : Option Nat} {assumptions : List Literal} {fuel : Nat}

theorem finds_decideNext : here.Finds decideNext (· = some .satisfiable) := by
  intro c answer d hd hanswer
  obtain ⟨choice, e, hchoice, hd⟩ := bind_eq_ok_iff.1 hd
  cases choice with
  | some l =>
    obtain ⟨_, _, _, hd⟩ := bind_eq_ok_iff.1 hd
    cases hd
    cases hanswer
  | none =>
    obtain ⟨_, g, hg, hd⟩ := bind_eq_ok_iff.1 hd
    cases hg
    obtain ⟨_, g, hg, hd⟩ := bind_eq_ok_iff.1 hd
    cases hg
    obtain ⟨_, k, hback, hd⟩ := bind_eq_ok_iff.1 hd
    cases hd
    have hspared : Spared _ d := (within_backjump (R := Spared) _).meets.of_ok hback
    exact ⟨c, List.mem_singleton_self c, e, hchoice, hspared.model⟩

/-- A conflict is no model. -/
theorem meets_atConflict_unfound (conflict : Conflict) (c : Context) :
    Meets (atConflict conflict) c (fun answer _ => answer ≠ some .satisfiable) fun _ => True := by
  unfold atConflict
  rw [meets_bind, meets_count, meets_bind, meets_get, meets_ite, meets_ite]
  refine ⟨fun _ => nofun, fun _ => ⟨fun _ => ?_, fun _ => ?_⟩⟩
  · exact meets_bind_any fun _ _ => meets_bind_any fun _ _ => nofun
  · exact meets_bind_any fun _ _ => meets_bind_any fun _ _ => meets_bind_any fun _ _ => meets_bind_any fun _ _ =>
      meets_bind_any fun _ _ => nofun

theorem finds_atRest : (atRest.asks budget).Finds (atRest budget) (· = some .satisfiable) := by
  unfold atRest atRest.asks
  refine finds_look fun c => finds_ite ?_ (finds_after fun stop => finds_ite (finds_pure nofun) ?_)
  · exact finds_of_meets fun _ => meets_bind_any fun _ _ => nofun
  · exact finds_look fun c => finds_ite (finds_after fun _ => finds_decideNext) finds_decideNext

theorem finds_searchFor : ∀ fuel : Nat, (searchFor.asks budget fuel).Finds (searchFor budget fuel) (· = .satisfiable)
  | 0 => finds_throw
  | fuel + 1 => by
    unfold searchFor searchFor.asks
    refine finds_after fun result => ?_
    cases result with
    | corrupt => exact finds_throw
    | conflict conflict =>
      refine finds_after_of_meets fun c => (meets_atConflict_unfound conflict c).mono (fun answer _ h => ?_) fun _ => id
      cases answer with
      | none => exact finds_searchFor fuel
      | some state => exact finds_pure fun hs => h (congrArg some hs)
    | complete =>
      refine finds_seq finds_atRest fun answer => ?_
      cases answer with
      | none => exact .inl (finds_searchFor fuel)
      | some state =>
        by_cases hs : state = .satisfiable
        · exact .inr ⟨congrArg some hs, _, rfl⟩
        · exact .inl (finds_pure hs)

theorem finds_search : (search.asks fuel budget).Finds (search fuel budget) (· = .satisfiable) :=
  finds_after fun _ => finds_searchFor fuel

theorem finds_searchAll {conflictsBefore : Nat} : ∀ (fuel : Nat) (luby : Luby),
    (searchAll.asks conflictsBefore fuel luby).Finds (searchAll conflictsBefore fuel luby) (· = .satisfiable)
  | 0, _ => finds_throw
  | fuel + 1, luby => by
    unfold searchAll searchAll.asks
    refine finds_after fun next => ?_
    cases next with
    | none => exact finds_pure (by decide)
    | some next =>
      refine finds_seq finds_search fun state => ?_
      cases state with
      | unknown =>
        refine .inl (finds_after fun _ => finds_after fun _ => finds_ite (finds_pure (by decide)) ?_)
        exact finds_searchAll fuel next.2
      | satisfiable => exact .inr ⟨rfl, _, rfl⟩
      | _ => exact .inl (finds_pure (by decide))

theorem finds_solveFromRoot :
    (solveFromRoot.asks fuel assumptions).Finds (solveFromRoot fuel assumptions) (· = .satisfiable) := by
  unfold solveFromRoot solveFromRoot.asks
  refine finds_after fun _ => finds_look fun c => finds_ite (finds_pure nofun) (finds_after fun _ => finds_after fun _ =>
    finds_after fun failed => finds_ite (finds_pure nofun) (finds_look fun c => finds_searchAll fuel _))

theorem meets_conclude_found {state : SolveState} : Meets (conclude state) c (fun report d =>
    report = .satisfiable → state = .satisfiable ∧ d.model = c.model) fun _ => True := by
  unfold conclude
  rw [meets_bind, meets_modify, meets_bind, meets_get, meets_pure]
  dsimp only
  by_cases hs : c.state = .unsatisfiable
  · rw [if_pos hs]
    split <;> exact fun hu => by rw [report, hs] at hu; cases hu
  · rw [if_neg hs]
    have hstate : state.report = .satisfiable → state = .satisfiable := by cases state <;> decide
    split <;> exact fun hu => ⟨hstate hu, rfl⟩

/-- **A model that a solve finds is read off where it asks.** -/
theorem finds_solveGiven :
    (solveGiven.asks fuel assumptions).Finds (solveGiven fuel assumptions) (· = .satisfiable) := by
  unfold solveGiven solveGiven.asks
  refine finds_after fun _ => finds_look fun c => finds_ite (finds_pure nofun) (finds_ite finds_throw
    (finds_after fun _ => finds_after fun _ => ?_))
  intro c report e he hreport
  obtain ⟨result, d, hd, he⟩ := bind_eq_ok_iff.1 he
  obtain ⟨_, g, hg, he⟩ := bind_eq_ok_iff.1 he
  have hspared : Spared d g := (within_returnToRoot (R := Spared) (fun _ => ⟨rfl, .inl rfl⟩)
    (fun _ => ⟨rfl, .inl rfl⟩) d).meets.of_ok hg
  rcases attempt_eq_ok_iff.1 hd with ⟨state, rfl, hsolved⟩ | ⟨f, rfl, -⟩
  · obtain ⟨hstate, hmodel⟩ := meets_conclude_found.of_ok he hreport
    obtain ⟨k, hk, hchoice⟩ := finds_solveFromRoot c state d hsolved hstate
    exact ⟨k, hk, hchoice.imp fun _ h => ⟨h.1, (hmodel.trans hspared.model).trans h.2⟩⟩
  · cases he

end Solver

namespace Session

open Solver

variable {s : Session} {d : Context} {fuel : Nat} {assumptions : List Literal}

/-- **A model has no value but those that atoms have.**  When a solve finds a model, it has come to ask for a decision where
every atom has a value, and the model has these values. -/
theorem model_readOff (h : s.Followed) (hd : solveGiven fuel assumptions s.context = .ok .satisfiable d) :
    ∃ c ∈ solveGiven.asks fuel assumptions s.context, (∀ a < c.atoms.count, c.atoms.value a ≠ none) ∧
      d.model.size = c.atoms.count ∧ ∀ a < c.atoms.count, d.model[a]? = c.atoms.value a := by
  obtain ⟨c, hc, e, he, hmodel⟩ := finds_solveGiven s.context _ d hd rfl
  have hchoosable := h.choosable (.inr hc)
  have hall := (hchoosable.of_choice he).1.1 rfl
  rcases (meets_chooseDecision hchoosable.stocked hchoosable.bounded).of_ok he with ⟨_, hl, -⟩ | ⟨-, hunmoved, -⟩
  · cases hl
  refine ⟨c, hc, hall, ?_, fun a ha => ?_⟩
  · rw [hmodel, currentModel, Array.size_map, hunmoved.records]
    rfl
  · rw [hmodel, getElem?_currentModel, hunmoved.records]
    have hrecord := Array.getElem?_eq_getElem ha
    obtain ⟨b, hb⟩ := Option.ne_none_iff_exists'.1 (hall a ha)
    rw [hrecord, Option.map_some, ← AtomTable.value_of_record hrecord, hb, Option.getD_some]

end Session
end Cdcl
