import Cdcl.Proofs.ImplicationPoints
/-!
# Redundancy — minimization removes exactly the redundant literals

What the literals of a clause make redundant is a least set: of atoms with a value whose reason has other atoms only in the
clause, in the set, or of level zero (`Redundant`).  Reasons go back along the trail, so whatever is backed by the clause and
by what is backed in turn is in that set, whichever way it was found (`Backed.redundant`).

A hopeless atom is not backed by the clause and what that makes redundant (`Hopeless.not_backed`).  For a redundant atom has a
reason, and goes back at its own level to an atom of the clause (`Redundant.exists_level`), so the bits of levels do not rule
it out.  Thus neither these nor the marks left by chases that succeeded change what is dropped (`analyzeConflict_minimal`).
-/
namespace Cdcl
namespace Context

variable {f : Formula} {c : Context} {settled s t : Nat → Prop} {a : Nat} {l : Literal} {clause : Clause}

/-- The least set of atoms with a value that have a reason whose other atoms are in a given set, in this one, or have level
zero. -/
inductive Redundant (c : Context) (s : Nat → Prop) : Nat → Prop
  | intro {a : Nat} (hv : c.atoms.value a ≠ none) (hr : c.atoms.reason a ≠ none)
    (h : ∀ m, c.Antecedent a m → ¬s m.atom → c.atoms.levelOrZero m.atom ≠ 0 → Redundant c s m.atom) : Redundant c s a

/-- The atoms of a clause, and those that they make redundant. -/
def Covered (c : Context) (clause : Clause) (a : Nat) : Prop :=
  a ∈ clause.map Literal.atom ∨ c.Redundant (· ∈ clause.map Literal.atom) a

theorem redundant_iff :
    c.Redundant s a ↔ c.atoms.value a ≠ none ∧ c.Backed (fun x => s x ∨ c.Redundant s x) a := by
  constructor
  · rintro ⟨hv, hr, h⟩
    refine ⟨hv, hr, fun m hm => ?_⟩
    by_cases hs : s m.atom
    · exact .inl (.inl hs)
    by_cases hz : c.atoms.levelOrZero m.atom = 0
    · exact .inr hz
    · exact .inl (.inr (h m hm hs hz))
  · rintro ⟨hv, hr, h⟩
    exact .intro hv hr fun m hm hs hz => ((h m hm).resolve_right hz).resolve_left hs

/-- **No smaller set will do.** -/
theorem Redundant.least (ht : ∀ a, c.atoms.value a ≠ none → c.Backed (fun x => s x ∨ t x) a → t a)
    (h : c.Redundant s a) : t a := by
  induction h with
  | intro hv hr h ih =>
    refine ht _ hv ⟨hr, fun m hm => ?_⟩
    by_cases hs : s m.atom
    · exact .inl (.inl hs)
    by_cases hz : c.atoms.levelOrZero m.atom = 0
    · exact .inr hz
    · exact .inl (.inr (ih m hm hs hz))

theorem Trailed.value_ne_none (ht : Trailed f c) (hl : l ∈ c.trail.literals.toList) : c.atoms.value l.atom ≠ none := by
  rw [(ht.value l).2 hl]
  nofun

/-- **What is in a set or backed in turn is in it or redundant**: by induction along the trail. -/
theorem Trailed.redundant_of_backed (ht : Trailed f c) (hs : ∀ a, t a → s a ∨ c.Backed t a)
    (hl : l ∈ c.trail.literals.toList) (hlt : t l.atom) : s l.atom ∨ c.Redundant s l.atom := by
  obtain ⟨i, hi⟩ := Trail.mem_literals.1 hl
  induction i using Nat.strongRecOn generalizing l with
  | _ i ih =>
    refine (hs _ hlt).imp_right fun hb => .intro (ht.value_ne_none hl) hb.reason fun m hm hns hz => ?_
    obtain ⟨k, hk, hkm⟩ := Trail.mem_before.1 (ht.antecedent_before hi hm)
    have hmt := (hb.others m hm).resolve_right hz
    rw [← Literal.atom_negate] at hmt hns ⊢
    exact (ih k hk (Trail.mem_of_getElem? hkm) hmt hkm).resolve_left hns

/-- **A literal backed by such a set is backed by the first and what that makes redundant.** -/
theorem Backed.redundant (h : c.Backed t l.atom) (ht : Trailed f c) (hs : ∀ a, t a → s a ∨ c.Backed t a)
    (hl : l ∈ c.trail.literals.toList) : c.Backed (fun x => s x ∨ c.Redundant s x) l.atom :=
  ⟨h.reason, fun m hm => (h.others m hm).imp_left fun hmt => by
    rw [← Literal.atom_negate] at hmt ⊢
    exact ht.redundant_of_backed hs (ht.antecedent_mem hl hm) hmt⟩

/-- **A redundant atom above level zero has the level of one of the given atoms.** -/
theorem Redundant.exists_level (h : c.Redundant s a) (hb : Base f settled c) (ha : c.Anchored 0)
    (hz : c.atoms.levelOrZero a ≠ 0) : ∃ b, s b ∧ c.atoms.levelOrZero b = c.atoms.levelOrZero a := by
  refine h.least (t := fun a => c.atoms.levelOrZero a ≠ 0 → ∃ b, s b ∧ c.atoms.levelOrZero b = c.atoms.levelOrZero a)
    (fun a hv hback hz => ?_) hz
  obtain ⟨_, hv⟩ := Option.ne_none_iff_exists'.1 hv
  obtain ⟨l, hl, rfl, -⟩ := hb.exists_literal hv
  -- it goes back to a literal of its own level
  obtain ⟨m, hm, hlevel⟩ := ha l hl (Nat.pos_of_ne_zero hz) hback.reason
  rcases hback.others m hm with (hs | hmt) | hmz
  · exact ⟨m.atom, hs, hlevel⟩
  · rw [← hlevel] at hz ⊢
    exact hmt hz
  · exact absurd (hlevel.symm.trans hmz) hz

/-- **A hopeless atom is not backed by the clause and what that makes redundant.** -/
theorem Hopeless.not_backed (h : c.Hopeless clause a) (hb : Base f settled c) (ha : c.Anchored 0) :
    ¬c.Backed (c.Covered clause) a := by
  induction h with
  | bare hr => exact fun hback => hback.reason hr
  | off hm hmem hz hbit =>
    intro hback
    have hredundant := ((hback.others _ hm).resolve_right hz).resolve_left hmem
    obtain ⟨b, hbc, hlevel⟩ := hredundant.exists_level hb ha hz
    obtain ⟨n, hn, rfl⟩ := List.mem_map.1 hbc
    exact hbit n hn (congrArg Solver.levelBit hlevel)
  | back hm hmem hz _ ih =>
    exact fun hback => ih (redundant_iff.1 (((hback.others _ hm).resolve_right hz).resolve_left hmem)).2

end Context

/-! ## What is kept -/

namespace Sifted

variable {P Q R S : Literal → Prop} {clause kept left : Clause} {m : Literal}

theorem sublist_of_imp (h : Sifted P Q clause kept) (h' : Sifted R S clause left) (hn : ∀ m, P m → ¬S m) :
    left.Sublist kept := by
  induction h generalizing left with
  | nil =>
    cases h'
    exact .refl _
  | drop hp _ ih =>
    cases h' with
    | drop _ h' => exact ih h'
    | keep hs _ => exact absurd hs (hn _ hp)
  | keep _ _ ih =>
    cases h' with
    | drop _ h' => exact (ih h').cons _
    | keep _ h' => exact (ih h').cons_cons _

theorem mem_iff (h : Sifted P (fun m => ¬P m) clause kept) (hm : m ∈ clause) : m ∈ kept ↔ ¬P m :=
  ⟨h.of_mem, fun hn => (h.mem_or hm).resolve_right hn⟩

end Sifted

namespace Solver

open Run Context

variable {f : Formula} {sets : Nat → Prop} {c d e : Context} {asserting : Literal} {lower kept cheap recursive : Clause}
  {found marks : List Nat}

/-- **A cheap minimization drops exactly what is backed by the clause.** -/
theorem answers_minimizeCheap_exact (hb : Base f sets c) (h : Pointed f c asserting lower d) :
    Answers (minimizeCheap (asserting :: lower)) d fun minimal e => e = d ∧ ∃ cheap, minimal = asserting :: cheap ∧
      Sifted (fun m => c.Backed (· ∈ lower.map Literal.atom) m.atom)
        (fun m => ¬c.Backed (· ∈ lower.map Literal.atom) m.atom) lower cheap := by
  refine (answers_minimizeCheap hb h.working h.marks fun m hm => (h.lower m hm).1).mono fun minimal e ⟨hed, hmin⟩ => ?_
  obtain ⟨cheap, he, hsifted⟩ := hmin.clause
  exact ⟨hed, cheap, he, hsifted.mono (fun m _ hback => hback.mono fun x hx => hx.resolve_right (by simp)) fun _ _ => id⟩

/-- **A recursive minimization drops exactly what is backed by the clause and by what that makes redundant.** -/
theorem answers_minimizeRecursive_exact (hb : Base f sets c) (ha : c.Anchored 0) (h : Pointed f c asserting lower d) :
    Answers (minimizeRecursive (asserting :: lower)) d fun r _ => ∃ recursive, r.1 = asserting :: recursive ∧
      Sifted (fun m => c.Backed (c.Covered lower) m.atom) (fun m => ¬c.Backed (c.Covered lower) m.atom) lower recursive := by
  have hfalse : ∀ m ∈ lower, m.negate ∈ c.trail.literals.toList := fun m hm => (h.lower m hm).1
  refine (answers_minimizeRecursive hb.trailed h.working h.marks hfalse).mono fun r e hmin => ?_
  obtain ⟨recursive, he, hsifted⟩ := hmin.clause
  refine ⟨recursive, he, hsifted.mono (fun m hm hback => ?_) fun m _ hh => hh.not_backed hb ha⟩
  rw [← Literal.atom_negate] at hback ⊢
  exact hback.redundant hb.trailed (fun a => Or.imp_right (hmin.backed a)) (hfalse m hm)

theorem kept_of_minimized (h : minimized (asserting :: lower) d = .ok (asserting :: kept, found) e)
    (hcheap : minimizeCheap (asserting :: lower) d = .ok (asserting :: cheap) d) {g : Context}
    (hrecursive : minimizeRecursive (asserting :: lower) d = .ok (asserting :: recursive, marks) g) :
    kept = match d.options.minimization.value with
      | .none => lower
      | .cheap => cheap
      | .recursive => recursive := by
  unfold minimized at h
  rw [bind_of_ok (get_apply d)] at h
  cases hmode : d.options.minimization.value with
  | none =>
    rw [hmode] at h
    cases h
    rfl
  | cheap =>
    rw [hmode] at h
    dsimp only at h
    rw [bind_of_ok hcheap] at h
    cases h
    rfl
  | recursive =>
    rw [hmode] at h
    cases hrecursive.symm.trans h
    rfl

end Solver

namespace Session

open Run Context Solver

variable {s : Session} {k : Call} {conflict : Conflict} {d : Context}

/-- **Minimization removes exactly the redundant literals.**  Where a conflict is analysed at a root level of zero, resolution
finds a clause of distinct atoms.  A cheap minimization of it keeps the first literal, and of the others, in order, exactly
those that are not backed by the others; a recursive one those that are not backed by these and what they make redundant,
which are among the former.  The learnt clause has the first literal, and those that the minimization that is set leaves. -/
theorem analyzeConflict_minimal (h : s.Followed) (hst : s.steps k s.context (.analyze conflict) d)
    (hroot : d.trail.root = 0) :
    ∃ asserting lower e cheap recursive found g, resolvent conflict d = .ok (asserting :: lower) e ∧
      ((asserting :: lower).map Literal.atom).Nodup ∧
      minimizeCheap (asserting :: lower) e = .ok (asserting :: cheap) e ∧ cheap.Sublist lower ∧
      (∀ m ∈ lower, m ∈ cheap ↔ ¬d.Backed (· ∈ lower.map Literal.atom) m.atom) ∧
      minimizeRecursive (asserting :: lower) e = .ok (asserting :: recursive, found) g ∧ recursive.Sublist lower ∧
      (∀ m ∈ lower, m ∈ recursive ↔ ¬d.Backed (d.Covered lower) m.atom) ∧ recursive.Sublist cheap ∧
      ∃ learnt u others, analyzeConflict conflict d = .ok learnt u ∧ learnt.clause = asserting :: others ∧
        others.Perm (match d.options.minimization.value with
          | .none => lower
          | .cheap => cheap
          | .recursive => recursive) := by
  obtain ⟨f, ⟨⟨⟨settled, hd⟩, -, hr, hhere, hpos⟩, hprobed⟩, -⟩ := h.held.prepared gapless_zero hst
  have hanchored : d.Anchored 0 := hroot ▸ (hprobed conflict rfl).anchored
  obtain ⟨learnt, u, hlearnt, -, asserting, lower, others, e, -, htaught⟩ :=
    answers_analyzeConflict_taught hd.toBase hd.marks hr hhere hpos
  have hp := htaught.pointed
  obtain ⟨kept, found, v, hminimized, hclause, hperm⟩ := htaught.minimized
  obtain ⟨_, _, hcheap, he, cheap, rfl, hdrop⟩ := answers_minimizeCheap_exact hd.toBase hp
  rw [he] at hcheap
  obtain ⟨⟨_, marks⟩, g, hrecursive, recursive, rfl, hdrop'⟩ := answers_minimizeRecursive_exact hd.toBase hanchored hp
  have hoptions : e.options = d.options := ((within_resolvent (R := Kept) conflict d).meets.of_ok htaught.resolvent).options
  rw [kept_of_minimized hminimized hcheap hrecursive, hoptions] at hperm
  exact ⟨asserting, lower, e, cheap, recursive, marks, g, htaught.resolvent, hp.nodup, hcheap, hdrop.sublist,
    fun m hm => hdrop.mem_iff hm, hrecursive, hdrop'.sublist, fun m hm => hdrop'.mem_iff hm,
    hdrop.sublist_of_imp hdrop' fun m hback hn => hn (hback.mono fun _ => .inl), learnt, u, others, hlearnt, hclause, hperm⟩

/-- With the first atom decided, which implies the second and the fourth, and this the third, and a conflict on the next level
that has the first three for reasons: a cheap minimization drops the second, which the first implies, and a recursive one the
third as well. -/
theorem analyzeConflict_minimal_drops : ∃ (s : Session) (conflict : Conflict) (d : Context), s.Followed ∧
    s.formula = [[x₀.negate, x₁], [x₀.negate, x₃], [x₂, x₃.negate], [x₄.negate, x₅],
      [x₀.negate, x₁.negate, x₂.negate, x₄.negate, x₅.negate]] ∧
    s.steps (.decide x₄) s.context (.analyze conflict) d ∧ d.trail.root = 0 ∧
    ∃ asserting lower e cheap recursive found g, resolvent conflict d = .ok (asserting :: lower) e ∧
      ((asserting :: lower).map Literal.atom).Nodup ∧
      minimizeCheap (asserting :: lower) e = .ok (asserting :: cheap) e ∧ cheap.Sublist lower ∧
      (∀ m ∈ lower, m ∈ cheap ↔ ¬d.Backed (· ∈ lower.map Literal.atom) m.atom) ∧
      minimizeRecursive (asserting :: lower) e = .ok (asserting :: recursive, found) g ∧ recursive.Sublist lower ∧
      (∀ m ∈ lower, m ∈ recursive ↔ ¬d.Backed (d.Covered lower) m.atom) ∧ recursive.Sublist cheap ∧
      (∃ learnt u others, analyzeConflict conflict d = .ok learnt u ∧ learnt.clause = asserting :: others ∧
        others.Perm (match d.options.minimization.value with
          | .none => lower
          | .cheap => cheap
          | .recursive => recursive)) ∧
      asserting = x₄.negate ∧ lower = [x₀.negate, x₁.negate, x₂.negate] ∧ cheap = [x₀.negate, x₂.negate] ∧
      recursive = [x₀.negate] := by
  have hlong : Clause.normal [x₀.negate, x₁.negate, x₂.negate, x₄.negate, x₅.negate] =
      [x₀.negate, x₁.negate, x₂.negate, x₄.negate, x₅.negate] := Clause.normal_of_pairwise (by decide)
  have hpair : ∀ c ∈ [[x₀.negate, x₁], [x₀.negate, x₃], [x₂, x₃.negate], [x₄.negate, x₅]], Clause.normal c = c :=
    fun c hc => Clause.normal_of_pairwise (by revert c; decide)
  simp only [List.forall_mem_cons] at hpair
  have h : (dispute [.freshAtom, .freshAtom, .freshAtom, .freshAtom, .freshAtom, .freshAtom, .addClause [x₀.negate, x₁],
      .addClause [x₀.negate, x₃], .addClause [x₂, x₃.negate], .addClause [x₄.negate, x₅],
      .addClause [x₀.negate, x₁.negate, x₂.negate, x₄.negate, x₅.negate], .decide x₀] x₄).map (fun r => (r.1.formula,
        ((do
          let clause ← resolvent r.2.1
          let cheap ← minimizeCheap clause
          let recursive ← minimizeRecursive clause
          pure [clause, cheap, recursive.1]).ended r.2.2).bind fun t => t.1)) =
      some ([[x₀.negate, x₁], [x₀.negate, x₃], [x₂, x₃.negate], [x₄.negate, x₅],
        [x₀.negate, x₁.negate, x₂.negate, x₄.negate, x₅.negate]],
        some [[x₄.negate, x₀.negate, x₁.negate, x₂.negate], [x₄.negate, x₀.negate, x₂.negate], [x₄.negate, x₀.negate]]) := by
    simp only [dispute, Session.run, Session.call, Session.after, addClause, hpair, hlong]
    decide +kernel
  obtain ⟨s, conflict, d, hrun, hst, hview⟩ := exists_analyze_of_dispute h
  obtain ⟨hf, hclauses⟩ := Prod.mk.inj hview
  have hs : s.Followed := .run _ (.start {} .default) hrun
  have hroot := root_of_steps (k := .decide x₄) hs id hst
  obtain ⟨asserting, lower, e, cheap, recursive, found, g, hresolvent, hnodup, hcheap, hsub, hkept, hrecursive, hsub', hkept',
    hrefined, hlearnt⟩ := analyzeConflict_minimal (k := .decide x₄) hs hst hroot
  -- the three programs came to these clauses when they were run
  obtain ⟨⟨answer, u⟩, hprograms, rfl⟩ := Option.bind_eq_some_iff.1 hclauses
  have heq := ended_eq_answer hprograms
  rw [bind_of_ok hresolvent, bind_of_ok hcheap, bind_of_ok hrecursive] at heq
  simp only [pure_apply, EStateM.Result.ok.injEq, List.cons.injEq, and_true] at heq
  obtain ⟨⟨⟨hasserting, hlower⟩, ⟨-, hcheap'⟩, -, hrecursive'⟩, -⟩ := heq
  exact ⟨s, conflict, d, hs, hf, hst, hroot, asserting, lower, e, cheap, recursive, found, g, hresolvent, hnodup, hcheap, hsub,
    hkept, hrecursive, hsub', hkept', hrefined, hlearnt, hasserting, hlower, hcheap', hrecursive'⟩

end Session
end Cdcl
