import Cdcl.Proofs.LearntClauses
import Cdcl.Proofs.Passage
/-!
# ImplicationPoints — an analysis stops at the first unique implication point

The implications of the current level make a graph: from a literal to those it is in the reason of, and to the conflict.
Its paths go forward along the trail (`Path.ascending`).  While the trail is walked back, what is left of the clause are the
literals before the index that have a path to the conflict through literals from there on only (`Retraced.frontier`).

So where one literal is left, every path from the decision of the level passes it; and before, whatever stands at the index
is avoided by a path through another literal that is left (`Retraced.firstPoint`).
-/
namespace Cdcl
namespace Context

variable {f : Formula} {c : Context} {conflict : Conflict} {index i : Nat} {top : Clause} {l m p q x y first : Literal}
  {pre path rest : List Literal}

/-! ## The graph -/

/-- A literal of the trail that has the current level. -/
def Topmost (c : Context) (l : Literal) : Prop :=
  l ∈ c.trail.literals.toList ∧ c.atoms.levelOrZero l.atom = c.trail.level

/-- An edge of the graph: the atom of one literal of the current level is in the reason of another one. -/
structure Implies (c : Context) (y x : Literal) : Prop where
  source : c.Topmost y
  target : c.Topmost x
  reason : ∃ m, c.Antecedent x.atom m ∧ m.atom = y.atom

/-- An edge to the conflict: a literal of the current level makes a literal of it false. -/
structure Ends (c : Context) (conflict : Conflict) (y : Literal) : Prop where
  source : c.Topmost y
  mem : y.negate ∈ c.literalsOf conflict

/-- The literals of a path to the conflict. -/
inductive Path (c : Context) (conflict : Conflict) : List Literal → Prop
  | last {y : Literal} (h : c.Ends conflict y) : Path c conflict [y]
  | step {y x : Literal} {rest : List Literal} (h : c.Implies y x) (hp : Path c conflict (x :: rest)) :
    Path c conflict (y :: x :: rest)

/-- The literal the current level begins with. -/
def opening? (c : Context) : Option Literal := c.trail.literals[c.trail.start c.trail.level]?

/-- A literal that every path from the beginning of the level to the conflict passes. -/
def Unavoidable (c : Context) (conflict : Conflict) (p : Literal) : Prop :=
  ∀ first rest, c.opening? = some first → c.Path conflict (first :: rest) → p ∈ first :: rest

/-- One literal stands before another. -/
def Precedes (c : Context) (y x : Literal) : Prop := ∀ i : Nat, c.trail.literals[i]? = some x → y ∈ c.trail.before i

theorem Implies.antecedent (h : c.Implies y x) (ht : Trailed f c) : c.Antecedent x.atom y.negate := by
  obtain ⟨m, hm, he⟩ := h.reason
  have hmem := ht.antecedent_mem h.target.1 hm
  rw [← ht.eq_of_atom hmem h.source.1 (by rw [Literal.atom_negate, he]), Literal.negate_negate]
  exact hm

theorem Implies.precedes (h : c.Implies y x) (ht : Trailed f c) : c.Precedes y x := fun i hi => by
  have := ht.antecedent_before hi (h.antecedent ht)
  rwa [Literal.negate_negate] at this

theorem Path.topmost (h : c.Path conflict path) : ∀ x ∈ path, c.Topmost x := by
  induction h with
  | last h => simpa using h.source
  | step h _ ih => exact List.forall_mem_cons.2 ⟨h.source, ih⟩

/-- **Paths go forward along the trail.** -/
theorem Path.ascending (ht : Trailed f c) (h : c.Path conflict path) : path.Pairwise c.Precedes := by
  induction h with
  | last => exact List.pairwise_singleton ..
  | @step y x rest h hp ih =>
    refine List.pairwise_cons.2 ⟨List.forall_mem_cons.2 ⟨h.precedes ht, fun z hz i hi => ?_⟩, ih⟩
    obtain ⟨j, hj, hjx⟩ := Trail.mem_before.1 (List.rel_of_pairwise_cons ih hz i hi)
    exact Trail.before_subset (Nat.le_of_lt hj) (h.precedes ht j hjx)

theorem Trailed.not_mem_before (ht : Trailed f c) (hp : c.trail.literals[index]? = some p) (hle : i ≤ index) :
    p ∉ c.trail.before i := fun hmem => by
  obtain ⟨j, hj, hjp⟩ := Trail.mem_before.1 hmem
  have := ht.index_inj hjp hp
  omega

/-- A path that comes before an index leaves what is before it once and for all. -/
theorem Path.exists_leaving (h : c.Path conflict path) (hx : ∃ x ∈ path, x ∈ c.trail.before index) :
    ∃ y ∈ path, y ∈ c.trail.before index ∧ ∃ rest, c.Path conflict (y :: rest) ∧ ∀ x ∈ rest, x ∉ c.trail.before index := by
  induction h with
  | @last y h =>
    obtain ⟨x, hx, hbefore⟩ := hx
    exact ⟨y, List.mem_cons_self, List.mem_singleton.1 hx ▸ hbefore, [], .last h, by simp⟩
  | @step y x rest h hp ih =>
    by_cases hlater : ∃ z ∈ x :: rest, z ∈ c.trail.before index
    · obtain ⟨z, hz, hleaving⟩ := ih hlater
      exact ⟨z, List.mem_cons_of_mem _ hz, hleaving⟩
    · obtain ⟨z, hz, hbefore⟩ := hx
      obtain rfl := (List.mem_cons.1 hz).resolve_right fun hz => hlater ⟨z, hz, hbefore⟩
      exact ⟨z, List.mem_cons_self, hbefore, x :: rest, .step h hp, fun w hw hwb => hlater ⟨w, hw, hwb⟩⟩

/-- What comes from an index on begins with what stands there, if it has that at all. -/
theorem Path.head_eq (ht : Trailed f c) (h : c.Path conflict (m :: rest)) (hp : c.trail.literals[index]? = some p)
    (hrest : ∀ x ∈ rest, x ∉ c.trail.before index) (hmem : p ∈ rest) :
    ∃ tail, rest = p :: tail ∧ ∀ x ∈ tail, x ∉ c.trail.before (index + 1) := by
  obtain ⟨pre, tail, rfl⟩ := List.append_of_mem hmem
  have hascending := (List.pairwise_cons.1 (h.ascending ht)).2
  obtain ⟨-, hpt, hpre⟩ := List.pairwise_append.1 hascending
  have hnil : pre = [] := List.eq_nil_iff_forall_not_mem.2 fun x hx =>
    hrest x (List.mem_append_left _ hx) (hpre x hx p List.mem_cons_self index hp)
  subst hnil
  refine ⟨tail, rfl, fun x hx hxb => ?_⟩
  obtain ⟨i, hi, hix⟩ := Trail.mem_before.1 hxb
  exact ht.not_mem_before hp (Nat.le_of_lt_succ hi) (List.rel_of_pairwise_cons hpt hx i hix)

/-! ## From the decision of the level -/

/-- A literal of the current level without a reason is the one the level begins with. -/
theorem Trailed.opening_eq (ht : Trailed f c) (hpos : 0 < c.trail.level) (hi : c.trail.literals[i]? = some l)
    (hlevel : c.atoms.levelOrZero l.atom = c.trail.level) (hr : c.atoms.reason l.atom = none) : c.opening? = some l := by
  have hcause := ht.caused i l hi
  rw [hr] at hcause
  rcases hcause with ⟨hz, -⟩ | ⟨he, hs⟩
  · omega
  · rw [opening?, ← hlevel, he, ht.layered.start_levelAt_of_mem hs, hi]

/-- **A path may be taken back to the decision of the level**, by literals that stand before it. -/
theorem Path.exists_opening (ht : Trailed f c) (ha : c.Anchored c.trail.root) (hlt : c.trail.root < c.trail.level)
    (h : c.Path conflict (y :: rest)) (hi : c.trail.literals[i]? = some y) :
    ∃ first tail, c.opening? = some first ∧ c.atoms.reason first.atom = none ∧ c.Path conflict (first :: tail) ∧
      ∃ pre, first :: tail = pre ++ y :: rest ∧ ∀ x ∈ pre, x ∈ c.trail.before i := by
  induction i using Nat.strongRecOn generalizing y rest with
  | _ i ih =>
    have hy := h.topmost y List.mem_cons_self
    by_cases hr : c.atoms.reason y.atom = none
    · exact ⟨y, rest, ht.opening_eq (by omega) hi hy.2 hr, hr, h, [], rfl, by simp⟩
    -- above the root level a literal with a reason goes back to one of its own level
    obtain ⟨m, hm, hlevel⟩ := ha y hy.1 (hy.2 ▸ hlt) hr
    have hbefore := ht.antecedent_before hi hm
    obtain ⟨j, hj, hjm⟩ := Trail.mem_before.1 hbefore
    have hedge : c.Implies m.negate y :=
      ⟨⟨Trail.mem_of_getElem? hjm, by rw [Literal.atom_negate, hlevel, hy.2]⟩, hy, m, hm, (Literal.atom_negate m).symm⟩
    obtain ⟨first, tail, hfirst, hnone, hpath, pre, he, hpre⟩ := ih j hj (.step hedge h) hjm
    refine ⟨first, tail, hfirst, hnone, hpath, pre ++ [m.negate], by simp [he], fun x hx => ?_⟩
    rcases List.mem_append.1 hx with hx | hx
    · exact Trail.before_subset (Nat.le_of_lt hj) (hpre x hx)
    · exact List.mem_singleton.1 hx ▸ hbefore

/-! ## The walk back -/

theorem Refuted.negate_mem (h : Refuted f c conflict) : ∀ m ∈ c.literalsOf conflict, m.negate ∈ c.trail.literals.toList := by
  cases conflict with
  | binary a b => simpa [literalsOf] using h.2
  | long key =>
    obtain ⟨ls, hls, hfalse⟩ := h
    rwa [literalsOf, hls, Option.getD_some]

/-- What is left of the clause are the negations of the literals before an index that have a path to the conflict through
literals from there on. -/
def Frontier (c : Context) (conflict : Conflict) (index : Nat) (top : Clause) : Prop :=
  ∀ m, m ∈ top ↔ m.negate ∈ c.trail.before index ∧
    ∃ rest, c.Path conflict (m.negate :: rest) ∧ ∀ x ∈ rest, x ∉ c.trail.before index

theorem frontier_start (hfalse : ∀ m ∈ c.literalsOf conflict, m.negate ∈ c.trail.literals.toList)
    (htop : ∀ m, m ∈ top ↔ m ∈ c.literalsOf conflict ∧ c.atoms.levelOrZero m.atom = c.trail.level) :
    c.Frontier conflict c.trail.size top := fun m => by
  rw [htop, Trail.before_of_size_le (Nat.le_refl _)]
  refine ⟨fun ⟨hm, hlevel⟩ => ⟨hfalse m hm, [], .last ⟨⟨hfalse m hm, by rwa [Literal.atom_negate]⟩, ?_⟩, by simp⟩,
    fun ⟨hm, rest, hpath, hrest⟩ => ?_⟩
  · rwa [Literal.negate_negate]
  · cases hpath with
    | last h => exact ⟨Literal.negate_negate m ▸ h.mem, Literal.atom_negate m ▸ h.source.2⟩
    | step h hp => exact absurd h.target.1 (hrest _ List.mem_cons_self)

/-- **What is left before an index is what was left, and what leads to the literal that stands there.** -/
theorem Frontier.exists_path_iff (h : c.Frontier conflict (index + 1) top) (ht : Trailed f c)
    (hp : c.trail.literals[index]? = some p) (hm : m.negate ∈ c.trail.before index) :
    (∃ rest, c.Path conflict (m.negate :: rest) ∧ ∀ x ∈ rest, x ∉ c.trail.before index) ↔
      m ∈ top ∨ p.negate ∈ top ∧ c.Implies m.negate p := by
  have hgrow : c.trail.before index ⊆ c.trail.before (index + 1) := Trail.before_subset (Nat.le_succ index)
  have hmem : p ∈ c.trail.before (index + 1) := Trail.mem_before.2 ⟨index, Nat.lt_succ_self index, hp⟩
  constructor
  · rintro ⟨rest, hpath, hrest⟩
    by_cases hpr : p ∈ rest
    · obtain ⟨tail, rfl, htail⟩ := hpath.head_eq ht hp hrest hpr
      cases hpath with
      | step hedge hpath =>
        refine .inr ⟨(h p.negate).2 ?_, hedge⟩
        rw [Literal.negate_negate]
        exact ⟨hmem, tail, hpath, htail⟩
    · refine .inl ((h m).2 ⟨hgrow hm, rest, hpath, fun x hx hxb => ?_⟩)
      rcases Trail.eq_or_mem_before hp hxb with rfl | hxb
      · exact hpr hx
      · exact hrest x hx hxb
  · rintro (hm | ⟨hpt, hedge⟩)
    · obtain ⟨-, rest, hpath, hrest⟩ := (h m).1 hm
      exact ⟨rest, hpath, fun x hx hxb => hrest x hx (hgrow hxb)⟩
    · obtain ⟨-, rest, hpath, hrest⟩ := (h p.negate).1 hpt
      rw [Literal.negate_negate] at hpath
      exact ⟨p :: rest, .step hedge hpath, List.forall_mem_cons.2
        ⟨ht.not_mem_before hp (Nat.le_refl _), fun x hx hxb => hrest x hx (hgrow hxb)⟩⟩

theorem Frontier.mem_before (h : c.Frontier conflict (index + 1) top) (hp : c.trail.literals[index]? = some p)
    (hm : m ∈ top) (hne : m ≠ p.negate) : m.negate ∈ c.trail.before index := by
  refine (Trail.eq_or_mem_before hp ((h m).1 hm).1).resolve_left fun he => hne ?_
  rw [← he, Literal.negate_negate]

/-- A literal that is not left is passed by. -/
theorem Frontier.pass (h : c.Frontier conflict (index + 1) top) (ht : Trailed f c)
    (hp : c.trail.literals[index]? = some p) (hn : p.negate ∉ top) : c.Frontier conflict index top := fun m => by
  refine ⟨fun hm => ?_, fun ⟨hm, hpath⟩ => ?_⟩
  · have hbefore := h.mem_before hp hm fun he => hn (he ▸ hm)
    exact ⟨hbefore, (h.exists_path_iff ht hp hbefore).2 (.inl hm)⟩
  · exact ((h.exists_path_iff ht hp hm).1 hpath).resolve_right fun he => hn he.1

/-- What a literal goes back to takes its place. -/
theorem Frontier.resolve {left more : Clause} (h : c.Frontier conflict (index + 1) top) (ht : Trailed f c)
    (hp : c.trail.literals[index]? = some p) (hperm : top.Perm (p.negate :: left)) (hn : p.negate ∉ left)
    (hmore : ∀ m, m ∈ more ↔ m ∈ left ∨ c.Antecedent p.atom m ∧ c.atoms.levelOrZero m.atom = c.trail.level) :
    c.Frontier conflict index more := by
  have hpt : p.negate ∈ top := hperm.mem_iff.2 List.mem_cons_self
  obtain ⟨-, _, hpath, -⟩ := (h p.negate).1 hpt
  have hptop : c.Topmost p := hpath.topmost p (by simp)
  have hleft : ∀ m, m ∈ left ↔ m ∈ top ∧ m ≠ p.negate := fun m => by
    rw [hperm.mem_iff, List.mem_cons]
    exact ⟨fun hm => ⟨.inr hm, fun he => hn (he ▸ hm)⟩, fun ⟨hm, hne⟩ => hm.resolve_left hne⟩
  intro m
  rw [hmore, hleft]
  constructor
  · rintro (⟨hm, hne⟩ | ⟨hm, hlevel⟩)
    · have hbefore := h.mem_before hp hm hne
      exact ⟨hbefore, (h.exists_path_iff ht hp hbefore).2 (.inl hm)⟩
    · have hbefore := ht.antecedent_before hp hm
      have hedge : c.Implies m.negate p :=
        ⟨⟨Trail.before_sublist hbefore, by rwa [Literal.atom_negate]⟩, hptop, m, hm, (Literal.atom_negate m).symm⟩
      exact ⟨hbefore, (h.exists_path_iff ht hp hbefore).2 (.inr ⟨hpt, hedge⟩)⟩
  · rintro ⟨hbefore, hpath⟩
    rcases (h.exists_path_iff ht hp hbefore).1 hpath with hm | ⟨-, hedge⟩
    · refine .inl ⟨hm, fun he => ht.not_mem_before hp (Nat.le_refl _) ?_⟩
      rwa [he, Literal.negate_negate] at hbefore
    · exact .inr ⟨Literal.negate_negate m ▸ hedge.antecedent ht, Literal.atom_negate m ▸ hedge.source.2⟩

/-- **What stands at an index is avoided through any other literal that is left.** -/
theorem Frontier.not_unavoidable (h : c.Frontier conflict (index + 1) top) (ht : Trailed f c)
    (ha : c.Anchored c.trail.root) (hlt : c.trail.root < c.trail.level) (hq : c.trail.literals[index]? = some q)
    (hm : m ∈ top) (hne : m ≠ q.negate) : ¬c.Unavoidable conflict q := by
  have hbefore := h.mem_before hq hm hne
  obtain ⟨-, rest, hpath, hrest⟩ := (h m).1 hm
  obtain ⟨i, hi, him⟩ := Trail.mem_before.1 hbefore
  obtain ⟨first, tail, hfirst, -, hwhole, pre, he, hpre⟩ := hpath.exists_opening ht ha hlt him
  intro hall
  have hmem := hall first tail hfirst hwhole
  rw [he, List.mem_append, List.mem_cons] at hmem
  rcases hmem with hmem | rfl | hmem
  · exact ht.not_mem_before hq (Nat.le_of_lt hi) (hpre q hmem)
  · exact ht.not_mem_before hq (Nat.le_refl _) hbefore
  · exact hrest q hmem (Trail.mem_before.2 ⟨index, Nat.lt_succ_self index, hq⟩)

/-- **A literal that is left alone is passed by every path** from the decision of the level. -/
theorem Frontier.unavoidable (h : c.Frontier conflict (index + 1) [p.negate]) (ht : Trailed f c)
    (ha : c.Anchored c.trail.root) (hlt : c.trail.root < c.trail.level) (hp : c.trail.literals[index]? = some p) :
    (∃ first rest, c.opening? = some first ∧ c.atoms.reason first.atom = none ∧ c.Path conflict (first :: rest)) ∧
      c.Unavoidable conflict p := by
  obtain ⟨hbefore, rest, hpath, -⟩ := (h p.negate).1 List.mem_cons_self
  rw [Literal.negate_negate] at hbefore hpath
  obtain ⟨first, tail, hfirst, hnone, hwhole, pre, he, hpre⟩ := hpath.exists_opening ht ha hlt hp
  have hopening : first ∈ c.trail.before (index + 1) := by
    cases pre with
    | nil => exact (List.cons.inj he).1 ▸ hbefore
    | cons x pre => exact Trail.before_subset (Nat.le_succ index) ((List.cons.inj he).1 ▸ hpre x List.mem_cons_self)
  refine ⟨⟨first, tail, hfirst, hnone, hwhole⟩, fun first' rest hf hany => ?_⟩
  rw [hfirst, Option.some.injEq] at hf
  subst hf
  -- where the path leaves what is before the index for good, it is at a literal that is left
  obtain ⟨y, hy, hyb, left, hleaving, hleft⟩ := hany.exists_leaving ⟨first, List.mem_cons_self, hopening⟩
  have hmem : y.negate ∈ [p.negate] := (h y.negate).2 (by
    rw [Literal.negate_negate]
    exact ⟨hyb, left, hleaving, hleft⟩)
  have hyp : y = p := by rw [← Literal.negate_negate y, List.mem_singleton.1 hmem, Literal.negate_negate]
  exact hyp ▸ hy

theorem Retraced.ne_nil (h : Retraced c index top p) : top ≠ [] := by
  induction h with
  | last hp => exact List.cons_ne_nil _ _
  | pass hp hn h ih => exact ih
  | resolve hp hperm hn hne hmore h ih => exact fun hnil => List.cons_ne_nil _ _ (List.nil_perm.1 (hnil ▸ hperm))

/-- **The walk back ends at the first unique implication point.** -/
theorem Retraced.firstPoint (h : Retraced c index top p) (hf : c.Frontier conflict index top) (ht : Trailed f c)
    (ha : c.Anchored c.trail.root) (hlt : c.trail.root < c.trail.level) :
    ∃ i < index, c.trail.literals[i]? = some p ∧ c.Frontier conflict (i + 1) [p.negate] ∧
      ∀ (j : Nat) (q : Literal), i < j → j < index → c.trail.literals[j]? = some q → ¬c.Unavoidable conflict q := by
  have hstep : ∀ {index i : Nat} {p : Literal}, c.trail.literals[index]? = some p → ¬c.Unavoidable conflict p →
      (∀ (j : Nat) (q : Literal), i < j → j < index → c.trail.literals[j]? = some q → ¬c.Unavoidable conflict q) →
      ∀ (j : Nat) (q : Literal), i < j → j < index + 1 → c.trail.literals[j]? = some q → ¬c.Unavoidable conflict q := by
    intro index i p hp havoided hlater j q hij hj hq
    rcases Nat.lt_succ_iff_lt_or_eq.1 hj with hj | rfl
    · exact hlater j q hij hj hq
    · rw [hp, Option.some.injEq] at hq
      exact hq ▸ havoided
  induction h with
  | @last index p hp => exact ⟨index, Nat.lt_succ_self index, hp, hf, fun j q hij hj => by omega⟩
  | @pass index top p q hp hn h ih =>
    obtain ⟨i, hi, hq, hfi, hlater⟩ := ih (hf.pass ht hp hn)
    obtain ⟨m, hm⟩ := List.exists_mem_of_ne_nil _ h.ne_nil
    exact ⟨i, Nat.lt_succ_of_lt hi, hq, hfi,
      hstep hp (hf.not_unavoidable ht ha hlt hp hm fun he => hn (he ▸ hm)) hlater⟩
  | @resolve index top left more p q hp hperm hn hne hmore h ih =>
    obtain ⟨i, hi, hq, hfi, hlater⟩ := ih (hf.resolve ht hp hperm hn hmore)
    obtain ⟨m, hm⟩ := List.exists_mem_of_ne_nil _ hne
    exact ⟨i, Nat.lt_succ_of_lt hi, hq, hfi, hstep hp (hf.not_unavoidable ht ha hlt hp
      (hperm.mem_iff.2 (List.mem_cons_of_mem _ hm)) fun he => hn (he ▸ hm)) hlater⟩

end Context

namespace Session

open Run Context Solver

variable {s : Session} {k : Call} {conflict : Conflict} {d : Context}

/-- **An analysis stops at the first unique implication point.**  Wherever a conflict above the root level is analysed, the
first literal of the learnt clause is the negation of one that every path from the decision of the level to the conflict
passes, and there is such a path.  No literal later on the trail is passed by every one. -/
theorem analyzeConflict_firstPoint (h : s.Followed) (hst : s.steps k s.context (.analyze conflict) d)
    (hroot : d.trail.root < d.trail.level) :
    ∃ learnt e p rest, analyzeConflict conflict d = .ok learnt e ∧ learnt.clause = p.negate :: rest ∧
      (∃ first path, d.opening? = some first ∧ d.atoms.reason first.atom = none ∧ d.Path conflict (first :: path)) ∧
      d.Unavoidable conflict p ∧
      ∃ i : Nat, d.trail.literals[i]? = some p ∧
        ∀ (j : Nat) (q : Literal), i < j → d.trail.literals[j]? = some q → ¬d.Unavoidable conflict q := by
  obtain ⟨f, ⟨⟨⟨settled, hd⟩, -, hr, hhere, hpos⟩, hprobed⟩, -⟩ := h.held.prepared gapless_zero hst
  have hanchored := (hprobed conflict rfl).anchored
  obtain ⟨learnt, e, he, -, first, lower, rest, g, hlearnt, htaught⟩ :=
    answers_analyzeConflict_taught hd.toBase hd.marks hr hhere hpos
  obtain ⟨top, hretraced, htop⟩ := htaught.retraced
  obtain ⟨i, hi, hp, hfrontier, hlater⟩ :=
    hretraced.firstPoint (frontier_start hr.negate_mem htop) hd.trailed hanchored hroot
  obtain ⟨hdecision, hall⟩ := hfrontier.unavoidable hd.trailed hanchored hroot hp
  refine ⟨learnt, e, first.negate, rest, he, by rw [Literal.negate_negate, hlearnt.clause], hdecision, hall, i, hp,
    fun j q hij hq => hlater j q hij ?_ hq⟩
  exact (Array.getElem?_eq_some_iff.1 hq).1

/-- Followed from the start, that conflict is analysed above the root level. -/
theorem exists_analysis_or : ∃ (s : Session) (conflict : Conflict) (d : Context), s.Followed ∧
    s.formula = [[x₀, x₁], [x₀, x₁.negate]] ∧ s.steps (.decide x₀.negate) s.context (.analyze conflict) d ∧
    d.trail.root = 0 ∧ 0 < d.trail.level := by
  obtain ⟨s, conflict, e, hs, hf, hst⟩ := exists_analyze_or
  have hfollowed := Followed.run _ (.start {} .default) hs
  obtain ⟨_, hready, -⟩ := hfollowed.held.ready (k := .decide x₀.negate) hst
  exact ⟨s, conflict, e, hfollowed, hf, hst, root_of_steps (k := .decide x₀.negate) hfollowed id hst, hready.asks.2.2⟩

/-- With two clauses that leave the first atom one value only, and the other value decided. -/
theorem analyzeConflict_firstPoint_or : ∃ (s : Session) (conflict : Conflict) (d : Context), s.Followed ∧
    s.formula = [[x₀, x₁], [x₀, x₁.negate]] ∧ s.steps (.decide x₀.negate) s.context (.analyze conflict) d ∧
    d.trail.root < d.trail.level ∧
    ∃ learnt e p rest, analyzeConflict conflict d = .ok learnt e ∧ learnt.clause = p.negate :: rest ∧
      (∃ first path, d.opening? = some first ∧ d.atoms.reason first.atom = none ∧ d.Path conflict (first :: path)) ∧
      d.Unavoidable conflict p ∧
      ∃ i : Nat, d.trail.literals[i]? = some p ∧
        ∀ (j : Nat) (q : Literal), i < j → d.trail.literals[j]? = some q → ¬d.Unavoidable conflict q := by
  obtain ⟨s, conflict, d, hs, hf, hst, hz, hpos⟩ := exists_analysis_or
  have hroot : d.trail.root < d.trail.level := hz ▸ hpos
  exact ⟨s, conflict, d, hs, hf, hst, hroot, analyzeConflict_firstPoint (k := .decide x₀.negate) hs hst hroot⟩

end Session
end Cdcl
