import Cdcl.Proofs.Steps
import Cdcl.UnitClosure
/-!
# Closure — a decision brings to the trail what the unit rule derives

The trail after a decision was propagated has nothing but what the unit rule derives from the trail before and the literal
decided: the reason of a literal is a live clause, and the rest of it is false by what stands before (`Trailed.derived`).
If there was no conflict, every live clause is true or has two literals without a value (`Sound.slack`), so the trail is
closed under the rule.  A conflict names a live clause that what is derived makes false (`answers_decide_spread`).

Propagation moves literals within clauses, so live clauses are compared up to the order of their literals.
-/
namespace Cdcl
namespace Context

/-- A clause is live, but for the order of its literals. -/
def LivePerm (c : Context) (clause : Clause) : Prop := ∃ ls, c.Live ls ∧ ls.Perm clause

/-- What the unit rule derives from the trail and a literal, by the live clauses. -/
def Derives (c : Context) (l : Literal) : Literal → Prop :=
  UnitClosure c.Live fun m => m ∈ c.trail.literals.toList ∨ m = l

/-- No literal is among some beside its negation, and no live clause is false by them. -/
structure Allows (c : Context) (among : Literal → Prop) : Prop where
  apart : ∀ m, among m → ¬among m.negate
  clauses : ∀ clause, c.Live clause → ∃ m ∈ clause, ¬among m.negate

/-- A clause is true, or has two literals without a value. -/
def Slack (c : Context) (clause : Clause) : Prop :=
  (∃ m ∈ clause, c.atoms.isTrue m = true) ∨
    ∃ a ∈ clause, ∃ b ∈ clause, a ≠ b ∧ c.atoms.value a.atom = none ∧ c.atoms.value b.atom = none

variable {f : Formula} {settled : Nat → Prop} {c d e : Context} {clause : Clause} {l m : Literal}

/-! ## Up to the order of literals -/

theorem Reordered.livePerm (h : Reordered c d) (hl : c.LivePerm clause) : d.LivePerm clause := by
  obtain ⟨ls, hl, hp⟩ := hl
  rcases live_iff.1 hl with ⟨a, b, rfl, hb⟩ | ⟨key, hk⟩
  · exact ⟨[a, b], live_iff.2 (.inl ⟨a, b, rfl, h.binary a ▸ hb⟩), hp⟩
  · have hlong := h.long key
    rw [hk, Option.map_some, Option.map_eq_some_iff] at hlong
    obtain ⟨other, hk, he⟩ := hlong
    exact ⟨other, live_iff.2 (.inr ⟨key, hk⟩), (Multiset.coe_eq_coe.1 he).trans hp⟩

theorem Reordered.livePerm_iff (h : Reordered c d) : d.LivePerm clause ↔ c.LivePerm clause :=
  ⟨h.symm.livePerm, h.livePerm⟩

/-- **What is derived depends on the order of nothing.** -/
theorem Derives.congr (h : c.Derives l m) (hc : ∀ clause, c.LivePerm clause → d.LivePerm clause)
    (ht : ∀ n, n ∈ c.trail.literals.toList → n ∈ d.trail.literals.toList) : d.Derives l m :=
  (h.perm fun clause hl => hc clause ⟨clause, hl, .refl _⟩).mono (fun _ => id) fun n => Or.imp_left (ht n)

theorem Allows.congr {among among' : Literal → Prop} (h : c.Allows among)
    (hc : ∀ clause, d.LivePerm clause → c.LivePerm clause) (ha : ∀ m, among' m ↔ among m) : d.Allows among' where
  apart m hm := by
    rw [ha] at hm ⊢
    exact h.apart m hm
  clauses clause hl := by
    obtain ⟨ls, hls, hp⟩ := hc clause ⟨clause, hl, .refl _⟩
    obtain ⟨m, hm, hne⟩ := h.clauses ls hls
    exact ⟨m, hp.mem_iff.1 hm, fun he => hne ((ha _).1 he)⟩

section

variable (ht : ∀ m, m ∈ d.trail.literals.toList ↔ m ∈ c.trail.literals.toList)
  (hc : ∀ clause, d.LivePerm clause ↔ c.LivePerm clause)

include ht hc in
/-- **What is derived is told by the literals of the trail and by the live clauses**, whatever their order. -/
theorem derives_iff : d.Derives l m ↔ c.Derives l m :=
  ⟨fun hm => hm.congr (fun clause => (hc clause).1) fun n => (ht n).1,
    fun hm => hm.congr (fun clause => (hc clause).2) fun n => (ht n).2⟩

include ht hc in
theorem allows_derives_iff : d.Allows (d.Derives l) ↔ c.Allows (c.Derives l) :=
  ⟨fun ha => ha.congr (fun clause => (hc clause).2) fun _ => (derives_iff ht hc).symm,
    fun ha => ha.congr (fun clause => (hc clause).1) fun _ => derives_iff ht hc⟩

end

/-! ## A trail that is settled -/

/-- **Two literals of a live clause are partners of each other.** -/
theorem Shaped.exists_partners (h : Shaped c) (hl : c.Live clause) :
    ∃ a ∈ clause, ∃ b ∈ clause, a ≠ b ∧ c.Partners a b ∧ c.Partners b a := by
  rcases live_iff.1 hl with ⟨a, b, rfl, hb⟩ | ⟨key, hk⟩
  · have hne : a ≠ b := fun he => (h.binary a b hb).1 (he ▸ rfl)
    have ha : a ∈ (c.watches.binaryOf b).toList := by
      rw [← List.count_pos_iff, ← h.symmetric, List.count_pos_iff]
      exact hb
    exact ⟨a, by simp, b, by simp, hne, .binary hb, .binary ha⟩
  · obtain ⟨a, b, rest, rfl⟩ := h.exists_watched hk
    have hnodup := (h.long key _ hk).2.1
    have hne : a ≠ b := fun he => by simp [he] at hnodup
    exact ⟨a, by simp, b, by simp, hne, .first hk, .second hk⟩

/-- Where everything is settled, a watch is true, or both are without a value. -/
theorem Sound.slack (h : Sound f settled c) (hc : c.Current c.trail.size) (hl : c.Live clause) : c.Slack clause := by
  have hbefore : c.trail.before c.trail.size = c.trail.literals.toList := Trail.before_of_size_le (Nat.le_refl _)
  obtain ⟨a, ha, b, hb, hne, hab, hba⟩ := h.shaped.exists_partners hl
  by_cases hta : a ∈ c.trail.literals.toList
  · exact .inl ⟨a, ha, h.trailed.isTrue_iff_mem.2 hta⟩
  by_cases htb : b ∈ c.trail.literals.toList
  · exact .inl ⟨b, hb, h.trailed.isTrue_iff_mem.2 htb⟩
  refine .inr ⟨a, ha, b, hb, hne, h.trailed.value_eq_none hta fun hn => htb ?_,
    h.trailed.value_eq_none htb fun hn => hta ?_⟩
  · exact hc a b hab (hbefore ▸ hn)
  · exact hc b a hba (hbefore ▸ hn)

/-- **A settled trail allows what it has**, and is closed under the unit rule. -/
theorem Trailed.allows (h : Trailed f c) (hu : ∀ clause, c.Live clause → c.Slack clause) :
    c.Allows (· ∈ c.trail.literals.toList) where
  apart _ := h.not_mem_negate
  clauses clause hl := by
    rcases hu clause hl with ⟨m, hm, ht⟩ | ⟨a, ha, -, -, -, hv, -⟩
    · exact ⟨m, hm, h.not_mem_negate (h.isTrue_iff_mem.1 ht)⟩
    · exact ⟨a, ha, (h.not_mem_of_value_none hv).2⟩

theorem Trailed.mem_of_unit (h : Trailed f c) (hu : c.Slack clause)
    (hothers : ∀ m ∈ clause, m ≠ l → m.negate ∈ c.trail.literals.toList) : l ∈ c.trail.literals.toList := by
  have hfree : ∀ m ∈ clause, c.atoms.value m.atom = none → m = l := fun m hm hv =>
    Classical.byContradiction fun hne => (h.not_mem_of_value_none hv).2 (hothers m hm hne)
  rcases hu with ⟨m, hm, ht⟩ | ⟨a, ha, b, hb, hne, hav, hbv⟩
  · have hmem := h.isTrue_iff_mem.1 ht
    by_cases he : m = l
    · exact he ▸ hmem
    · exact absurd (hothers m hm he) (h.not_mem_negate hmem)
  · exact absurd ((hfree a ha hav).trans (hfree b hb hbv).symm) hne

/-! ## What has come to the trail -/

/-- **What has come to the trail with reasons is derived by the live clauses** from what was there. -/
theorem Trailed.derived (h : Trailed f d) (hr : Reasoned c d) (hm : m ∈ d.trail.literals.toList) :
    UnitClosure d.Live (· ∈ c.trail.literals.toList) m := by
  obtain ⟨i, hi⟩ := Trail.mem_literals.1 hm
  clear hm
  -- by the place on the trail: what a reason makes false stands before
  induction i using Nat.strongRecOn generalizing m with
  | _ i ih =>
    have hbefore : ∀ n ∈ d.trail.before i, UnitClosure d.Live (· ∈ c.trail.literals.toList) n := fun n hn =>
      have ⟨j, hj, hn⟩ := Trail.mem_before.1 hn
      ih j hj hn
    rcases hr m (Trail.mem_of_getElem? hi) with hc | ⟨r, hreason, hbinary⟩
    · exact .given hc
    have hcause := h.caused i m hi
    rw [hreason] at hcause
    cases r with
    | binary other =>
      refine .unit (live_iff.2 (.inl ⟨other, m, rfl, hbinary other rfl⟩)) (by simp) fun n hn hne => ?_
      rw [List.mem_cons, List.mem_singleton] at hn
      rw [hn.resolve_right hne]
      exact hbefore _ hcause.2.1
    | long key =>
      obtain ⟨-, rest, hk, hrest⟩ := hcause
      refine .unit (live_iff.2 (.inr ⟨key, hk⟩)) List.mem_cons_self fun n hn hne => ?_
      exact hbefore _ (hrest n ((List.mem_cons.1 hn).resolve_left hne))

/-! ## After a decision -/

/-- **What is newly implied is what has come to the trail after the decision.** -/
theorem Opened.mem_newlyImplied (ho : Opened c l d) (he : Extends d e) (ht : Trailed f e) :
    m ∈ e.newlyImplied ↔ m ∈ e.trail.literals.toList ∧ m ∉ c.trail.literals.toList ∧ m ≠ l := by
  obtain ⟨rest, hrest⟩ := he.literals
  have hlevel : e.trail.level = c.trail.level + 1 := he.trail_level.trans ho.level
  have hstart : e.trail.start (c.trail.level + 1) = c.trail.size := by
    rw [Trail.start_succ, he.starts, ho.starts, Array.toList_push]
    simp [Trail.level]
  have hsize : c.trail.size + 1 = (c.trail.literals.toList ++ [l]).length := by
    rw [List.length_append, Array.length_toList, List.length_singleton, Trail.size]
  have hnew : e.newlyImplied = rest := by
    unfold newlyImplied
    rw [hlevel, if_neg (Nat.succ_ne_zero _), hstart, ← hrest, ho.literals, hsize, List.drop_left]
  have hnodup := ht.nodup
  rw [← hrest, ho.literals, List.nodup_append] at hnodup
  rw [hnew, ← hrest, ho.literals]
  simp only [List.mem_append, List.mem_singleton]
  constructor
  · intro hm
    have hne : ∀ n ∈ c.trail.literals.toList ++ [l], m ≠ n := fun n hn he => hnodup.2.2 n hn m hm he.symm
    exact ⟨.inr hm, fun hmem => hne m (List.mem_append_left _ hmem) rfl, hne l (by simp)⟩
  · rintro ⟨(hm | hm) | hm, hc, hl⟩
    · exact absurd hm hc
    · exact absurd hm hl
    · exact hm

/-- **What a decision comes to.**  It succeeds where what is derived is allowed, and then the trail has what is derived
and nothing else.  If not, propagation ends in a conflict, which names a live clause that is false. -/
structure Spread (c : Context) (l : Literal) (success : Bool) (d : Context) : Prop where
  success_iff : success = true ↔ c.Allows (c.Derives l)
  trail : success = true → ∀ m, m ∈ d.trail.literals.toList ↔ c.Derives l m
  newlyImplied : success = true → ∀ m, m ∈ d.newlyImplied ↔ c.Derives l m ∧ m ∉ c.trail.literals.toList ∧ m ≠ l
  slack : success = true → ∀ clause, d.Live clause → d.Slack clause
  conflict : success = false → ∃ e conflict g clause, Solver.decide.steps l c .propagate e ∧
    Solver.propagate e = .ok (.conflict conflict) g ∧ g.Names conflict clause ∧ c.LivePerm clause ∧
    ∀ m ∈ clause, g.atoms.isFalse m = true

/-- **What a decision comes to is told by the literals of the trail and by the live clauses**, whatever their order. -/
theorem Spread.unique {c' d' : Context} {success success' : Bool} (h : c.Spread l success d)
    (h' : c'.Spread l success' d')
    (htrail : ∀ m, m ∈ c'.trail.literals.toList ↔ m ∈ c.trail.literals.toList)
    (hlive : ∀ clause, c'.LivePerm clause ↔ c.LivePerm clause) : success' = success ∧
      (success = true → ∀ m, m ∈ d'.trail.literals.toList ↔ m ∈ d.trail.literals.toList) := by
  have hsame : success' = success :=
    Bool.eq_iff_iff.2 (h'.success_iff.trans ((allows_derives_iff htrail hlive).trans h.success_iff.symm))
  subst hsame
  exact ⟨rfl, fun hs m => by rw [h'.trail hs, derives_iff htrail hlive, h.trail hs]⟩

theorem Alike.newlyImplied (h : Alike c d) : d.newlyImplied = c.newlyImplied := by
  unfold Context.newlyImplied Trail.start
  rw [h.level, h.literals, h.starts]

theorem Slack.alike (h : c.Slack clause) (ha : Alike c d) : d.Slack clause := by
  simp only [Slack, AtomTable.isTrue_iff, ha.value] at h ⊢
  exact h

section

variable {result : Propagated} (hr : Reordered c d) (hl : d.trail.literals.toList = c.trail.literals.toList ++ [l])
  (hp : Propagates f settled d result e)

include hr hp in
theorem Propagates.livePerm_iff : e.LivePerm clause ↔ c.LivePerm clause := (hr.trans hp.reordered).livePerm_iff

include hr hl hp in
theorem Propagates.derives (hm : m ∈ e.trail.literals.toList) : c.Derives l m := by
  have h := hp.sound.trailed.derived hp.reasoned hm
  refine (h.perm fun clause hl => (hp.livePerm_iff hr).1 ⟨clause, hl, .refl _⟩).mono (fun _ => id) fun n hn => ?_
  rwa [hl, List.mem_append, List.mem_singleton] at hn

include hr hl hp in
/-- **Propagation without a conflict brings to the trail all that is derived.** -/
theorem Propagates.mem_iff_derives (hu : ∀ clause, e.Live clause → e.Slack clause) :
    m ∈ e.trail.literals.toList ↔ c.Derives l m := by
  refine ⟨hp.derives hr hl, fun hm => hm.subset_of_closed (fun n hn => hp.extended.mem ?_) fun clause n hlive hn ho => ?_⟩
  · rwa [hl, List.mem_append, List.mem_singleton]
  · obtain ⟨ls, hls, hperm⟩ := (hp.livePerm_iff hr).2 ⟨clause, hlive, .refl _⟩
    exact hp.sound.trailed.mem_of_unit (hu ls hls) fun m hm hne => ho m (hperm.mem_iff.1 hm) hne

include hr hl hp in
theorem Propagates.allows (hu : ∀ clause, e.Live clause → e.Slack clause) : c.Allows (c.Derives l) :=
  (hp.sound.trailed.allows hu).congr (fun _ => (hp.livePerm_iff hr).2) fun _ => (hp.mem_iff_derives hr hl hu).symm

include hr hl hp in
/-- **A conflict names a live clause that is false**, so what is derived is not allowed. -/
theorem Propagates.refutes {conflict : Conflict} (hresult : result = .conflict conflict) :
    ¬c.Allows (c.Derives l) ∧
      ∃ clause, e.Names conflict clause ∧ c.LivePerm clause ∧ ∀ m ∈ clause, e.atoms.isFalse m = true := by
  have hverdict := hp.verdict
  rw [hresult] at hverdict
  obtain ⟨i, m, -, -, hb⟩ := hp.late conflict hresult
  obtain ⟨clause, hn, hfalse⟩ := Refuted.exists_named hverdict hb hp.sound.trailed
  have hlive : c.LivePerm clause := (hp.livePerm_iff hr).1 ⟨clause, hn.live, .refl _⟩
  refine ⟨fun hallows => ?_, clause, hn, hlive, hfalse⟩
  obtain ⟨ls, hls, hperm⟩ := hlive
  obtain ⟨m, hm, hne⟩ := hallows.clauses ls hls
  exact hne (hp.derives hr hl (hp.sound.trailed.isFalse_iff_mem.1 (hfalse m (hperm.mem_iff.1 hm))))

end

end Context

namespace Solver

open Run Context

variable {f : Formula} {c d : Context} {l : Literal}

theorem propagate_decide (hs : c.state ≠ .unsatisfiable) (hl : l.atom < c.atoms.count)
    (hv : c.atoms.value l.atom = none)
    (hd : (do
      modify ({ · with pending := none })
      decideLiteral l : Solver Unit) c = .ok () d) : decide.steps l c .propagate d := by
  have hr := Array.getElem?_eq_getElem hl
  obtain ⟨r, _, hrecord, hnone, rfl⟩ : Answers (record l.atom) c fun r d => r.value = none ∧ d = c :=
    answers_record.2 ⟨_, hr, (AtomTable.value_of_record hr).symm.trans hv, rfl⟩
  unfold decide.steps
  rw [if_neg hs]
  refine ⟨r, _, hrecord, ?_⟩
  dsimp only
  rw [if_neg (by simp [hnone])]
  exact ⟨(), d, hd, .inl ⟨rfl, rfl⟩⟩

/-- **A decision spreads by the unit rule**, where everything was propagated. -/
theorem answers_decide_spread (h : Quiet f (fun _ => True) c) (hs : c.state ≠ .unsatisfiable)
    (hl : l.atom < c.atoms.count) (hv : c.atoms.value l.atom = none) : Answers (decide l) c (c.Spread l) := by
  refine (answers_decide h ⟨trivial, fun _ _ => trivial⟩ hs hl hv).mono fun success d hd => ?_
  obtain ⟨e, hrun, ho, hresumed⟩ := hd
  obtain ⟨result, g, hran, hg, ha, -, hsuccess⟩ := hresumed.replied
  have hr : Reordered c e := .of_eq (fun a => congrArg (·.binaryOf a) ho.watches) ho.clauses
  have ht := hg.sound.trailed
  cases result with
  | corrupt => exact hg.verdict.elim
  | complete =>
    have hu : ∀ clause, g.Live clause → g.Slack clause := fun _ => hg.sound.slack (hg.verdict trivial)
    have hiff : ∀ m, m ∈ g.trail.literals.toList ↔ c.Derives l m := fun m => hg.mem_iff_derives hr ho.literals hu
    obtain rfl : success = true := hsuccess.2 rfl
    refine ⟨⟨fun _ => hg.allows hr ho.literals hu, fun _ => rfl⟩, fun _ m => ?_, fun _ m => ?_, fun _ clause hlive => ?_,
      nofun⟩
    · rw [ha.literals, hiff]
    · rw [ha.newlyImplied, ho.mem_newlyImplied hg.extended ht, hiff]
    · exact (hu clause (ha.live_iff.1 hlive)).alike ha
  | conflict conflict =>
    obtain ⟨hnot, clause, hn, hlive, hfalse⟩ := hg.refutes hr ho.literals rfl
    obtain rfl : success = false := Bool.eq_false_iff.2 fun he => by cases hsuccess.1 he
    refine ⟨⟨nofun, fun hallows => absurd hallows hnot⟩, nofun, nofun, nofun, fun _ => ?_⟩
    exact ⟨e, conflict, g, clause, propagate_decide hs hl hv hrun, hran, hn, hlive, hfalse⟩

end Solver
end Cdcl
