import Mathlib
import Cdcl.Proofs.Search
/-!
# Ascent — every step of a search makes a level fuller

The digit of a level tells how many literals there are up to it, and is zero above the current level (`Trail.digit`).  A step
that does not end a search raises one digit and leaves those of the levels below (`Trail.Climbs`): a decision raises the digit
of the level it opens, and a conflict that of the level gone back to, whether a clause asserts there or the root level cuts the
way short.  What propagation adds raises the digit of the current level.

With the digits of lower levels before those of higher ones, they make a number that grows with every step.  Above the root
level every level has a literal, so there are no more levels than atoms, and the number has a bound (`Context.ascent_lt_summit`).
Clauses do not come into it: any of them may be given up on the way.
-/
namespace Cdcl
namespace Trail

/-- How full the levels up to one are; zero above the current level. -/
def digit (t : Trail) (k : Nat) : Nat := if k ≤ t.level then t.start (k + 1) + 1 else 0

/-- The number that the first so many digits make, the first of them the greatest in weight. -/
def weigh (base : Nat) (digit : Nat → Nat) : Nat → Nat
  | 0 => 0
  | n + 1 => weigh base digit n * base + digit n

/-- Every level above the root level has a literal. -/
def Steep (root : Nat) (t : Trail) : Prop := ∀ k ≤ t.level, k ≤ root + t.start (k + 1)

/-- The digit of one level is raised, and those of the levels below are left. -/
structure Climbs (root : Nat) (t u : Trail) : Prop where
  raised : ∃ k, (∀ j < k, u.digit j = t.digit j) ∧ t.digit k < u.digit k
  steep : t.Steep root → u.Steep root

/-! ## Numbers by digits -/

variable {base n k : Nat} {low high : Nat → Nat}

theorem weigh_lt_pow (h : ∀ j, low j < base) : ∀ n, weigh base low n < base ^ n
  | 0 => Nat.one_pos
  | n + 1 => by
    calc weigh base low n * base + low n
      _ < weigh base low n * base + base := Nat.add_lt_add_left (h n) _
      _ = (weigh base low n + 1) * base := (Nat.succ_mul ..).symm
      _ ≤ base ^ n * base := Nat.mul_le_mul_right _ (weigh_lt_pow h n)
      _ = base ^ (n + 1) := (Nat.pow_succ ..).symm

theorem weigh_mono (h : ∀ j, low j ≤ high j) : ∀ n, weigh base low n ≤ weigh base high n
  | 0 => Nat.le_refl 0
  | n + 1 => Nat.add_le_add (Nat.mul_le_mul_right _ (weigh_mono h n)) (h n)

theorem weigh_congr : ∀ n, (∀ j < n, high j = low j) → weigh base high n = weigh base low n
  | 0, _ => rfl
  | n + 1, h => by
    rw [weigh, weigh, weigh_congr n fun j hj => h j (Nat.lt_succ_of_lt hj), h n (Nat.lt_succ_self n)]

/-- **The first digit that differs decides.** -/
theorem weigh_lt_weigh (hsame : ∀ j < k, high j = low j) (hk : low k < high k) (hlow : ∀ j, low j < base) :
    ∀ n, k < n → weigh base low n < weigh base high n
  | n + 1, hn => by
    rcases Nat.lt_succ_iff_lt_or_eq.1 hn with hlt | rfl
    · calc weigh base low n * base + low n
        _ < weigh base low n * base + base := Nat.add_lt_add_left (hlow n) _
        _ = (weigh base low n + 1) * base := (Nat.succ_mul ..).symm
        _ ≤ weigh base high n * base := Nat.mul_le_mul_right _ (weigh_lt_weigh hsame hk hlow n hlt)
        _ ≤ weigh base high n * base + high n := Nat.le_add_right ..
    · rw [weigh, weigh, weigh_congr k hsame]
      exact Nat.add_lt_add_left hk _

/-! ## Digits after each change -/

variable {t u : Trail} {root target : Nat} {l : Literal}

theorem digit_of_le (h : k ≤ t.level) : t.digit k = t.start (k + 1) + 1 := if_pos h

theorem digit_of_lt (h : t.level < k) : t.digit k = 0 := if_neg (Nat.not_le_of_lt h)

theorem start_of_starts_eq (hs : u.starts = t.starts) (hsize : t.size ≤ u.size) (k : Nat) :
    t.start (k + 1) ≤ u.start (k + 1) := by
  rw [start_succ, start_succ, hs]
  cases t.starts.toList[k]? with
  | none => exact hsize
  | some s => exact Nat.le_refl s

theorem digit_mono (hs : u.starts = t.starts) (hsize : t.size ≤ u.size) (k : Nat) : t.digit k ≤ u.digit k := by
  have hlevel : u.level = t.level := congrArg Array.size hs
  unfold digit
  rw [hlevel]
  split
  · exact Nat.succ_le_succ (start_of_starts_eq hs hsize k)
  · exact Nat.le_refl 0

theorem Steep.of_starts_eq (h : t.Steep root) (hs : u.starts = t.starts) (hsize : t.size ≤ u.size) : u.Steep root :=
  fun k hk => Nat.le_trans (h k (Nat.le_trans hk (Nat.le_of_eq (congrArg Array.size hs))))
    (Nat.add_le_add_left (start_of_starts_eq hs hsize k) _)

/-- The trail before may be another one with the same levels. -/
theorem Climbs.of_same {s : Trail} (h : Climbs root t u) (hs : t.starts = s.starts) (hl : t.literals = s.literals) :
    Climbs root s u := by
  have hsize : t.size = s.size := congrArg Array.size hl
  have hdigit : ∀ k, t.digit k = s.digit k := fun k =>
    Nat.le_antisymm (digit_mono hs.symm (Nat.le_of_eq hsize) k) (digit_mono hs (Nat.le_of_eq hsize.symm) k)
  obtain ⟨k, hsame, hk⟩ := h.raised
  exact ⟨⟨k, fun j hj => (hsame j hj).trans (hdigit j), hdigit k ▸ hk⟩,
    fun hsteep => h.steep (hsteep.of_starts_eq hs (Nat.le_of_eq hsize.symm))⟩

theorem start_succ_newLevel (h : k ≤ t.level) : t.newLevel.start (k + 1) = t.start (k + 1) := by
  rcases Nat.eq_or_lt_of_le h with rfl | hlt
  · rw [start_of_level_lt (Nat.lt_succ_self _), ← t.start_newLevel, level_newLevel]
  · exact start_newLevel_of_le hlt

/-- **A literal on a level of its own raises the digit of that level.** -/
theorem climbs_decided (t : Trail) (l : Literal) : Climbs root t (t.newLevel.push l) := by
  have hlevel : (t.newLevel.push l).level = t.level + 1 := by rw [level_push, level_newLevel]
  have hstart : ∀ k ≤ t.level, (t.newLevel.push l).start (k + 1) = t.start (k + 1) := fun k hk => by
    rw [start_push_of_le (by rw [level_newLevel]; omega), start_succ_newLevel hk]
  refine ⟨⟨t.level + 1, fun j hj => ?_, ?_⟩, fun hsteep k hk => ?_⟩
  · rw [digit_of_le (by omega), digit_of_le (by omega), hstart j (by omega)]
  · rw [digit_of_lt (Nat.lt_succ_self _), digit_of_le (Nat.le_of_eq hlevel.symm)]
    exact Nat.succ_pos _
  · rw [hlevel] at hk
    rcases Nat.le_succ_iff.1 hk with hk | rfl
    · rw [hstart k hk]
      exact hsteep k hk
    · have hfull := hsteep t.level (Nat.le_refl _)
      rw [start_of_level_lt (Nat.lt_succ_self _)] at hfull
      rw [start_of_level_lt (by omega), size_push]
      show _ ≤ root + (t.size + 1)
      omega

/-- **A literal pushed where levels were cut off raises the digit of the level gone back to.** -/
theorem Layered.climbs_cut (h : t.Layered) (hlt : target < t.level) (l : Literal) :
    Climbs root t ((t.cut target).push l) := by
  have hlevel : ((t.cut target).push l).level = target := by rw [level_push, level_cut, Nat.min_eq_left (Nat.le_of_lt hlt)]
  have hstart : ∀ k < target, ((t.cut target).push l).start (k + 1) = t.start (k + 1) := fun k hk => by
    rw [start_push_of_le (by rw [← level_push _ l, hlevel]; omega), h.start_cut_of_le (Nat.le_of_lt hk)]
  have htop : ((t.cut target).push l).start (target + 1) = t.start (target + 1) + 1 := by
    rw [start_of_level_lt (by omega), size_push, h.size_cut]
  refine ⟨⟨target, fun j hj => ?_, ?_⟩, fun hsteep k hk => ?_⟩
  · rw [digit_of_le (by omega), digit_of_le (by omega), hstart j hj]
  · rw [digit_of_le (Nat.le_of_lt hlt), digit_of_le (Nat.le_of_eq hlevel.symm), htop]
    exact Nat.lt_succ_self _
  · rw [hlevel] at hk
    rcases Nat.lt_or_eq_of_le hk with hk | rfl
    · rw [hstart k hk]
      exact hsteep k (by omega)
    · rw [htop]
      have := hsteep k (Nat.le_of_lt hlt)
      omega

end Trail

namespace Context

open Trail

variable {f : Formula} {c d : Context} {root : Nat}

/-- The number that the digits make. -/
def ascent (root : Nat) (c : Context) : Nat := weigh (c.atoms.count + 2) c.trail.digit (root + c.atoms.count + 1)

/-- What that number stays below, with so many atoms. -/
def summit (root atoms : Nat) : Nat := (atoms + 2) ^ (root + atoms + 1)

theorem Trailed.digit_lt (h : Trailed f c) (k : Nat) : c.trail.digit k < c.atoms.count + 2 := by
  have := h.size_le
  have := h.layered.start_le_size (k + 1)
  unfold Trail.digit
  split <;> omega

theorem ascent_lt_summit (h : Trailed f c) : c.ascent root < summit root c.atoms.count := weigh_lt_pow h.digit_lt _

theorem Extends.ascent_le (h : Extends c d) : c.ascent root ≤ d.ascent root := by
  unfold ascent
  rw [h.count]
  exact weigh_mono (digit_mono h.starts (by simpa [Trail.size] using h.literals.length_le)) _

theorem Extends.steep (h : Extends c d) (hs : c.trail.Steep root) : d.trail.Steep root :=
  hs.of_starts_eq h.starts (by simpa [Trail.size] using h.literals.length_le)

/-- **The number grows with every step.** -/
theorem ascent_lt_of_climbs (h : Climbs root c.trail d.trail) (hc : Trailed f c) (hd : Trailed f d)
    (hcount : d.atoms.count = c.atoms.count) (hsteep : c.trail.Steep root) : c.ascent root < d.ascent root := by
  obtain ⟨k, hsame, hk⟩ := h.raised
  have hlevel : k ≤ d.trail.level := Nat.le_of_not_lt fun hlt => by
    rw [digit_of_lt hlt] at hk
    exact absurd hk (Nat.not_lt_zero _)
  have hbound : k < root + c.atoms.count + 1 := by
    have := h.steep hsteep k hlevel
    have := hd.layered.start_le_size (k + 1)
    have := hd.size_le
    omega
  unfold ascent
  rw [hcount]
  exact weigh_lt_weigh hsame hk hc.digit_lt _ hbound

end Context

namespace Solver

open Run Context Trail

variable {f : Formula} {assumptions : List Literal} {root target : Nat} {c d : Context} {l first : Literal} {rest : Clause}

/-! ## Trails after each step -/

theorem meets_backjump_trail (hlt : target < c.trail.level) :
    Meets (backjump target) c (fun _ d => d.trail = c.trail.cut target) fun _ => True := by
  unfold backjump
  rw [meets_bind, meets_get, if_pos hlt]
  dsimp only
  rw [meets_bind, meets_require]
  intro _
  rw [meets_bind]
  refine (meets_unassign_keeps (P := fun d => d.trail = c.trail) (fun _ _ _ hd => hd) _ rfl).mono (fun _ d hd => ?_)
    fun _ => id
  rw [meets_modify]
  show d.trail.cut target = _
  rw [hd]

theorem meets_backjump_le : Meets (backjump target) c (fun _ d => d.trail.level ≤ target) fun _ => True := by
  by_cases hlt : target < c.trail.level
  · refine (meets_backjump_trail hlt).mono (fun _ d hd => ?_) fun _ => id
    rw [hd, level_cut]
    exact Nat.min_le_left ..
  · unfold backjump
    rw [meets_bind, meets_get, if_neg hlt]
    exact Nat.le_of_not_lt hlt

theorem meets_assign_trail {reason : Option Reason} :
    Meets (assign l reason) c (fun _ d => d.trail = c.trail.push l) fun _ => True := meets_assign fun _ hp _ _ => hp.trail

theorem meets_onWatches_trail {α : Type} {m : Run Watches α} :
    Meets (onWatches m) c (fun _ d => d.trail = c.trail) fun _ => True := by
  rw [meets_onWatches]
  exact meets_of_cases (fun _ _ _ => rfl) fun _ _ _ => trivial

theorem meets_storeLong_trail {clause : Clause} {learnt : Bool} :
    Meets (storeLong clause learnt) c (fun _ d => d.trail = c.trail) fun _ => True := by
  unfold storeLong
  split
  · rw [meets_bind, meets_onClauses]
    refine meets_of_cases (fun _ _ _ => ?_) fun _ _ _ => trivial
    rw [meets_bind]
    exact meets_onWatches_trail.mono (fun _ _ hd => hd) fun _ => id
  · trivial

/-- A clause learnt puts its first literal on the trail, and nothing else. -/
theorem meets_learn_trail : Meets (learn (first :: rest)) c (fun _ d => d.trail = c.trail.push first) fun _ => True := by
  have hassign : ∀ (reason : Option Reason) (d : Context), d.trail = c.trail →
      Meets (assign first reason) d (fun _ e => e.trail = c.trail.push first) fun _ => True := fun _ _ hd =>
    hd ▸ meets_assign_trail
  match rest with
  | [] =>
    unfold learn
    rw [meets_bind]
    refine meets_assign_trail.mono (fun _ d hd => ?_) fun _ => id
    rw [meets_bind]
    exact (gives_onAtoms AtomTable.Call.gives_setLevel).meets hd
  | [second] =>
    unfold learn
    rw [meets_bind]
    exact meets_onWatches_trail.mono (fun _ d hd => hassign _ d hd) fun _ => id
  | second :: third :: rest =>
    unfold learn
    rw [meets_bind]
    exact meets_storeLong_trail.mono (fun _ d hd => hassign _ d hd) fun _ => id

theorem meets_decideLiteral_trail :
    Meets (decideLiteral l) c (fun _ d => d.trail = c.trail.newLevel.push l) fun _ => True := by
  unfold decideLiteral
  rw [meets_bind, meets_count, meets_bind, meets_modify]
  exact meets_assign_trail

/-! ## Steps of a search -/

/-- A step that does not end a search climbs. -/
def Climbing (root : Nat) (c : Context) (answer : Option SolveState) (d : Context) : Prop :=
  answer = none → Climbs root c.trail d.trail

/-- **A conflict that is learnt from raises the level gone back to.** -/
theorem climbs_atConflict {conflict : Conflict} (h : Searching f assumptions root c) (hr : Refuted f c conflict)
    (hh : root < c.trail.level → c.Here conflict) :
    Meets (atConflict conflict) c (Climbing root c) fun _ => True := by
  unfold atConflict
  rw [meets_bind, meets_count, meets_bind, meets_get]
  dsimp only
  generalize hd : ({ c with counters := _ } : Context) = d
  have halike : Alike c d := hd ▸ .of_eq rfl rfl rfl rfl rfl
  have hsearch := h.alike halike (hd ▸ rfl) (hd ▸ rfl)
  have hends : c.trail.root = root := h.ends
  have htrail : d.trail = c.trail := hd ▸ rfl
  rw [meets_ite]
  refine ⟨fun _ => nofun, fun hpos => ?_⟩
  rw [meets_ite]
  constructor
  · intro _
    rw [meets_bind]
    refine meets_any.mono (fun failed e _ => ?_) fun _ => id
    rw [meets_bind, meets_modify, meets_pure]
    exact nofun
  intro hlt
  rw [hends] at hlt ⊢
  have hlt := Nat.lt_of_not_le hlt
  rw [meets_bind]
  refine (answers_analyzeConflict hsearch.toBase hsearch.marks (hr.alike halike) ((hh hlt).alike halike)
    (htrail ▸ Nat.zero_lt_of_lt hlt)).meets.mono (fun learnt e ⟨he, first, rest, hl⟩ => ?_) fun _ => id
  have hbelow : max learnt.level root < e.trail.level := by
    have := hl.below
    have := he.level
    rw [htrail] at *
    omega
  have hlayered : e.trail.Layered := he.layered hsearch.trailed.layered
  rw [meets_bind]
  refine (meets_backjump_trail hbelow).mono (fun _ g hg => ?_) fun _ => id
  rw [meets_bind, hl.clause]
  refine meets_learn_trail.mono (fun _ k hk => ?_) fun _ => id
  rw [meets_bind, meets_modify, meets_bind]
  refine meets_countdown fun schedule _ => ?_
  show Climbs root c.trail k.trail
  rw [hk, hg]
  exact (hlayered.climbs_cut hbelow first).of_same (he.starts.trans (congrArg Trail.starts htrail))
    (he.literals.trans (congrArg Trail.literals htrail))

/-- **A decision raises the level it opens.** -/
theorem climbs_decideNext (h : Complete f assumptions root c) :
    Meets decideNext c (Climbing root c) fun _ => True := by
  unfold decideNext
  rw [meets_bind]
  refine (meets_chooseDecision h.stocked h.shaped.bounded).mono (fun choice d hd => ?_) fun _ _ => trivial
  rcases hd with ⟨l, rfl, hl⟩ | ⟨rfl, -, -⟩
  · dsimp only
    rw [meets_bind]
    refine meets_decideLiteral_trail.mono (fun _ e he => ?_) fun _ => id
    rw [meets_pure]
    intro _
    rw [he]
    exact (climbs_decided d.trail l).of_same hl.unmoved.starts hl.unmoved.literals
  · dsimp only
    rw [meets_bind, meets_modify, meets_bind, meets_get, meets_bind]
    refine meets_any.mono (fun _ e _ => ?_) fun _ => id
    rw [meets_pure]
    exact nofun

theorem meets_simplifyAtRoot_trail (h : Complete f assumptions root c) :
    Meets simplifyAtRoot c (fun _ d => d.trail = c.trail) fun _ => True := by
  unfold simplifyAtRoot
  rw [meets_bind, meets_get, meets_ite]
  refine ⟨fun hz => ?_, fun _ => rfl⟩
  rw [Bool.and_eq_true] at hz
  rw [meets_bind]
  exact (meets_simplify ⟨h.toSound, of_decide_eq_true hz.1, h.current, h.head⟩).mono (fun _ d ⟨_, ht⟩ => ht.trail)
    fun _ _ => trivial

theorem climbs_atRest {budget : Option Nat} (h : Complete f assumptions root c) :
    Meets (atRest budget) c (Climbing root c) fun _ => True := by
  unfold atRest
  rw [meets_bind, meets_get, meets_ite]
  constructor
  · intro _
    rw [meets_bind]
    refine meets_any.mono (fun _ d _ => ?_) fun _ => id
    rw [meets_pure]
    exact nofun
  intro _
  rw [meets_bind]
  refine ((meets_simplifyAtRoot h).and (meets_simplifyAtRoot_trail h)).mono (fun stop d ⟨⟨hstop, _, hd⟩, htrail⟩ => ?_)
    fun _ _ => trivial
  subst hstop
  rw [if_neg nofun, meets_bind, meets_get]
  have hnext : ∀ e, Complete f assumptions root e → e.trail = d.trail → Meets decideNext e (Climbing root c) fun _ => True :=
    fun e he ht => (climbs_decideNext he).mono (fun _ _ hclimbs hnone => (ht.trans htrail) ▸ hclimbs hnone) fun _ => id
  dsimp only
  rw [meets_ite]
  refine ⟨fun _ => ?_, fun _ => hnext d hd rfl⟩
  rw [meets_bind]
  exact (meets_reduce hd.toSound).mono (fun _ e ⟨hs, ht⟩ => hnext e (hd.trimmed hs ht) ht.trail) fun _ _ => trivial

end Solver
end Cdcl
