import Cdcl.Proofs.Minimization
import Cdcl.Proofs.Propagation
import Cdcl.Solver.FailedAssumptions
/-!
# FailedAssumptions — the assumptions found responsible contradict the formula

While the trail is walked back, whatever satisfies the formula and agrees with the trail at the marked atoms falsifies
an assumption found so far (`Tracing`).  A marked literal with a reason passes the mark on to what the reason needs, and
one without a reason is noted.  At the end no atom is marked, so the formula entails that one of the assumptions noted is
false (`answers_failedByConflict`).

A literal that is false without a reason, above level zero, is the negation of another assumption.  Then its own negation
is all that is noted, and that the formula entails it is not said (`answers_failedByAssumption`).
-/
namespace Cdcl
namespace Context

open Solver (marked)

theorem Trailed.known_of_before {f : Formula} {c : Context} (h : Trailed f c) {clause : Clause} {i : Nat}
    (hn : ∀ m ∈ clause, m.negate ∈ c.trail.before i) : ∀ m ∈ clause, m.atom < c.atoms.count := fun m hm => by
  rw [← Literal.atom_negate]
  exact h.mem_known (Trail.before_sublist (hn m hm))

theorem Trailed.filter_reason {f : Formula} {c : Context} {i : Nat} {p : Literal} {needs : Clause} (h : Trailed f c)
    (hp : c.trail.literals[i]? = some p) (hn : ∀ m ∈ needs, m.negate ∈ c.trail.before i) :
    ((p :: needs).filter fun m => m.atom != p.atom) = needs := by
  rw [List.filter_cons_of_neg (by simp), List.filter_eq_self]
  intro m hm
  have := h.atom_ne_of_mem_before hp (hn m hm)
  rwa [Literal.atom_negate, ← bne_iff_ne] at this

/-- What is needed to trace a trail back: reasons are before what they are reasons of, and where there is a level above
zero there is a literal. -/
structure Traceable (f : Formula) (c : Context) : Prop where
  trailed : Trailed f c
  denotes : Denotes f c
  placed : ∀ a, 0 < c.atoms.levelOrZero a → ∃ q ∈ c.trail.literals.toList, q.atom = a

theorem Base.traceable {f : Formula} {settled : Nat → Prop} {c : Context} (h : Base f settled c) : Traceable f c where
  trailed := h.trailed
  denotes := h.denotes
  placed a hl := by
    cases hv : c.atoms.value a with
    | none =>
      have hnone := h.leveled.level?_eq_none hv
      rw [AtomTable.level?] at hnone
      rw [AtomTable.levelOrZero_eq, hnone] at hl
      exact absurd hl (Nat.lt_irrefl 0)
    | some b =>
      obtain ⟨q, hq, he, -⟩ := h.exists_literal hv
      exact ⟨q, hq, he⟩

/-- A literal whose negation is true, above level zero and for no reason. -/
def Assumed (c : Context) (l : Literal) : Prop :=
  l.negate ∈ c.trail.literals.toList ∧ c.atoms.reason l.atom = none ∧ 0 < c.atoms.levelOrZero l.atom

/-- What stays known while the trail is walked back, with the literals noted so far: an unmarked literal is passed by, a
marked one with a reason passes its mark on to the literals of that, and a marked one without a reason is noted. -/
structure Retraces (f : Formula) (c : Context) (known : Nat → Clause → Context → Prop) : Prop where
  working : ∀ {i failed d}, known i failed d → Working c d
  level : ∀ {i failed d} {p : Literal}, known (i + 1) failed d → c.trail.literals[i]? = some p →
    marked d p.atom = true → 0 < c.atoms.levelOrZero p.atom
  skip : ∀ {i failed d} {p : Literal}, known (i + 1) failed d → c.trail.literals[i]? = some p →
    marked d p.atom = false → known i failed d
  explain : ∀ {i failed d e} {p : Literal} {needs : Clause}, known (i + 1) failed d → c.trail.literals[i]? = some p →
    marked d p.atom = true → c.atoms.reason p.atom ≠ none → f.Entails (p :: needs) →
    (∀ m, c.Antecedent p.atom m ↔ m ∈ needs) → Working c e →
    (∀ a, marked e a = true ↔ marked d a = true ∨ a ∈ needs.map Literal.atom ∧ 0 < c.atoms.levelOrZero a) →
    known i failed (e.withMark p.atom false)
  assume : ∀ {i failed d} {p : Literal}, known (i + 1) failed d → c.trail.literals[i]? = some p →
    marked d p.atom = true → c.atoms.reason p.atom = none → known i (failed ++ [p.negate]) (d.withMark p.atom false)

/-- What is known while the trail is walked back from an index.  The `rest` is false for another cause. -/
structure Tracing (f : Formula) (c : Context) (rest : Clause) (index : Nat) (failed : Clause) (d : Context) : Prop where
  working : Working c d
  marks : ∀ a, marked d a = true → ∃ q ∈ c.trail.before index, q.atom = a ∧ 0 < c.atoms.levelOrZero a
  entails : ∀ v, f.Holds v → (∀ q ∈ c.trail.literals.toList, marked d q.atom = true → q.Holds v) →
    Clause.Holds v (failed ++ rest)
  assumed : ∀ l ∈ failed, Assumed c l

namespace Tracing

variable {f : Formula} {settled : Nat → Prop} {c d e : Context} {rest failed : Clause} {index : Nat} {p : Literal}

theorem skip (h : Tracing f c rest (index + 1) failed d) (hp : c.trail.literals[index]? = some p)
    (hm : Solver.marked d p.atom = false) : Tracing f c rest index failed d where
  working := h.working
  marks a ha := by
    obtain ⟨q, hq, rfl, hlevel⟩ := h.marks a ha
    refine ⟨q, (Trail.eq_or_mem_before hp hq).resolve_left fun he => ?_, rfl, hlevel⟩
    rw [he, hm] at ha
    cases ha
  entails := h.entails
  assumed := h.assumed

/-- **A marked literal passes its mark on to what its reason needs.** -/
theorem explain {needs : Clause} (h : Tracing f c rest (index + 1) failed d) (hb : Base f settled c)
    (hp : c.trail.literals[index]? = some p) (he : f.Entails (p :: needs))
    (hneeds : ∀ m ∈ needs, m.negate ∈ c.trail.before index) (hw : Working c e)
    (hm : ∀ a, Solver.marked e a = true ↔
      Solver.marked d a = true ∨ a ∈ needs.map Literal.atom ∧ 0 < c.atoms.levelOrZero a) :
    Tracing f c rest index failed (e.withMark p.atom false) where
  working := hw.withMark ..
  marks a ha := by
    rw [marked_unmark, hm] at ha
    obtain ⟨hne, ha | ⟨ha, hlevel⟩⟩ := ha
    · obtain ⟨q, hq, rfl, hlevel⟩ := h.marks a ha
      exact ⟨q, (Trail.eq_or_mem_before hp hq).resolve_left fun he => hne (he ▸ rfl), rfl, hlevel⟩
    · obtain ⟨m, hmem, rfl⟩ := List.mem_map.1 ha
      exact ⟨m.negate, hneeds m hmem, Literal.atom_negate m, hlevel⟩
  entails v hv hq := by
    have hother : ∀ q ∈ c.trail.literals.toList, q.atom ≠ p.atom →
        Solver.marked e q.atom = true → q.Holds v := fun q hqt hne hqm =>
      hq q hqt ((marked_unmark ..).2 ⟨hne, hqm⟩)
    -- what the reason needs holds as the trail has it, so its literal does
    have hpv : p.Holds v := by
      obtain ⟨m, hmem, hmv⟩ := he v hv
      rcases List.mem_cons.1 hmem with rfl | hmem
      · exact hmv
      · have hmt := Trail.before_sublist (hneeds m hmem)
        have hneg : m.negate.Holds v := by
          by_cases hz : c.atoms.levelOrZero m.atom = 0
          · obtain ⟨n, hn, hnv⟩ := hb.trailed.entails_of_level_zero hb.denotes hmt (by rwa [Literal.atom_negate]) v hv
            rwa [List.mem_singleton.1 hn] at hnv
          · refine hother _ hmt (hb.trailed.atom_ne_of_mem_before hp (hneeds m hmem)) ((hm _).2 (.inr ?_))
            rw [Literal.atom_negate]
            exact ⟨List.mem_map_of_mem hmem, Nat.pos_of_ne_zero hz⟩
        rw [Literal.holds_negate] at hneg
        exact absurd hmv hneg
    refine h.entails v hv fun q hqt hqm => ?_
    by_cases hne : q.atom = p.atom
    · rw [hb.trailed.eq_of_atom hqt (Trail.mem_of_getElem? hp) hne]
      exact hpv
    · exact hother q hqt hne ((hm _).2 (.inl hqm))
  assumed := h.assumed

/-- **A marked literal without a reason is noted**, as its negation. -/
theorem assume (h : Tracing f c rest (index + 1) failed d) (ht : Trailed f c)
    (hp : c.trail.literals[index]? = some p) (hm : Solver.marked d p.atom = true)
    (hr : c.atoms.reason p.atom = none) : Tracing f c rest index (failed ++ [p.negate]) (d.withMark p.atom false) where
  working := h.working.withMark ..
  marks a ha := by
    rw [marked_unmark] at ha
    obtain ⟨q, hq, rfl, hlevel⟩ := h.marks a ha.2
    exact ⟨q, (Trail.eq_or_mem_before hp hq).resolve_left fun he => ha.1 (he ▸ rfl), rfl, hlevel⟩
  entails v hv hq := by
    by_cases hpv : p.Holds v
    · refine (h.entails v hv fun q hqt hqm => ?_).mono fun l hl => by
        rw [List.mem_append] at hl
        exact hl.elim (fun hl => by simp [hl]) fun hl => by simp [hl]
      by_cases hne : q.atom = p.atom
      · rw [ht.eq_of_atom hqt (Trail.mem_of_getElem? hp) hne]
        exact hpv
      · exact hq q hqt ((marked_unmark ..).2 ⟨hne, hqm⟩)
    · exact ⟨p.negate, by simp, Literal.holds_negate.2 hpv⟩
  assumed l hl := by
    rw [List.mem_append, List.mem_singleton] at hl
    rcases hl with hl | rfl
    · exact h.assumed l hl
    · obtain ⟨q, -, hqa, hlevel⟩ := h.marks _ hm
      refine ⟨?_, by rwa [Literal.atom_negate], by rwa [Literal.atom_negate]⟩
      rw [Literal.negate_negate]
      exact Trail.mem_of_getElem? hp

theorem retraces (hb : Base f settled c) : Retraces f c (Tracing f c rest) where
  working h := h.working
  level h _ hm := have ⟨_, _, _, hlevel⟩ := h.marks _ hm; hlevel
  skip h hp hm := h.skip hp hm
  explain h hp _ _ he hneeds hw hm :=
    h.explain hb hp he (fun m hmem => hb.trailed.antecedent_before hp ((hneeds m).2 hmem)) hw hm
  assume h hp hm hr := h.assume hb.trailed hp hm hr

end Tracing
end Context

namespace Solver

open Run Context

variable {f : Formula} {sets : Nat → Prop} {c d : Context} {rest : Clause} {key : ClauseKey}

theorem answers_markAboveRoot : ∀ (clause : Clause) (d : Context), Working c d → (∀ m ∈ clause, m.atom < c.atoms.count) →
    Answers (markAboveRoot clause) d fun _ e => Working c e ∧ ∀ a, marked e a = true ↔
      marked d a = true ∨ a ∈ clause.map Literal.atom ∧ 0 < c.atoms.levelOrZero a
  | [], d, h, _ => answers_pure.2 ⟨h, by simp⟩
  | l :: rest, d, h, hk => by
    unfold markAboveRoot
    have hrest : ∀ m ∈ rest, m.atom < c.atoms.count := fun m hm => hk m (List.mem_cons_of_mem _ hm)
    obtain ⟨r, hr⟩ := AtomTable.exists_record (h.count ▸ hk l List.mem_cons_self)
    rw [answers_bind, answers_record]
    refine ⟨r, hr, ?_⟩
    have hlevel : r.level.getD 0 = c.atoms.levelOrZero l.atom :=
      (AtomTable.of_record hr).1.trans (h.levelOrZero _)
    have hknown : l.atom < d.marks.size := by
      rw [h.marksSize]
      exact hk l List.mem_cons_self
    rw [hlevel]
    by_cases hpos : 0 < c.atoms.levelOrZero l.atom
    · rw [if_pos hpos]
      rw [answers_bind, gives_setMark.answers hknown]
      refine (answers_markAboveRoot rest _ (h.withMark l.atom true) hrest).mono fun _ e ⟨hw, hm⟩ => ⟨hw, fun a => ?_⟩
      rw [hm, marked_withMark, List.map_cons, List.mem_cons]
      by_cases ha : a = l.atom
      · simp [ha, hknown, hpos]
      · simp [ha]
    · rw [if_neg hpos]
      refine (answers_markAboveRoot rest d h hrest).mono fun _ e ⟨hw, hm⟩ => ⟨hw, fun a => ?_⟩
      rw [hm, List.map_cons, List.mem_cons]
      by_cases ha : a = l.atom
      · simp [ha, hpos]
      · simp [ha]

/-- **A marked literal with a reason passes its mark on** to what it goes back to. -/
theorem answers_passMark {known : Nat → Clause → Context → Prop} (ht : Traceable f c) (hk : Retraces f c known)
    {index : Nat} {failed needs : Clause} {p : Literal} (h : known (index + 1) failed d)
    (hp : c.trail.literals[index]? = some p) (hm : marked d p.atom = true) (hr : c.atoms.reason p.atom ≠ none)
    (he : f.Entails (p :: needs)) (hneeds : ∀ m, c.Antecedent p.atom m ↔ m ∈ needs) :
    Answers (do
      markAboveRoot needs
      setMark p.atom false) d fun _ e => known index failed e := by
  have hbefore : ∀ m ∈ needs, m.negate ∈ c.trail.before index := fun m hmem =>
    ht.trailed.antecedent_before hp ((hneeds m).2 hmem)
  rw [answers_bind]
  refine (answers_markAboveRoot needs d (hk.working h) (ht.trailed.known_of_before hbefore)).mono
    fun _ e ⟨hw, hmarks⟩ => ?_
  rw [gives_setMark.answers (hw.marksSize ▸ ht.trailed.mem_known (Trail.mem_of_getElem? hp))]
  exact hk.explain h hp hm hr he hneeds hw hmarks

theorem answers_passMark_binary {known : Nat → Clause → Context → Prop} (ht : Traceable f c) (hk : Retraces f c known)
    {index : Nat} {failed : Clause} {p other : Literal} (h : known (index + 1) failed d)
    (hp : c.trail.literals[index]? = some p) (hm : marked d p.atom = true)
    (hr : c.atoms.reason p.atom = some (.binary other)) :
    Answers (do
      markAboveRoot [other]
      setMark p.atom false) d fun _ e => known index failed e := by
  have hcause := ht.trailed.caused index p hp
  rw [hr] at hcause
  exact answers_passMark ht hk h hp hm (hr ▸ Option.some_ne_none _) hcause.2.2 fun m =>
    (antecedent_binary_iff hr).trans List.mem_singleton.symm

theorem exists_passMark_long {known : Nat → Clause → Context → Prop} (ht : Traceable f c) (hk : Retraces f c known)
    {index : Nat} {failed : Clause} {p : Literal} (h : known (index + 1) failed d)
    (hp : c.trail.literals[index]? = some p) (hm : marked d p.atom = true)
    (hr : c.atoms.reason p.atom = some (.long key)) :
    ∃ stored, d.clauses.find key = .ok stored ∧ Answers (do
      markAboveRoot (stored.literals.filter fun other => other.atom != p.atom)
      setMark p.atom false) d fun _ e => known index failed e := by
  have hcause := ht.trailed.caused index p hp
  rw [hr] at hcause
  obtain ⟨-, needs, hkey, hneeds⟩ := hcause
  obtain ⟨stored, hfind, hlits⟩ :=
    ClauseStore.literals?_eq_some_iff.1 ((hk.working h).clauses.literals key ▸ hkey)
  refine ⟨stored, hfind, ?_⟩
  rw [hlits, ht.trailed.filter_reason hp hneeds]
  exact answers_passMark ht hk h hp hm (hr ▸ Option.some_ne_none _) (ht.denotes.long key _ hkey) fun m =>
    ht.trailed.antecedent_iff_mem_rest hp hr hkey hneeds

/-- **Walking the trail back** keeps what each of its steps keeps. -/
theorem answers_collectFailed {known : Nat → Clause → Context → Prop} (ht : Traceable f c) (hk : Retraces f c known)
    {bottom : Nat} : ∀ (n : Nat) (failed : Array Literal) (d : Context), known (bottom + n) failed.toList d →
    bottom + n ≤ c.trail.size →
    Answers (collectFailed bottom n failed) d fun failed e => known bottom failed.toList e
  | 0, failed, d, h, _ => answers_pure.2 h
  | n + 1, failed, d, h, hn => by
    have hp : c.trail.literals[bottom + n]? = some c.trail.literals[bottom + n] := Array.getElem?_eq_getElem hn
    generalize c.trail.literals[bottom + n] = p at hp
    have hn := Nat.le_of_succ_le hn
    have hw := hk.working h
    unfold collectFailed
    have hknown := ht.trailed.mem_known (Trail.mem_of_getElem? hp)
    have hmarks : p.atom < d.marks.size := hw.marksSize ▸ hknown
    rw [answers_bind, answers_get, answers_bind, answers_expect]
    refine ⟨p, hw.literals ▸ hp, ?_⟩
    rw [answers_bind, gives_markOf.answers hmarks, answers_ite]
    constructor
    · intro hm
      exact answers_collectFailed ht hk n failed d (hk.skip h hp (by simpa using hm)) hn
    · intro hm
      rw [Bool.not_eq_true, Bool.not_eq_false'] at hm
      obtain ⟨r, hr⟩ := AtomTable.exists_record (hw.count ▸ hknown)
      rw [answers_bind, answers_record]
      refine ⟨r, hr, ?_⟩
      have hreason : c.atoms.reason p.atom = r.reason := ((AtomTable.of_record hr).2.1.trans (hw.reason _)).symm
      cases hrr : r.reason with
      | none =>
        rw [hrr] at hreason
        have hlevel : 0 < r.level.getD 0 := by
          rw [(AtomTable.of_record hr).1, hw.levelOrZero]
          exact hk.level h hp hm
        show Answers (pure _ >>= _) _ _
        rw [answers_bind, answers_pure, if_pos hlevel, answers_bind, gives_setMark.answers hmarks]
        refine answers_collectFailed ht hk n _ _ ?_ hn
        rw [Array.toList_push]
        exact hk.assume h hp hm hreason
      | some reason =>
        rw [hrr] at hreason
        cases reason with
        | binary other =>
          show Answers (do
            markAboveRoot [other]
            setMark p.atom false
            collectFailed bottom n failed) _ _
          rw [← bind_assoc, answers_bind]
          exact (answers_passMark_binary ht hk h hp hm hreason).mono fun _ e he =>
            answers_collectFailed ht hk n failed e he hn
        | long key =>
          obtain ⟨stored, hfind, hpass⟩ := exists_passMark_long ht hk h hp hm hreason
          show Answers (do
            let stored ← findClause key
            markAboveRoot (stored.literals.filter fun other => other.atom != p.atom)
            setMark p.atom false
            collectFailed bottom n failed) _ _
          rw [answers_bind, answers_findClause]
          refine ⟨stored, hfind, ?_⟩
          rw [← bind_assoc, answers_bind]
          exact hpass.mono fun _ e he => answers_collectFailed ht hk n failed e he hn

/-- **Above some assumptions, the walk starts from the marks of the literals given**, and ends at level one. -/
theorem answers_failedFor_retraces {literals : Clause} {known : Nat → Clause → Context → Prop} (ht : Traceable f c)
    (hk : Retraces f c known) (hm : c.marks = Array.replicate c.atoms.count false)
    (hl : ∀ m ∈ literals, m.atom < c.atoms.count) (hroot : c.trail.root ≠ 0)
    (hstart : ∀ d, Working c d →
      (∀ a, marked d a = true ↔ a ∈ literals.map Literal.atom ∧ 0 < c.atoms.levelOrZero a) → known c.trail.size [] d) :
    Answers (failedFor literals) c fun failed d => known (c.trail.start 1) failed d := by
  have hbottom : c.trail.start 1 + (c.trail.size - c.trail.start 1) = c.trail.size :=
    Nat.add_sub_cancel' (ht.trailed.layered.start_le_size 1)
  unfold failedFor
  rw [answers_bind, answers_get, if_neg hroot, answers_bind]
  refine (answers_markAboveRoot literals c (.refl hm) hl).mono fun _ d ⟨hw, hmarks⟩ => ?_
  have hknown : known (c.trail.start 1 + (c.trail.size - c.trail.start 1)) (#[] : Array Literal).toList d := by
    rw [hbottom]
    exact hstart d hw fun a => (hmarks a).trans (or_iff_right (marks_of_clean hm a).1)
  rw [answers_bind]
  exact (answers_collectFailed ht hk _ #[] d hknown (Nat.le_of_eq hbottom)).mono fun _ _ h => answers_pure.2 h

/-- **The negated assumptions found for false literals**: where the formula holds and these literals do not, one of them
does. -/
theorem answers_failedFor {literals : Clause} (hb : Base f sets c)
    (hm : c.marks = Array.replicate c.atoms.count false) (he : f.Entails (literals ++ rest))
    (hfalse : ∀ m ∈ literals, m.negate ∈ c.trail.literals.toList) :
    Answers (failedFor literals) c fun failed d => Rested c d ∧ (c.trail.root ≠ 0 → f.Entails (failed ++ rest)) ∧
      ∀ l ∈ failed, Assumed c l := by
  by_cases hroot : c.trail.root = 0
  · unfold failedFor
    rw [answers_bind, answers_get, if_pos hroot]
    exact answers_pure.2 ⟨⟨.refl c, rfl, rfl, hm⟩, fun hne => absurd hroot hne, by simp⟩
  have hbefore : ∀ m ∈ literals, m.negate ∈ c.trail.before c.trail.size := by
    rw [Trail.before_of_size_le (Nat.le_refl _)]
    exact hfalse
  have hretraces : Retraces f c (Tracing f c rest) := Tracing.retraces hb
  refine (answers_failedFor_retraces hb.traceable hretraces hm (hb.trailed.known_of_before hbefore) hroot
    fun d hw hmarks => ⟨hw, fun a ha => ?_, fun v hv hq => ?_, by simp⟩).mono fun failed e h => ?_
  · obtain ⟨hatom, hlevel⟩ := (hmarks a).1 ha
    obtain ⟨m, hmem, rfl⟩ := List.mem_map.1 hatom
    exact ⟨m.negate, hbefore m hmem, Literal.atom_negate m, hlevel⟩
  · -- every literal of the clause is false as the trail has it, so the rest of it holds
    obtain ⟨m, hmem, hmv⟩ := he v hv
    refine ⟨m, (List.mem_append.1 hmem).resolve_left fun hmem => ?_, hmv⟩
    have hneg : m.negate.Holds v := by
      by_cases hz : c.atoms.levelOrZero m.atom = 0
      · obtain ⟨n, hn, hnv⟩ :=
          hb.trailed.entails_of_level_zero hb.denotes (hfalse m hmem) (by rwa [Literal.atom_negate]) v hv
        rwa [List.mem_singleton.1 hn] at hnv
      · refine hq _ (hfalse m hmem) ((hmarks _).2 ?_)
        rw [Literal.atom_negate]
        exact ⟨List.mem_map_of_mem hmem, Nat.pos_of_ne_zero hz⟩
    rw [Literal.holds_negate] at hneg
    exact hneg hmv
  · have hclear : Marks e fun _ => False := fun a => ⟨fun ha => by
      obtain ⟨q, hq, rfl, hlevel⟩ := h.marks a ha
      have hle := hb.trailed.level_le_of_mem_upTo (k := 0) hq
      omega, False.elim⟩
    exact ⟨⟨h.working.toAlike, h.working.course, h.working.head, h.working.clean hclear⟩,
      fun _ v hv => h.entails v hv fun q _ hq => ((hclear _).1 hq).elim, h.assumed⟩

/-- **The formula entails that one of the assumptions responsible for a conflict is false.** -/
theorem answers_failedByConflict {conflict : Conflict} (hb : Base f sets c)
    (hm : c.marks = Array.replicate c.atoms.count false) (hr : Refuted f c conflict) :
    Answers (failedByConflict conflict) c fun failed d => Rested c d ∧ (c.trail.root ≠ 0 → f.Entails failed) ∧
      ∀ l ∈ failed, Assumed c l := by
  have hall : ∀ literals : Clause, f.Entails literals → (∀ m ∈ literals, m.negate ∈ c.trail.literals.toList) →
      Answers (failedFor literals) c fun failed d => Rested c d ∧ (c.trail.root ≠ 0 → f.Entails failed) ∧
        ∀ l ∈ failed, Assumed c l := by
    intro literals he hfalse
    rw [← List.append_nil literals] at he
    refine (answers_failedFor hb hm he hfalse).mono fun failed d ⟨hd, hent, ha⟩ => ⟨hd, fun hroot => ?_, ha⟩
    have := hent hroot
    rwa [List.append_nil] at this
  cases conflict with
  | binary a b => exact hall [a, b] hr.1 (by simpa using hr.2)
  | long key =>
    obtain ⟨ls, hkey, hfalse⟩ := hr
    obtain ⟨stored, hfind, hlits⟩ := ClauseStore.literals?_eq_some_iff.1 hkey
    unfold failedByConflict
    rw [answers_bind, answers_findClause]
    refine ⟨stored, hfind, ?_⟩
    rw [hlits]
    exact hall ls (hb.denotes.long key ls hkey) hfalse

/-- **The assumptions responsible for a false one**: the formula entails that one of them is false, unless the assumption
is false for no reason above level zero. -/
theorem answers_failedByAssumption {l : Literal} (hb : Base f sets c)
    (hm : c.marks = Array.replicate c.atoms.count false) (hl : l.negate ∈ c.trail.literals.toList) :
    Answers (failedByAssumption l) c fun failed d => Rested c d ∧
      (c.trail.root ≠ 0 → f.Entails failed ∨ failed = [l.negate] ∧ Assumed c l) ∧
      ∀ m ∈ failed, Assumed c m ∨ m = l.negate := by
  obtain ⟨i, hi⟩ := Trail.mem_literals.1 hl
  have hcause := hb.trailed.caused i _ hi
  have hfound : ∀ {literals : Clause} , f.Entails (l.negate :: literals) →
      (∀ m ∈ literals, m.negate ∈ c.trail.before i) →
      Answers (do return (← failedFor literals) ++ [l.negate]) c fun failed d => Rested c d ∧
        (c.trail.root ≠ 0 → f.Entails failed ∨ failed = [l.negate] ∧ Assumed c l) ∧
        ∀ m ∈ failed, Assumed c m ∨ m = l.negate := by
    intro literals he hbefore
    have he : f.Entails (literals ++ [l.negate]) := fun v hv =>
      (he v hv).mono fun m hmem => by simpa [or_comm] using hmem
    rw [answers_bind]
    refine (answers_failedFor hb hm he fun m hmem => Trail.before_sublist (hbefore m hmem)).mono
      fun failed d ⟨hd, hent, ha⟩ => answers_pure.2 ⟨hd, fun hroot => .inl (hent hroot), fun m hmem => ?_⟩
    rw [List.mem_append, List.mem_singleton] at hmem
    exact hmem.imp (ha m) id
  obtain ⟨r, hr⟩ := AtomTable.exists_record (hb.trailed.known_of_negate_mem hl)
  unfold failedByAssumption
  rw [answers_bind, answers_record]
  refine ⟨r, hr, ?_⟩
  rw [Literal.atom_negate, ← (AtomTable.of_record hr).2.1] at hcause
  cases hrr : r.reason with
  | none =>
    show Answers (pure _ >>= _) _ _
    rw [answers_bind, answers_pure, answers_pure]
    refine ⟨⟨.refl c, rfl, rfl, hm⟩, fun _ => ?_, by simp⟩
    by_cases hz : c.atoms.levelOrZero l.atom = 0
    · exact .inl (hb.trailed.entails_of_level_zero hb.denotes hl (by rwa [Literal.atom_negate]))
    · exact .inr ⟨rfl, hl, (AtomTable.of_record hr).2.1.symm.trans hrr, Nat.pos_of_ne_zero hz⟩
  | some reason =>
    rw [hrr] at hcause
    cases reason with
    | binary other => exact hfound hcause.2.2 (by simpa using hcause.2.1)
    | long key =>
      obtain ⟨-, needs, hkey, hneeds⟩ := hcause
      obtain ⟨stored, hfind, hlits⟩ := ClauseStore.literals?_eq_some_iff.1 hkey
      have hfilter : (stored.literals.filter fun m => m.atom != l.atom) = needs := by
        rw [hlits, ← Literal.atom_negate l]
        exact hb.trailed.filter_reason hi hneeds
      show Answers (findClause key >>= _) _ _
      rw [answers_bind, answers_findClause]
      refine ⟨stored, hfind, ?_⟩
      rw [hfilter]
      exact hfound (hb.denotes.long key _ hkey) hneeds

end Solver
end Cdcl
