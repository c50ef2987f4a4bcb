import Cdcl.Proofs.Simplification
import Cdcl.Proofs.StoreCounts
import Cdcl.Solver.Search
/-!
# Frame — what the steps of a search leave as it is

Where a program ends, with an answer or a failure, it may be related to where it started (`Within`).  A relation that is
reflexive and transitive is kept by the parts of a program one after the other, and so it is enough that the few steps that
change something keep it (`Stepped`): a literal assigned, a level opened, the way back to a level, a unit noted.  Of a context
where a program is interrupted otherwise a relation may have something to say as well.

No step of a search changes the options, what the last solve found, the numbers of conflicts, the growth of the limit on
learnt clauses, the number of atoms, the clause that waits, or who hears of values undone; and where the store counts what
it holds, it does so afterwards (`Still`).
-/
namespace Cdcl
namespace Solver

open Run

variable {α β : Type} {R : Context → Context → Prop} {c d : Context}

/-- A relation that the parts of a program keep one after the other, and what holds where a program is halted by anything
else than a failure: nothing, unless more is said. -/
class Chained (R : Context → Context → Prop) where
  halted : Context → Context → Prop := fun _ _ => True
  refl : ∀ c, R c c
  trans : ∀ {c d e}, R c d → R d e → R c e
  halts : ∀ c, halted c c := by exact fun _ => trivial
  halts_after : ∀ {c d e}, R c d → halted d e → halted c e := by exact fun _ _ => trivial

/-- A program that goes on from where another context has led ends where that one leads. -/
structure Leads (R : Context → Context → Prop) [Chained R] (c : Context) (m : Solver α) (d : Context) : Prop where
  meets : Meets m d (fun _ e => R c e) (R c)
  halts : ∀ i e, m d = .error i e → Chained.halted (R := R) c e

/-- Where a program ends is related to where it started. -/
def Within (R : Context → Context → Prop) [Chained R] (m : Solver α) : Prop := ∀ c, Leads R c m c

section

variable [Chained R]

/-! ## Going on from a context -/

theorem leads_pure {a : α} (hd : R c d) : Leads R c (pure a : Solver α) d := ⟨hd, fun _ _ he => by cases he⟩

theorem leads_throw {i : Interrupt} (hd : R c d) : Leads R c (throw i : Solver α) d := by
  refine ⟨?_, fun _ _ he => ?_⟩
  · cases i with
    | failure f => exact hd
    | _ => trivial
  · cases he
    exact Chained.halts_after hd (Chained.halts d)

theorem leads_bind {m : Solver β} {f : β → Solver α} (hm : Leads R c m d)
    (hf : ∀ b e, m d = .ok b e → R c e → Leads R c (f b) e) : Leads R c (m >>= f) d := by
  refine ⟨meets_bind.2 (meets_of_cases (fun b e he => (hf b e he (hm.meets.of_ok he)).meets) fun _ _ he =>
    hm.meets.of_failure he), fun i e he => ?_⟩
  rcases bind_eq_error_iff.1 he with he | ⟨b, g, hb, he⟩
  · exact hm.halts i e he
  · exact (hf b g hb (hm.meets.of_ok hb)).halts i e he

theorem leads_get {f : Context → Solver α} (h : Leads R c (f d) d) : Leads R c (get >>= f) d := ⟨h.meets, h.halts⟩

theorem leads_modify {g : Context → Context} {f : PUnit → Solver α} (h : Leads R c (f ⟨⟩) (g d)) :
    Leads R c (modify g >>= f) d := ⟨h.meets, h.halts⟩

theorem leads_ite {p : Prop} [Decidable p] {m n : Solver α} (hm : p → Leads R c m d) (hn : ¬p → Leads R c n d) :
    Leads R c (if p then m else n) d := by
  split
  · exact hm ‹_›
  · exact hn ‹_›

/-- **A program that keeps a relation may go on from where another has led.** -/
theorem Within.then {m : Solver α} (h : Within R m) (hd : R c d) : Leads R c m d :=
  ⟨(h d).meets.mono (fun _ _ => Chained.trans hd) fun _ => Chained.trans hd, fun i e he =>
    Chained.halts_after hd ((h d).halts i e he)⟩

/-! ## Programs that keep a relation -/

theorem within_modify {f : Context → Context} (h : ∀ c, R c (f c)) : Within R (modify f) := fun c => ⟨h c, fun _ _ he => by cases he⟩

theorem within_modifyGet {f : Context → α × Context} (h : ∀ c, R c (f c).2) : Within R (modifyGet f) := fun c =>
  ⟨h c, fun _ _ he => by cases he⟩

theorem within_ite {p : Prop} [Decidable p] {m n : Solver α} (hm : p → Within R m) (hn : ¬p → Within R n) :
    Within R (if p then m else n) := fun c => leads_ite (fun hp => hm hp c) fun hp => hn hp c

theorem within_throw {i : Interrupt} : Within R (throw i : Solver α) := fun c => leads_throw (Chained.refl c)

theorem within_refuse {r : Refusal} : Within R (Run.refuse r : Solver α) := within_throw

theorem within_fault : Within R (Run.fault : Solver α) := within_throw

theorem within_fail {f : Failure} : Within R (Run.fail f : Solver α) := within_throw

theorem within_pure {a : α} : Within R (pure a : Solver α) := fun c => leads_pure (Chained.refl c)

theorem within_get : Within R get := fun c => ⟨Chained.refl c, fun _ _ he => by cases he⟩

theorem within_require {ok : Bool} : Within R (Run.require ok) := by
  cases ok
  · exact within_fault
  · exact within_pure

theorem within_expect {x : Option α} : Within R (Run.expect x) := by
  cases x with
  | none => exact within_fault
  | some a => exact within_pure

/-- **A sequence keeps what its parts keep.** -/
theorem within_bind {m : Solver β} {f : β → Solver α} (hm : Within R m) (hf : ∀ b, Within R (f b)) :
    Within R (m >>= f) := fun c => leads_bind (hm c) fun b _ _ he => (hf b).then he

theorem within_record {a : Nat} : Within R (record a) := within_bind within_get fun _ => within_expect

theorem within_findClause {key : ClauseKey} : Within R (findClause key) := by
  refine within_bind within_get fun c => ?_
  cases c.clauses.find key with
  | ok stored => exact within_pure
  | error e => exact within_fail

theorem within_forM {f : β → Solver PUnit} (hf : ∀ b, Within R (f b)) : ∀ list : List β, Within R (list.forM f)
  | [] => within_pure
  | b :: rest => within_bind (hf b) fun _ => within_forM hf rest

theorem within_attempt {m : Solver α} (h : Within R m) : Within R (Run.attempt m) := by
  refine fun c => ⟨meets_attempt ((h c).meets.mono (fun _ _ => id) fun _ hd _ => hd), fun i d hd => ?_⟩
  unfold Run.attempt at hd
  split at hd
  · cases hd
  · cases hd
  · cases hd
    exact (h c).halts _ _ ‹_›

end

end Solver

/-! ## What stays -/

/-- What the steps of a search leave as it is. -/
structure Frame where
  options : Options
  state : SolveState
  model : Array Bool
  conflicts : Nat
  freshConflicts : Nat
  adjustEvery : Float
  adjustIn : Int
  count : Nat
  root : Nat
  pending : Option LearntClause
  onUnassign : Hook

namespace Context

def frame (c : Context) : Frame where
  options := c.options
  state := c.state
  model := c.model
  conflicts := c.counters.conflicts
  freshConflicts := c.counters.freshConflicts
  adjustEvery := c.schedule.adjustEvery
  adjustIn := c.schedule.adjustIn
  count := c.atoms.count
  root := c.trail.root
  pending := c.pending
  onUnassign := c.listeners.onUnassign

/-- A step of a search has led from one context to another. -/
structure Still (c d : Context) : Prop where
  frame : d.frame = c.frame
  tallied : c.clauses.Tallied → d.clauses.Tallied

/-- A step has led from one context to another, and assigned nothing, gone back nowhere and told of nothing. -/
structure Unseen (c d : Context) : Prop extends Still c d where
  literals : d.trail.literals = c.trail.literals
  starts : d.trail.starts = c.trail.starts
  head : c.trail.head ≤ c.trail.size → d.trail.head ≤ d.trail.size
  units : d.pendingUnits = c.pendingUnits
  listeners : d.listeners = c.listeners

namespace Still

variable {c d : Context}

theorem options (h : Still c d) : d.options = c.options := congrArg Frame.options h.frame

theorem state (h : Still c d) : d.state = c.state := congrArg Frame.state h.frame

theorem model (h : Still c d) : d.model = c.model := congrArg Frame.model h.frame

theorem conflicts (h : Still c d) : d.counters.conflicts = c.counters.conflicts := congrArg Frame.conflicts h.frame

theorem freshConflicts (h : Still c d) : d.counters.freshConflicts = c.counters.freshConflicts :=
  congrArg Frame.freshConflicts h.frame

theorem adjustEvery (h : Still c d) : d.schedule.adjustEvery = c.schedule.adjustEvery :=
  congrArg Frame.adjustEvery h.frame

theorem adjustIn (h : Still c d) : d.schedule.adjustIn = c.schedule.adjustIn := congrArg Frame.adjustIn h.frame

theorem count (h : Still c d) : d.atoms.count = c.atoms.count := congrArg Frame.count h.frame

theorem root (h : Still c d) : d.trail.root = c.trail.root := congrArg Frame.root h.frame

theorem pending (h : Still c d) : d.pending = c.pending := congrArg Frame.pending h.frame

theorem onUnassign (h : Still c d) : d.listeners.onUnassign = c.listeners.onUnassign := congrArg Frame.onUnassign h.frame

end Still

theorem Unseen.of_eq {c d : Context} (hframe : d.frame = c.frame) (hclauses : d.clauses = c.clauses)
    (htrail : d.trail = c.trail) (hunits : d.pendingUnits = c.pendingUnits) (hlisteners : d.listeners = c.listeners) :
    Unseen c d :=
  ⟨⟨hframe, hclauses ▸ id⟩, htrail ▸ rfl, htrail ▸ rfl, htrail ▸ id, hunits, hlisteners⟩

end Context

namespace Listeners

variable {s t : Listeners} {l : Literal}

theorem onUnassign_assigned : (s.assigned l).onUnassign = s.onUnassign := by
  unfold assigned
  cases s.onAssign <;> rfl

theorem onUnassign_learnt {clause : Clause} : (s.learnt clause).onUnassign = s.onUnassign := by
  unfold learnt
  split <;> rfl

theorem onUnassign_ask : s.ask.2.onUnassign = s.onUnassign := by
  unfold ask
  split <;> rfl

theorem onUnassign_of_unassigned? (h : s.unassigned? l = some t) : t.onUnassign = s.onUnassign := by
  unfold unassigned? at h
  split at h
  · cases h
    rfl
  · cases h
    rfl
  · obtain ⟨tracker, -, rfl⟩ := Option.map_eq_some_iff.1 h
    rfl

end Listeners

namespace Solver

open Run Context

variable {α : Type} {R : Context → Context → Prop} {l : Literal} {reason : Option Reason} {clause : Clause}
  {key : ClauseKey} {level target : Nat}

/-- A relation that is kept by the steps of a search, and so by what is made of them. -/
class Stepped (R : Context → Context → Prop) extends Chained R where
  unseen : ∀ {c d}, Unseen c d → R c d
  aside : ∀ {c d}, d.trail.literals = c.trail.literals → d.listeners = c.listeners → halted c d := by
    exact fun _ _ => trivial
  assigned : ∀ (c : Context) (l : Literal) (reason : Option Reason), R c { c with
    atoms := c.atoms.setValue l c.trail.level reason
    trail := c.trail.push l
    dirty := true
    listeners := c.listeners.assigned l }
  opened : ∀ c : Context, R c { c with trail := c.trail.newLevel }
  unit : ∀ (c : Context) (l : Literal), R c { c with
    pendingUnits := if c.trail.level > 0 then c.pendingUnits.push l else c.pendingUnits }
  back : ∀ target, Within R (backjump target)

instance : Chained Still where
  refl _ := ⟨rfl, id⟩
  trans h h' := ⟨h'.frame.trans h.frame, h'.tallied ∘ h.tallied⟩

/-- Atoms that lose their values stay. -/
theorem meets_dropValues {deferred : Bool} (literals : List Literal) (t : AtomTable) :
    Meets (literals.forM fun l => AtomTable.Call.dropValue l.atom deferred) t (fun _ u => u.count = t.count)
      fun u => u.count = t.count :=
  meets_forM (I := fun _ u => u.count = t.count)
    (fun l _ u hu => AtomTable.Call.gives_dropValue.meets ((AtomTable.count_dropValue u l.atom deferred).trans hu))
    literals t rfl

/-- A relation that is kept where atoms lose their values, where that is told of, and where levels are cut off, is kept on
the way back. -/
theorem within_wayBack [Chained R] (hhalted : ∀ c d, Chained.halted (R := R) c d)
    (hdropped : ∀ {c : Context} {atoms : AtomTable}, atoms.count = c.atoms.count → R c { c with atoms })
    (htold : ∀ {c : Context} {l : Literal} {listeners : Listeners}, c.listeners.unassigned? l = some listeners →
      R c { c with listeners })
    (hcut : ∀ c, R c { c with trail := c.trail.cut target }) : Within R (backjump target) := by
  have hdrop : ∀ (deferred : Bool) (literals : List Literal),
      Within R (onAtoms (literals.forM fun l => AtomTable.Call.dropValue l.atom deferred)) := fun deferred literals c =>
    ⟨meets_onAtoms.2 ((meets_dropValues literals c.atoms).mono (fun _ _ => hdropped) fun _ => hdropped),
      fun _ _ _ => hhalted _ _⟩
  have htell : ∀ l, Within R (tellUnassigned l) := fun l c => by
    refine ⟨meets_of_cases (fun _ d hd => ?_) fun _ d hd => ?_, fun _ _ _ => hhalted _ _⟩ <;>
    unfold tellUnassigned at hd <;> dsimp only at hd <;> split at hd
    · cases hd
      exact htold ‹_›
    · cases hd
    · cases hd
    · cases hd
  refine within_bind within_get fun c => within_ite (fun _ => within_bind within_require fun _ => ?_) fun _ => within_pure
  exact within_bind (within_bind (hdrop _ _) fun _ => within_forM htell _) fun _ => within_modify hcut

instance : Stepped Still where
  unseen h := h.toStill
  assigned c l reason := ⟨by simp only [frame, AtomTable.count_setValue, Listeners.onUnassign_assigned, Trail.push], id⟩
  opened _ := ⟨rfl, id⟩
  unit _ _ := ⟨rfl, id⟩
  back _ := within_wayBack (fun _ _ => trivial) (fun ha => ⟨by simp only [frame, ha], id⟩)
    (fun hl => ⟨by simp only [frame, Listeners.onUnassign_of_unassigned? hl], id⟩) fun _ => ⟨rfl, id⟩

/-- What follows from `Still` is kept by the steps of a search. -/
@[reducible]
def Stepped.ofStill [Chained R] (halted : ∀ c d, Chained.halted (R := R) c d) (still : ∀ {c d}, Still c d → R c d) :
    Stepped R where
  unseen h := still h.toStill
  aside {c d} _ _ := halted c d
  assigned c l reason := still (Stepped.assigned c l reason)
  opened c := still (Stepped.opened c)
  unit c l := still (Stepped.unit c l)
  back target c := ⟨(Stepped.back (R := Still) target c).meets.mono (fun _ _ => still) fun _ => still,
    fun _ _ _ => halted _ _⟩

section

variable [Stepped R]

/-! ## Parts of a context -/

theorem within_unseen {f : Context → Context} (h : ∀ c, Unseen c (f c)) : Within R (modify f) :=
  within_modify fun c => Stepped.unseen (h c)

theorem within_onClauses {m : Run ClauseStore α} (h : ∀ s : ClauseStore, s.Tallied → Meets m s (fun _ t => t.Tallied)
    ClauseStore.Tallied) : Within R (onClauses m) := fun c => by
  refine ⟨?_, fun i d hd => ?_⟩
  · rw [meets_onClauses]
    refine meets_of_cases (fun _ t ht => Stepped.unseen ⟨⟨rfl, fun hc => (h _ hc).of_ok ht⟩, rfl, rfl, id, rfl, rfl⟩)
      fun _ t ht => Stepped.unseen ⟨⟨rfl, fun hc => (h _ hc).of_failure ht⟩, rfl, rfl, id, rfl, rfl⟩
  · obtain ⟨t, -, rfl⟩ := onClauses_eq_error hd
    exact Stepped.aside rfl rfl

theorem within_onAtoms {m : Run AtomTable α} (h : ∀ t : AtomTable, Meets m t (fun _ u => u.count = t.count)
    fun u => u.count = t.count) : Within R (onAtoms m) := fun c => by
  refine ⟨?_, fun i d hd => ?_⟩
  · rw [meets_onAtoms]
    exact (h c.atoms).mono (fun _ _ hu => Stepped.unseen (.of_eq (by simp only [frame, hu]) rfl rfl rfl rfl))
      fun _ hu => Stepped.unseen (.of_eq (by simp only [frame, hu]) rfl rfl rfl rfl)
  · obtain ⟨t, -, rfl⟩ := onAtoms_eq_error hd
    exact Stepped.aside rfl rfl

theorem within_setLevel {a : Nat} : Within R (onAtoms (AtomTable.Call.setLevel a level)) := within_onAtoms fun t =>
  AtomTable.Call.gives_setLevel.meets (AtomTable.count_setLevel t a level)

theorem within_onWatches {m : Run Watches α} : Within R (onWatches m) := fun c => by
  refine ⟨?_, fun i d hd => ?_⟩
  · rw [meets_onWatches]
    exact meets_of_cases (fun _ _ _ => Stepped.unseen (.of_eq rfl rfl rfl rfl rfl))
      fun _ _ _ => Stepped.unseen (.of_eq rfl rfl rfl rfl rfl)
  · obtain ⟨t, -, rfl⟩ := onWatches_eq_error hd
    exact Stepped.aside rfl rfl

theorem within_chance {p : Float} : Within R (chance p) :=
  within_bind within_get fun _ => within_bind within_expect fun _ =>
    within_bind (within_unseen fun _ => .of_eq rfl rfl rfl rfl rfl) fun _ => within_pure

theorem within_markOf {a : Nat} : Within R (markOf a) := within_bind within_get fun _ => within_expect

theorem within_setMark {a : Nat} {mark : Bool} : Within R (setMark a mark) :=
  within_bind within_get fun _ => within_bind within_require fun _ => within_unseen fun _ => .of_eq rfl rfl rfl rfl rfl

theorem within_resetMarks : Within R resetMarks := within_unseen fun _ => .of_eq rfl rfl rfl rfl rfl

theorem within_clearMarks (atoms : List Nat) : Within R (clearMarks atoms) := within_forM (fun _ => within_setMark) atoms

theorem within_atoms {f : AtomTable → AtomTable} (h : ∀ t, (f t).count = t.count) :
    Within R (modify fun c => { c with atoms := f c.atoms }) :=
  within_unseen fun c => .of_eq (by simp only [frame, h]) rfl rfl rfl rfl

/-- What counts propagations, decisions and literals is seen by nobody. -/
theorem within_count {f : Counters → Counters} (hconflicts : ∀ n, (f n).conflicts = n.conflicts)
    (hfresh : ∀ n, (f n).freshConflicts = n.freshConflicts) : Within R (count f) :=
  within_unseen fun c => .of_eq (by simp only [frame, hconflicts, hfresh]) rfl rfl rfl rfl

/-! ## Assignments -/

theorem within_assign : Within R (assign l reason) :=
  within_bind within_get fun _ => within_bind within_require fun _ => within_modify fun c => Stepped.assigned c l reason

theorem within_imply {r : Reason} : Within R (imply l r) :=
  within_bind (within_count (fun _ => rfl) fun _ => rfl) fun _ => within_assign

theorem within_decideLiteral : Within R (decideLiteral l) :=
  within_bind (within_count (fun _ => rfl) fun _ => rfl) fun _ =>
    within_bind (within_modify Stepped.opened) fun _ => within_assign

theorem within_enqueue : Within R (enqueue l reason) := by
  refine within_bind within_get fun c => ?_
  split
  · exact within_fault
  · exact within_bind within_assign fun _ => within_pure
  · exact within_pure
  · exact within_pure

theorem within_backjump : Within R (backjump target) := Stepped.back target

/-! ## Propagation -/

theorem within_visitBinary {falsified : Literal} : ∀ list : List Literal, Within R (visitBinary falsified list)
  | [] => within_pure
  | other :: rest => by
    unfold visitBinary
    refine within_bind within_get fun c => ?_
    split
    · exact within_fault
    · exact within_visitBinary rest
    · exact within_pure
    · exact within_bind within_imply fun _ => within_visitBinary rest

/-- The literals of a clause at hand may be put in another order. -/
theorem unseen_setLiterals {c : Context} {stored : StoredClause} (hc : c.clauses.find key = .ok stored) {ls : Clause}
    (hl : ls.length = stored.literals.length) : Unseen c { c with clauses := c.clauses.setLiterals key ls } :=
  ⟨⟨rfl, fun h => h.setLiterals hc hl⟩, rfl, rfl, id, rfl, rfl⟩

theorem leads_turn {β : Type} {p : Prop} [Decidable p] {c : Context} {stored : StoredClause} {ls : Clause}
    {m : Unit → Solver β} (hc : c.clauses.find key = .ok stored) (hl : ls.length = stored.literals.length)
    (hm : Within R (m ())) : Leads R c (if p then do
        let u ← modify fun c => { c with clauses := c.clauses.setLiterals key ls }
        m u
      else m ()) c :=
  leads_ite (fun _ => leads_modify (hm.then (Stepped.unseen (unseen_setLiterals hc hl)))) fun _ => hm c

/-- A clause whose other watch is not true gives its watch to another literal, is false, or implies. -/
theorem leads_moveWatch {falsified a first second : Literal} {others : Clause} {key : ClauseKey} {stored : StoredClause}
    {rest : List ClauseKey} {kept : Array ClauseKey} {c : Context} {standing : Standing}
    (hc : c.clauses.find key = .ok stored) (hl : (first :: second :: others).length = stored.literals.length)
    (hrest : ∀ kept, Within R (visitLong falsified rest kept)) :
    Leads R c (match Clause.replaceSecond c.atoms.standing (first :: second :: others) with
      | .stray => fault
      | .found watch literals => do
        modify fun c => { c with clauses := c.clauses.setLiterals key literals }
        onWatches (Watches.Call.watchLong watch key)
        visitLong falsified rest kept
      | .none => do
        if a = falsified then
          modify fun c => { c with clauses := c.clauses.setLiterals key (first :: second :: others) }
        if standing = .fails then pure (.conflict (.long key), kept.push key ++ rest)
        else
          imply first (.long key)
          visitLong falsified rest (kept.push key)) c := by
  cases hr : Clause.replaceSecond c.atoms.standing (first :: second :: others) with
  | stray => exact within_fault c
  | found watch ls =>
    refine leads_modify (Within.then (within_bind within_onWatches fun _ => hrest kept) (Stepped.unseen ?_))
    exact unseen_setLiterals hc ((Clause.of_replaceSecond hr).1.length_eq.trans hl)
  | none =>
    refine leads_turn hc hl (within_ite (fun _ => within_pure) fun _ => ?_)
    exact within_bind within_imply fun _ => hrest (kept.push key)

theorem within_visitLong {falsified : Literal} : ∀ (rest : List ClauseKey) (kept : Array ClauseKey),
    Within R (visitLong falsified rest kept)
  | [], _ => within_pure
  | key :: rest, kept => fun c => by
    unfold visitLong
    refine leads_get ?_
    cases hc : c.clauses.find key with
    | error e => exact within_pure c
    | ok stored =>
      dsimp only
      rcases hl : stored.literals with _ | ⟨a, _ | ⟨b, others⟩⟩
      · exact within_fault c
      · exact within_fault c
      · dsimp only
        obtain ⟨first, second, hpair⟩ : ∃ first second, (if a = falsified then (b, a) else (a, b)) = (first, second) :=
          ⟨_, _, rfl⟩
        rw [hpair]
        dsimp only
        have hlen : (first :: second :: others).length = stored.literals.length := by simp [hl]
        cases c.atoms.standing first with
        | unknown => exact within_fault c
        | holds => exact leads_turn hc hlen (within_visitLong rest (kept.push key))
        | fails => exact leads_moveWatch hc hlen (within_visitLong rest)
        | free => exact leads_moveWatch hc hlen (within_visitLong rest)

theorem within_propagateFalse {falsified : Literal} : Within R (propagateFalse falsified) := by
  refine within_bind within_onWatches fun _ => within_bind (within_visitBinary _) fun result => ?_
  split
  · exact within_bind within_onWatches fun _ => within_bind (within_visitLong _ _) fun _ =>
      within_bind within_onWatches fun _ => within_pure
  · exact within_pure

/-- The head moves on over a literal, and stays on the trail. -/
theorem within_propagateFor : ∀ fuel : Nat, Within R (propagateFor fuel)
  | 0 => within_bind within_get fun _ => within_ite (fun _ => within_pure) fun _ => within_throw
  | fuel + 1 => fun c => by
    unfold propagateFor
    refine leads_get ?_
    cases hl : c.trail.literals[c.trail.head]? with
    | none => exact within_pure c
    | some l =>
      have hlt : c.trail.head < c.trail.size := (Array.getElem?_eq_some_iff.1 hl).1
      refine leads_modify (Within.then ?_ (Stepped.unseen ⟨⟨rfl, id⟩, rfl, rfl, fun _ => hlt, rfl, rfl⟩))
      refine within_bind within_propagateFalse fun result => ?_
      split
      · exact within_propagateFor fuel
      · exact within_bind (within_unseen fun _ => ⟨⟨rfl, id⟩, rfl, rfl, fun _ => Nat.le_refl _, rfl, rfl⟩) fun _ =>
          within_pure

/-- **Propagation leaves what the last solve found, and what the counters say of conflicts.** -/
theorem within_propagate : Within R propagate := within_bind within_get fun _ => within_propagateFor _

/-! ## Analysis -/

theorem within_settled {a : Nat} : Within R (settled a) :=
  within_bind within_record fun _ => within_bind within_markOf fun _ => within_pure

theorem within_allSettled {a : Nat} : ∀ clause : Clause, Within R (allSettled a clause)
  | [] => within_pure
  | l :: rest => by
    unfold allSettled
    exact within_ite (fun _ => within_allSettled rest) fun _ => within_bind within_settled fun _ =>
      within_ite (fun _ => within_allSettled rest) fun _ => within_pure

theorem within_cheaplyRedundant (l : Literal) : Within R (cheaplyRedundant l) := by
  refine within_bind within_record fun r => ?_
  split
  · exact within_pure
  · exact within_settled
  · exact within_bind within_findClause fun _ => within_allSettled _

theorem within_dropping {test : Literal → Solver Bool} (h : ∀ l, Within R (test l)) :
    ∀ clause : Clause, Within R (dropping test clause)
  | [] => within_pure
  | l :: rest => within_bind (h l) fun _ => within_bind (within_dropping h rest) fun _ => within_pure

theorem within_minimizeCheap : ∀ clause : Clause, Within R (minimizeCheap clause)
  | [] => within_pure
  | _ :: rest => within_bind (within_dropping within_cheaplyRedundant rest) fun _ => within_pure

theorem within_levelMask : ∀ (mask : Nat) (clause : Clause), Within R (levelMask mask clause)
  | _, [] => within_pure
  | _, _ :: rest => within_bind within_record fun _ => within_levelMask _ rest

theorem within_explain {mask a : Nat} : ∀ (clause : Clause) (chase : Chase), Within R (explain mask a clause chase)
  | [], _ => within_pure
  | l :: rest, chase => by
    unfold explain
    refine within_ite (fun _ => within_explain rest chase) fun _ => within_bind within_record fun _ =>
      within_bind within_markOf fun _ => ?_
    exact within_ite (fun _ => within_explain rest chase) fun _ => within_ite
      (fun _ => within_bind within_setMark fun _ => within_explain rest _) fun _ => within_pure

theorem within_reasonLiterals : ∀ reason : Option Reason, Within R (reasonLiterals reason)
  | none => within_pure
  | some (.binary _) => within_pure
  | some (.long _) => within_bind within_findClause fun _ => within_pure

theorem within_chase {mask : Nat} : ∀ (fuel : Nat) (next : Chase), Within R (chase mask fuel next)
  | fuel, { stack := [], found } => by
    cases fuel <;> exact within_pure
  | 0, { stack := _ :: _, found } => within_throw
  | fuel + 1, { stack := l :: stack, found } => by
    unfold chase
    refine within_bind within_record fun _ => within_bind (within_reasonLiterals _) fun _ =>
      within_bind (within_explain _ _) fun r => ?_
    split
    · exact within_chase fuel _
    · exact within_pure

theorem within_redundant {mask : Nat} : Within R (redundant mask l) :=
  within_bind within_get fun _ => within_bind (within_chase _ _) fun _ => within_ite (fun _ => within_pure) fun _ =>
    within_bind (within_clearMarks _) fun _ => within_pure

theorem within_droppingRedundant {mask : Nat} : ∀ (clause : Clause) (found : List Nat),
    Within R (droppingRedundant mask clause found)
  | [], _ => within_pure
  | l :: rest, found => by
    unfold droppingRedundant
    refine within_bind within_record fun _ => within_ite (fun _ => ?_) fun _ => ?_
    · exact within_bind (within_droppingRedundant rest found) fun _ => within_pure
    · exact within_bind within_redundant fun _ => within_bind (within_droppingRedundant rest _) fun _ => within_pure

theorem within_minimizeRecursive : ∀ clause : Clause, Within R (minimizeRecursive clause)
  | [] => within_pure
  | _ :: _ => within_bind (within_levelMask _ _) fun _ => within_bind (within_droppingRedundant _ _) fun _ => within_pure

theorem within_bumpAtom {a : Nat} : Within R (bumpAtom a) := within_onAtoms fun t =>
  AtomTable.Call.gives_bump.meets (congrArg Array.size (AtomTable.records_bump t a))

theorem within_absorb {resolved : Option Nat} : ∀ (clause : Clause) (draft : Draft),
    Within R (absorb level resolved clause draft)
  | [], _ => within_pure
  | l :: rest, draft => by
    unfold absorb
    refine within_ite (fun _ => within_absorb rest draft) fun _ => within_bind within_record fun _ =>
      within_bind within_markOf fun _ => within_ite (fun _ => within_absorb rest draft) fun _ =>
      within_bind within_bumpAtom fun _ => within_bind within_setMark fun _ => ?_
    exact within_ite (fun _ => within_absorb rest _) fun _ => within_ite (fun _ => within_absorb rest _) fun _ =>
      within_bind within_resetMarks fun _ => within_fail

theorem within_antecedent : Within R (antecedent key) :=
  within_bind within_findClause fun _ => within_bind (within_unseen fun _ =>
    ⟨⟨rfl, fun h => h.bump key⟩, rfl, rfl, id, rfl, rfl⟩) fun _ => within_pure

theorem within_resolve : ∀ (index : Nat) (draft : Draft), Within R (resolve level index draft)
  | 0, _ => within_bind within_resetMarks fun _ => within_fail
  | index + 1, draft => by
    unfold resolve
    refine within_bind within_get fun _ => within_bind within_expect fun _ => within_bind within_markOf fun _ => within_ite
      (fun _ => within_resolve index draft) fun _ => within_bind within_setMark fun _ => ?_
    split
    · exact within_fault
    · exact within_pure
    · refine within_bind within_record fun r => ?_
      split
      · exact within_bind within_resetMarks fun _ => within_fail
      · exact within_bind (within_absorb _ _) fun _ => within_resolve index _
      · exact within_bind within_antecedent fun _ => within_bind (within_absorb _ _) fun _ => within_resolve index _

theorem within_levels : ∀ clause : Clause, Within R (clause.mapM fun l => return (← record l.atom).level.getD 0)
  | [] => within_pure
  | _ :: rest => by
    rw [List.mapM_cons]
    exact within_bind (within_bind within_record fun _ => within_pure) fun _ => within_bind (within_levels rest) fun _ =>
      within_pure

theorem within_arrange : ∀ clause : Clause, Within R (arrange clause)
  | [] => within_pure
  | [_] => within_pure
  | _ :: _ :: _ => within_bind (within_levels _) fun _ => within_bind within_expect fun _ =>
    within_bind within_expect fun _ => within_pure

theorem within_resolvent (conflict : Conflict) : Within R (resolvent conflict) := by
  refine within_bind within_get fun c => ?_
  cases conflict <;> refine within_bind ?_ fun _ => within_bind (within_absorb _ _) fun _ => within_bind within_get
    fun _ => within_bind (within_resolve _ _) fun _ => within_bind (within_count (fun _ => rfl) fun _ => rfl) fun _ =>
    within_pure
  · exact within_pure
  · exact within_antecedent

theorem within_minimized (clause : Clause) : Within R (minimized clause) := by
  refine within_bind within_get fun c => ?_
  cases c.options.minimization.value with
  | none => exact within_pure
  | cheap => exact within_bind (within_minimizeCheap _) fun _ => within_pure
  | recursive => exact within_minimizeRecursive _

/-- **An analysis leaves what the last solve found, and what the counters say of conflicts.** -/
theorem within_deduce (conflict : Conflict) : Within R (deduce conflict) := by
  rw [deduce_eq]
  exact within_bind (within_resolvent conflict) fun _ => within_bind (within_minimized _) fun _ =>
    within_bind (within_count (fun _ => rfl) fun _ => rfl) fun _ => within_bind (within_clearMarks _) fun _ => within_arrange _

theorem within_analyzeConflict (htold : ∀ (c : Context) (clause : Clause), R c { c with listeners := c.listeners.learnt clause })
    (conflict : Conflict) : Within R (analyzeConflict conflict) :=
  within_bind (within_deduce conflict) fun learnt => within_bind (within_modify fun c => htold c learnt.clause) fun _ =>
    within_pure

theorem still_analyzeConflict (conflict : Conflict) : Within Still (analyzeConflict conflict) :=
  within_analyzeConflict (fun _ _ => ⟨by simp only [frame, Listeners.onUnassign_learnt], id⟩) conflict

/-! ## Failed assumptions -/

theorem within_markAboveRoot : ∀ clause : Clause, Within R (markAboveRoot clause)
  | [] => within_pure
  | l :: rest => by
    unfold markAboveRoot
    refine within_bind within_record fun _ => within_ite (fun _ => ?_) fun _ => ?_
    · exact within_bind within_setMark fun _ => within_markAboveRoot rest
    · exact within_markAboveRoot rest

theorem within_collectFailed {bottom : Nat} : ∀ (n : Nat) (failed : Array Literal),
    Within R (collectFailed bottom n failed)
  | 0, _ => within_pure
  | n + 1, failed => by
    have hend : ∀ (a : Nat) (failed : Array Literal), Within R (do
        setMark a false
        collectFailed bottom n failed) := fun a failed => within_bind within_setMark fun _ => within_collectFailed n failed
    unfold collectFailed
    refine within_bind within_get fun _ => within_bind within_expect fun _ => within_bind within_markOf fun _ => within_ite
      (fun _ => within_collectFailed n failed) fun _ => within_bind within_record fun r => ?_
    split
    · exact within_bind within_pure fun _ => hend _ _
    · exact within_bind (within_markAboveRoot _) fun _ => within_bind within_pure fun _ => hend _ _
    · exact within_bind within_findClause fun _ => within_bind (within_markAboveRoot _) fun _ =>
        within_bind within_pure fun _ => hend _ _

theorem within_failedFor (literals : Clause) : Within R (failedFor literals) :=
  within_bind within_get fun _ => within_ite (fun _ => within_pure) fun _ =>
    within_bind (within_markAboveRoot _) fun _ => within_bind (within_collectFailed _ _) fun _ => within_pure

theorem within_failedByConflict : ∀ conflict : Conflict, Within R (failedByConflict conflict)
  | .binary _ _ => within_failedFor _
  | .long _ => within_bind within_findClause fun _ => within_failedFor _

theorem within_failedByAssumption : Within R (failedByAssumption l) := by
  refine within_bind within_record fun r => ?_
  split
  · exact within_bind within_pure fun _ => within_pure
  · exact within_bind (within_failedFor _) fun _ => within_pure
  · exact within_bind within_findClause fun _ => within_bind (within_failedFor _) fun _ => within_pure

/-! ## Decisions -/

theorem within_randomAtom : Within R randomAtom :=
  within_bind within_get fun _ => within_ite (fun _ => within_pure) fun _ => within_bind within_get fun _ =>
    within_bind within_chance fun _ => within_ite (fun _ => within_bind within_get fun _ => within_bind within_expect fun _ =>
      within_bind (within_unseen fun _ => .of_eq rfl rfl rfl rfl rfl) fun _ => within_bind within_record fun _ => within_pure)
        fun _ => within_pure

theorem within_mostActiveFor : ∀ fuel : Nat, Within R (mostActiveFor fuel)
  | 0 => within_pure
  | fuel + 1 => by
    unfold mostActiveFor
    refine within_bind (within_onAtoms fun _ => AtomTable.Call.gives_popMostActive.meets rfl) fun popped => ?_
    split
    · exact within_pure
    · exact within_bind within_record fun _ => within_ite (fun _ => within_pure) fun _ => within_mostActiveFor fuel

/-- An atom that was chosen gets a value. -/
theorem within_chosen (choice : Option Nat) : Within R (match choice with
    | none => pure none
    | some a => do
      let c ← get
      let value ←
        if c.options.phaseSaving.value then pure (← record a).previous
        else chance c.options.positiveChance.value
      pure (some (Literal.ofAtom a value))) := by
  cases choice with
  | none => exact within_pure
  | some a =>
    refine within_bind within_get fun _ => within_ite (fun _ => ?_) fun _ => ?_
    · exact within_bind within_record fun _ => within_bind within_pure fun _ => within_pure
    · exact within_bind within_chance fun _ => within_pure

theorem within_chooseDecision : Within R chooseDecision := by
  have hcount : ∀ t : AtomTable, t.noteDecision.count = t.count := fun t => by
    unfold AtomTable.count
    rw [AtomTable.records_noteDecision]
  refine within_bind (within_atoms hcount) fun _ => within_bind within_randomAtom fun drawn => ?_
  cases drawn with
  | some a => exact within_bind within_pure within_chosen
  | none => exact within_bind (within_bind within_get fun _ => within_mostActiveFor _) within_chosen

/-! ## Clauses -/

theorem within_storeLong {learnt : Bool} : ∀ clause : Clause, Within R (storeLong clause learnt)
  | [] => within_fail
  | [_] => within_fail
  | [_, _] => within_fail
  | first :: second :: third :: rest => by
    refine within_bind ?_ fun key => within_bind within_onWatches fun _ => within_pure
    cases learnt with
    | true => exact within_onClauses fun s hs => hs.storeLearnt
    | false => exact within_onClauses fun s hs => hs.storeInput

theorem within_removeLong : Within R (removeLong key) := by
  refine within_bind (within_onClauses fun s hs => ?_) fun stored => ?_
  · cases hc : s.find key with
    | ok c => exact (hs.remove hc).meets.mono (fun _ _ => And.right) fun _ => id
    | error e =>
      unfold ClauseStore.Call.remove ClauseStore.Call.find
      rw [meets_bind, meets_bind, meets_get, hc]
      exact hs
  · split
    · exact within_onWatches
    · exact within_fault

theorem within_isLocked : Within R (isLocked key) := by
  refine within_bind within_get fun _ => ?_
  split
  · exact within_pure
  · exact within_bind within_expect fun _ => within_bind within_record fun _ => within_pure

theorem within_removeInactive {limit : Float} : ∀ (half : Nat) (list : List (ClauseKey × Float)),
    Within R (removeInactive limit half list)
  | _, [] => within_pure
  | half, (key, activity) :: rest => by
    unfold removeInactive
    exact within_bind within_isLocked fun _ => within_ite
      (fun _ => within_bind within_removeLong fun _ => within_removeInactive _ rest) fun _ => within_removeInactive _ rest

theorem within_reduce : Within R reduce :=
  within_bind within_get fun _ => within_ite (fun _ => within_pure) fun _ => within_removeInactive _ _

theorem within_dropBinary : ∀ list : List Literal, Within R (dropBinary list)
  | [] => within_pure
  | _ :: rest => within_bind within_onWatches fun _ => within_dropBinary rest

theorem within_someTrueAtRoot : ∀ clause : Clause, Within R (someTrueAtRoot clause)
  | [] => within_pure
  | _ :: rest => within_bind within_record fun _ => within_ite (fun _ => within_pure) fun _ => within_someTrueAtRoot rest

/-- **A clause that is simplified is counted as it is then.** -/
theorem within_simplifyClause : Within R (simplifyClause key) := fun c => by
  unfold simplifyClause
  refine leads_bind (within_findClause c) fun stored d hd hcd =>
    leads_bind ((within_someTrueAtRoot _).then hcd) fun _ e he _ => ?_
  obtain ⟨hc, rfl⟩ := findClause_eq_ok_iff.1 hd
  obtain rfl := ((gives_someTrueAtRoot _).of_ok he).2
  refine leads_ite (fun _ => within_bind within_isLocked (fun _ => within_ite (fun _ => within_pure) fun _ =>
    within_removeLong) e) fun _ => leads_get (leads_bind (within_require e) fun _ d hd _ => ?_)
  obtain ⟨-, rfl⟩ := require_eq_ok_iff.1 hd
  refine leads_ite (fun _ => within_pure d) fun _ => ?_
  match hl : stored.atRoot d.atoms with
  | [] => exact within_fault d
  | [_] => exact within_fault d
  | first :: second :: rest =>
    have hle : (first :: second :: rest).length ≤ stored.literals.length := hl ▸ List.length_filter_le ..
    have hstrip : d.clauses.Tallied → Meets (ClauseStore.Call.noteLiteralsRemoved key
        (stored.literals.length - (first :: second :: rest).length)) (d.clauses.setLiterals key (first :: second :: rest))
        (fun _ t => t.Tallied) fun _ => False := fun h => (h.strip hc hle).meets
    -- between the two steps the store does not count what it holds
    refine leads_modify (leads_bind (m := onClauses _) ⟨?_, fun i e he => ?_⟩ fun _ e _ he => Within.then ?_ he)
    · rw [meets_onClauses]
      exact meets_of_cases (fun _ t ht => Stepped.unseen ⟨⟨rfl, fun h => (hstrip h).of_ok ht⟩, rfl, rfl, id, rfl, rfl⟩)
        fun _ t ht => Stepped.unseen ⟨⟨rfl, fun h => ((hstrip h).of_failure ht).elim⟩, rfl, rfl, id, rfl, rfl⟩
    · obtain ⟨t, -, rfl⟩ := onClauses_eq_error he
      exact Stepped.aside rfl rfl
    · exact within_ite (fun _ => within_bind within_removeLong fun _ => within_onWatches) fun _ => within_pure

theorem within_simplifyAll : Within R simplifyAll :=
  within_bind within_get fun _ => within_bind (within_dropBinary _) fun _ => within_bind within_get fun _ =>
    within_bind (within_forM (fun _ => within_simplifyClause) _) fun _ =>
      within_unseen fun _ => .of_eq rfl rfl rfl rfl rfl

theorem within_learn : ∀ clause : Clause, Within R (learn clause)
  | [] => within_fail
  | [l] => within_bind within_assign fun _ => within_bind within_setLevel fun _ => within_modify fun c => Stepped.unit c l
  | [_, _] => within_bind within_onWatches fun _ => within_assign
  | _ :: _ :: _ :: _ => within_bind (within_storeLong _) fun _ => within_assign

end

end Solver
end Cdcl
