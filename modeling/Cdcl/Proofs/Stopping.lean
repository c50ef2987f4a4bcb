import Cdcl.Proofs.Search
import Cdcl.Proofs.Tolerance
/-!
# Stopping — why a step of a search may stop

The invariant leaves a step of a search one reason to stop: the store has no room for a further clause (`full`).  It says
of each clause, list and literal that a step looks up that it is there.  What it does not speak of is kept by the steps of a
search besides (`Fit`): the counts of the store are those of what it holds, nobody who may object hears of values undone,
and options have values within the bounds they were declared with.
-/
namespace Cdcl

namespace Context

/-- What a search needs besides the invariant. -/
structure Fit (c : Context) : Prop where
  tallied : c.clauses.Tallied
  heard : c.listeners.onUnassign ≠ .track
  declared : c.options.Declared

variable {c d : Context}

theorem Kept.fit (h : Kept c d) (hc : Fit c) : Fit d :=
  ⟨h.tallied hc.tallied, h.onUnassign ▸ hc.heard, h.options ▸ hc.declared⟩

end Context

open Run

variable {why : Interrupt → Prop}

/-! ## The lists -/

namespace Watches

variable {w : Watches} {a b : Literal} {key : ClauseKey}

theorem answers_watchTwice (ha : w.knows a = true) (hb : w.knows b = true) :
    Answers (do
      Call.watchLong a key
      Call.watchLong b key) w fun _ t => t = (w.watchLong a key).watchLong b key := by
  unfold Call.watchLong Call.change
  simp only [answers_bind, answers_get, answers_require, answers_modify, knows_watchLong]
  exact ⟨ha, hb, trivial⟩

theorem answers_unwatchTwice (ha : w.knows a = true) (hb : w.knows b = true) :
    Answers (do
      Call.unwatchLong a key
      Call.unwatchLong b key) w fun _ _ => True := by
  unfold Call.unwatchLong Call.change
  simp only [answers_bind, answers_get, answers_require, answers_modify, knows_unwatchLong]
  exact ⟨ha, hb, trivial⟩

theorem answers_watchBinary (ha : w.knows a = true) (hb : w.knows b = true) :
    Answers (Call.watchBinary a b) w fun _ t => t = w.watchBinary a b := by
  unfold Call.watchBinary Call.change
  simp only [answers_bind, answers_get, answers_require, answers_modify]
  exact ⟨ha, hb, trivial⟩

theorem answers_removeBinaryOf (ha : w.knows a = true) (hall : ∀ b ∈ (w.binaryOf a).toList, w.knows b = true) :
    Answers (Call.removeBinaryOf a) w fun _ _ => True := by
  unfold Call.removeBinaryOf
  rw [answers_bind, answers_get, answers_bind, answers_require, answers_modifyGet]
  refine ⟨?_, trivial⟩
  rw [ha, Bool.true_and, Array.all_eq_true']
  exact fun b hb => hall b (Array.mem_toList_iff.2 hb)

end Watches

namespace Solver

open Context

variable {f : Formula} {settled : Nat → Prop} {root : Nat} {assumptions : List Literal} {c d : Context} {l : Literal}
  {reason : Option Reason} {key : ClauseKey} {clause : Clause} {a b : Literal} {rest : Clause}

/-! ## Clauses come and go -/

theorem stops_assign (hl : l.atom < c.atoms.count) : Stops (assign l reason) c why :=
  (answers_assign (Q := fun _ _ => True) hl fun _ _ _ => trivial).stops

/-- **There may be no room for a clause.**  Nothing else stops it from being stored. -/
theorem stops_storeLong {learnt : Bool} (hfull : why .full) (h : Shaped c) (hlen : 3 ≤ clause.length)
    (hknown : ∀ l ∈ clause, l.atom < c.atoms.count) : Stops (storeLong clause learnt) c why := by
  match clause, hlen with
  | first :: second :: third :: rest, _ =>
    unfold storeLong
    refine (stops_onClauses ?_).bind (Q := fun _ d => d.watches = c.watches) (E := fun _ => True) ?_ fun key d hd => ?_
    · split
      · exact ClauseStore.stops_storeLearnt fun _ => hfull
      · exact ClauseStore.stops_storeInput fun _ => hfull
    · rw [meets_onClauses]
      exact meets_of_cases (fun _ _ _ => rfl) fun _ _ _ => trivial
    · refine (stops_onWatches (Watches.answers_watchTwice ?_ ?_).stops).andThen fun _ _ => stops_pure
      · exact hd ▸ h.knows (hknown first (by simp))
      · exact hd ▸ h.knows (hknown second (by simp))

theorem stops_removeLong (ht : c.clauses.Tallied) (hk : c.clauses.literals? key = some (a :: b :: rest))
    (ha : c.watches.knows a = true) (hb : c.watches.knows b = true) : Stops (removeLong key) c why := by
  obtain ⟨stored, hfind, hlits⟩ := ClauseStore.literals?_eq_some_iff.1 hk
  unfold removeLong
  refine (stops_onClauses (ht.remove hfind).stops).bind (Q := fun s d => s = stored ∧ d.watches = c.watches)
    (E := fun _ => True) ?_ fun s d ⟨hs, hd⟩ => ?_
  · rw [meets_onClauses]
    exact (ht.remove hfind).meets.mono (fun _ _ hs => ⟨hs.1, rfl⟩) fun _ => id
  · subst hs
    rw [hlits]
    exact stops_onWatches (Watches.answers_unwatchTwice (hd ▸ ha) (hd ▸ hb)).stops

/-- A clause that is stored may be removed. -/
theorem stops_removeStored {ls : Clause} (h : Shaped c) (ht : c.clauses.Tallied) (hk : c.clauses.literals? key = some ls) :
    Stops (removeLong key) c why := by
  obtain ⟨a, b, rest, rfl⟩ := h.exists_watched hk
  obtain ⟨-, -, hknown⟩ := h.long key _ hk
  exact stops_removeLong ht hk (h.knows (hknown a (by simp))) (h.knows (hknown b (by simp)))

/-! ## Reduction -/

/-- Some keys are different, and each leads to a clause. -/
structure Listing (keys : List ClauseKey) (c : Context) : Prop where
  nodup : keys.Nodup
  found : ∀ key ∈ keys, ∃ ls, c.clauses.literals? key = some ls

theorem Listing.tail {keys : List ClauseKey} (h : Listing (key :: keys) c)
    (hd : ∀ k, k ≠ key → d.clauses.literals? k = c.clauses.literals? k) : Listing keys d := by
  obtain ⟨hnot, hnodup⟩ := List.nodup_cons.1 h.nodup
  refine ⟨hnodup, fun k hk => ?_⟩
  rw [hd k fun he => hnot (he ▸ hk)]
  exact h.found k (List.mem_cons_of_mem _ hk)

theorem listing_byActivity (ht : c.clauses.Tallied) : Listing ((byActivity c).map (·.1)) c := by
  have hperm : ((byActivity c).map (·.1)).Perm c.clauses.learntKeys := by
    unfold byActivity ClauseStore.learntKeys
    refine ((c.random.sort_perm _).map _).trans (.of_eq ?_)
    rw [List.map_map]
    rfl
  refine ⟨hperm.nodup_iff.2 ht.learntTally.nodup_keys, fun key hk => ?_⟩
  obtain ⟨stored, hfind⟩ := ht.find_learnt (hperm.mem_iff.1 hk)
  exact ⟨_, ClauseStore.literals?_of_find hfind⟩

theorem stops_removeInactive {limit : Float} : ∀ (half : Nat) (list : List (ClauseKey × Float)) (c : Context),
    Sound f settled c → c.clauses.Tallied → Listing (list.map (·.1)) c → (∀ p ∈ list, p.1.isLearnt = true) →
    Stops (removeInactive limit half list) c why
  | _, [], _, _, _, _, _ => stops_pure
  | half, (key, activity) :: rest, c, h, ht, hl, hlearnt => by
    have hrest : ∀ p ∈ rest, p.1.isLearnt = true := fun p hp => hlearnt p (List.mem_cons_of_mem _ hp)
    obtain ⟨ls, hk⟩ := hl.found key List.mem_cons_self
    unfold removeInactive
    refine ((answers_isLocked h.shaped).2 ⟨rfl, rfl⟩).stops_bind (Q := fun b d => b = c.locked key ∧ d = c)
      fun _ d hlocked => ?_
    rw [hlocked.1, hlocked.2]
    split
    · rename_i hgo
      rw [Bool.and_eq_true, Bool.not_eq_true'] at hgo
      refine (stops_removeStored h.shaped ht hk).bind
        ((meets_giveUp h (hlearnt _ List.mem_cons_self) hgo.1).and (within_removeLong (R := Still) c).meets) fun _ d hremoved => ?_
      obtain ⟨⟨hd, hc⟩, hs⟩ := hremoved
      exact stops_removeInactive (half - 1) rest d hd (hs.tallied ht) (hl.tail hc.elsewhere) hrest
    · exact stops_removeInactive (half - 1) rest c h ht (hl.tail fun _ _ => rfl) hrest

/-- **A reduction never stops.** -/
theorem stops_reduce (h : Sound f settled c) (ht : c.clauses.Tallied) : Stops reduce c why :=
  stops_bind_get.2 (stops_ite (fun _ => stops_pure) fun _ =>
    stops_removeInactive _ _ c h ht (listing_byActivity ht) fun _ hp => isLearnt_of_mem_byActivity h.slotted hp)

/-! ## Simplification -/

theorem stops_dropBinary : ∀ (list : List Literal) (c : Context), Sound f settled c →
    (∀ l ∈ list, l ∈ c.trail.upTo 0) → Stops (dropBinary list) c why
  | [], _, _, _ => stops_pure
  | l :: rest, c, h, hl => by
    have hmem := hl l List.mem_cons_self
    have hknown := h.trailed.mem_known (Trail.upTo_subset_literals hmem)
    unfold dropBinary
    refine (stops_onWatches (Watches.answers_removeBinaryOf (h.shaped.knows hknown) fun b hb =>
      h.shaped.knows (h.shaped.binary l b hb).2.2).stops).bind (meets_removeBinaryOf h hmem) fun _ d hremoved => ?_
    obtain ⟨hd, ht⟩ := hremoved
    refine stops_dropBinary rest d hd fun m hm => ?_
    rw [ht.trail]
    exact hl m (List.mem_cons_of_mem _ hm)

/-- **A clause that is stored may be simplified** where all is propagated. -/
theorem stops_simplifyClause (h : Rooted f settled c) (ht : c.clauses.Tallied)
    (hk : ∃ ls, c.clauses.literals? key = some ls) : Stops (simplifyClause key) c why := by
  obtain ⟨ls, hk⟩ := hk
  obtain ⟨stored, hfind, rfl⟩ := ClauseStore.literals?_eq_some_iff.1 hk
  unfold simplifyClause
  refine Answers.stops_bind (Q := fun s d => s = stored ∧ d = c) (answers_findClause.2 ⟨stored, hfind, rfl, rfl⟩)
    fun s d ⟨hs, hd⟩ => ?_
  subst hs hd
  obtain ⟨-, -, hknown⟩ := h.shaped.long key _ hk
  refine Answers.stops_bind (Q := fun b e => b = s.literals.any d.atoms.trueAtRoot ∧ e = d)
    (((gives_someTrueAtRoot s.literals).answers hknown).2 ⟨rfl, rfl⟩) fun _ e ⟨hb, he⟩ => ?_
  subst hb he
  refine stops_ite (fun _ => ?_) fun hsat => ?_
  · refine ((answers_isLocked h.shaped).2 rfl).stops_bind (Q := fun _ d => d = e) fun _ d hd => ?_
    subst hd
    exact stops_ite (fun _ => stops_pure) fun _ => stops_removeStored h.shaped ht hk
  rw [stops_bind_get]
  have hall : (s.literals.all fun l => e.atoms.knows l.atom) = true :=
    List.all_eq_true.2 fun l hl => decide_eq_true (hknown l hl)
  refine Answers.stops_bind (Q := fun _ d => d = e) (answers_require.2 ⟨hall, rfl⟩) fun _ d hd => ?_
  subst hd
  refine stops_ite (fun _ => stops_pure) fun _ => ?_
  have hs : ∀ m ∈ s.literals, m ∉ d.trail.literals.toList := fun m hm hmt =>
    hsat (List.any_eq_true.2 ⟨m, hm, h.trueAtRoot_iff.2 hmt⟩)
  obtain ⟨a, b, rest, hlits, hatRoot⟩ := atRoot_eq h hfind hs
  have hle : (s.atRoot d.atoms).length ≤ s.literals.length := List.length_filter_le ..
  have ha := h.shaped.knows (hknown a (hlits ▸ by simp))
  have hb := h.shaped.knows (hknown b (hlits ▸ by simp))
  generalize (rest.filter fun l => !d.atoms.falseAtRoot l) = left at hatRoot
  rw [hatRoot] at hle ⊢
  dsimp only
  rw [stops_bind_modify]
  have hstrip := ht.strip hfind hle
  refine (stops_onClauses hstrip.stops).bind (Q := fun _ e => e.clauses.Tallied ∧ e.watches = d.watches ∧
    e.clauses.literals? key = some (a :: b :: left)) (E := fun _ => True) ?_ fun _ e ⟨he, hw, hkey⟩ => ?_
  · rw [meets_onClauses]
    refine ((hstrip.meets (E := fun _ => True)).and (ClauseStore.meets_noteLiteralsRemoved
      (ClauseStore.slotted_setLiterals h.slotted key _) key _)).mono (fun _ t ⟨htally, _, hlt⟩ => ⟨htally, rfl, ?_⟩)
      fun _ _ => trivial
    rw [hlt, ClauseStore.literals?_setLiterals hk, if_pos rfl]
  · rw [← hw] at ha hb
    refine stops_ite (fun _ => ?_) fun _ => stops_pure
    refine (stops_removeLong he hkey ha hb).bind (meets_removeLong he.toSlotted hkey) fun _ g ⟨t, _, hg⟩ => ?_
    subst hg
    exact stops_onWatches (Watches.answers_watchBinary (by simpa using ha) (by simpa using hb)).stops

theorem stops_simplifyAll (h : Rooted f settled c) (ht : c.clauses.Tallied) : Stops simplifyAll c why := by
  unfold simplifyAll
  rw [stops_bind_get]
  refine (stops_dropBinary _ c h.toSound fun l hl => h.upTo_zero.symm ▸ hl).bind
    ((meets_dropBinary _ c h.toSound fun l hl => h.upTo_zero.symm ▸ hl).and (within_dropBinary (R := Still) _ c).meets)
    fun _ d ⟨⟨hd, htrim⟩, hs⟩ => ?_
  have htally := hs.tallied ht
  rw [stops_bind_get]
  refine Stops.andThen ?_ fun _ _ => stops_modify
  obtain ⟨hnodup, hfound⟩ := htally.keys
  refine stops_forM (I := fun keys e => Rooted f settled e ∧ e.clauses.Tallied ∧ Listing keys e) (E := fun _ => True)
    (fun key rest e ⟨he, het, hl⟩ => ⟨stops_simplifyClause he het (hl.found key List.mem_cons_self), ?_⟩) _ d
    ⟨h.trimmed hd htrim, htally, hnodup, fun key hk => ?_⟩
  · refine ((meets_simplifyClause he).and (within_simplifyClause (R := Still) e).meets).mono (fun _ u ⟨⟨hu, hc⟩, hs⟩ => ?_)
      fun _ _ => trivial
    exact ⟨he.trimmed hu hc.toTrimmed, hs.tallied het, hl.tail hc.elsewhere⟩
  · obtain ⟨stored, hfind⟩ := hfound key hk
    exact ⟨_, ClauseStore.literals?_of_find hfind⟩

/-- **A simplification at level zero never stops**, where all is propagated or it is known that there is no model. -/
theorem stops_simplify (hl : c.trail.level = 0) (h : c.state ≠ .unsatisfiable → Rooted f settled c)
    (ht : c.clauses.Tallied) : Stops simplify c why := by
  unfold simplify
  rw [stops_bind_get, if_neg (by omega)]
  refine stops_ite (fun _ => stops_pure) fun hs => ?_
  have h := h hs
  refine (answers_propagate_rest (Q := fun r d => r = .complete ∧ d = c) h.head ⟨rfl, rfl⟩).stops_bind
    fun r d ⟨hr, hd⟩ => ?_
  subst hr hd
  exact stops_bind_get.2 (stops_ite (fun _ => stops_pure) fun _ => stops_simplifyAll h ht)

/-! ## Choosing a decision -/

/-- **A draw answers**, with a declared probability. -/
theorem answers_chance {p : Float} (hz : 0.0 ≤ p) (ho : p ≤ 1.0) : Answers (chance p) c fun _ _ => True := by
  obtain ⟨drawn, hdrawn⟩ := c.random.exists_chance hz ho
  unfold chance
  rw [answers_bind, answers_get, answers_bind, answers_expect]
  refine ⟨drawn, hdrawn, ?_⟩
  rw [answers_bind, answers_modify, answers_pure]
  trivial

theorem stops_randomAtom (ho : c.options.Declared) : Stops randomAtom c why := by
  unfold randomAtom
  rw [stops_bind_get]
  refine stops_ite (fun _ => stops_pure) fun hne => ?_
  rw [stops_bind_get]
  refine (answers_chance (c := c) ho.randomChance.le_value ho.randomChance.value_le).and (meets_chance
    (Q := fun _ d => d.atoms = c.atoms) (E := fun _ => True) fun _ _ => rfl) |>.stops_bind fun wanted d ⟨_, hd⟩ => ?_
  refine stops_ite (fun _ => ?_) fun _ => stops_pure
  rw [stops_bind_get]
  obtain ⟨drawn, hdrawn⟩ := d.random.exists_below hne
  refine Answers.stops_bind (Q := fun p e => p = drawn ∧ e = d) (answers_expect.2 ⟨drawn, hdrawn, rfl, rfl⟩)
    fun p e ⟨hp, he⟩ => ?_
  subst hp he
  rw [stops_bind_modify]
  obtain ⟨r, hr⟩ := AtomTable.exists_record (t := e.atoms) (hd ▸ Chance.lt_of_below? hdrawn)
  exact Answers.stops_bind (Q := fun _ _ => True) (answers_record.2 ⟨r, hr, trivial⟩) fun _ _ _ => stops_pure

/-- **Every atom on the heap has a record**, so the heap may be emptied. -/
theorem stops_mostActiveFor : ∀ (fuel : Nat) (c : Context), c.atoms.Stocked → Stops (mostActiveFor fuel) c why
  | 0, _, _ => stops_pure
  | fuel + 1, c, h => by
    unfold mostActiveFor
    have hpop := gives_onAtoms (c := c) AtomTable.Call.gives_popMostActive
    refine ((hpop.answers h).2 ⟨rfl, rfl⟩).stops_bind (Q := fun popped d => popped = c.atoms.popMostActive.1 ∧
      d = { c with atoms := c.atoms.popMostActive.2 }) fun popped d hpopped => ?_
    obtain ⟨rfl, rfl⟩ := hpopped
    rcases htop : c.atoms.popMostActive with ⟨_ | a, t⟩
    · exact stops_pure
    obtain ⟨hrecords, hlt, hbut, -⟩ := AtomTable.popMostActive_eq_some h htop
    obtain ⟨r, hr⟩ := AtomTable.exists_record (t := t) (a := a) (by
      unfold AtomTable.count
      rw [hrecords]
      exact hlt)
    refine Answers.stops_bind (Q := fun r' d => r' = r ∧ d = { c with atoms := t })
      (answers_record.2 ⟨r, hr, rfl, rfl⟩) fun r' d hfound => ?_
    obtain ⟨rfl, rfl⟩ := hfound
    refine stops_ite (fun _ => stops_pure) fun hsome => stops_mostActiveFor fuel _ (hbut.stocked fun hv => hsome ?_)
    rw [AtomTable.value_of_record hr] at hv
    exact Option.isNone_iff_eq_none.2 hv

/-- **Choosing a decision never stops.** -/
theorem stops_chooseDecision (hs : c.atoms.Stocked) (hbound : c.atoms.count ≤ atomLimit) (ho : c.options.Declared) :
    Stops chooseDecision c why := by
  have hnote : Unmoved c { c with atoms := c.atoms.noteDecision } :=
    ⟨⟨rfl, rfl, id, AtomTable.records_noteDecision _, AtomTable.stocked_noteDecision, .refl _, rfl, rfl⟩, rfl, rfl, rfl⟩
  have hvalue : ∀ (a : Nat) (d : Context), Picked c (some a) d → d.options = c.options → Stops (do
      let c ← get
      let value ←
        if c.options.phaseSaving.value then pure (← record a).previous
        else chance c.options.positiveChance.value
      pure (some (Literal.ofAtom a value))) d why := by
    rintro a d ⟨hlt, hchosen⟩ hoptions
    have hatom := Literal.atom_ofAtom (Literal.lt_of_lt_atomLimit (Nat.lt_of_lt_of_le hlt hbound)) true
    have hcount : d.atoms.count = c.atoms.count := (hchosen _ hatom).unmoved.count
    obtain ⟨r, hr⟩ := AtomTable.exists_record (hcount.symm ▸ hlt)
    have hchance : 0.0 ≤ d.options.positiveChance.value ∧ d.options.positiveChance.value ≤ 1.0 :=
      hoptions ▸ ⟨ho.positiveChance.le_value, ho.positiveChance.value_le⟩
    rw [stops_bind_get]
    refine stops_ite (fun _ => ?_) fun _ => (answers_chance hchance.1 hchance.2).stops.andThen fun _ _ => stops_pure
    exact Stops.andThen (answers_record (Q := fun _ _ => True).2 ⟨r, hr, trivial⟩).stops fun _ _ => stops_pure
  unfold chooseDecision
  rw [stops_bind_modify]
  refine Stops.bind (stops_randomAtom ho) ((meets_randomAtom hs hnote).and (within_randomAtom (R := Still) _).meets) fun drawn d ⟨hd, hstill⟩ => ?_
  cases drawn with
  | some a => exact hvalue a d (hd.2 a rfl) hstill.options
  | none =>
    dsimp only
    unfold mostActiveAtom
    refine Stops.bind (stops_bind_get.2 (stops_mostActiveFor _ d (hd.1.stocked hs)))
      ((meets_mostActiveFor hs _ d hd.1 (Nat.lt_succ_self _)).and (within_mostActiveFor (R := Still) _ d).meets) fun choice e ⟨he, hstill'⟩ => ?_
    cases choice with
    | none => exact stops_pure
    | some a => exact hvalue a e he (hstill'.options.trans hstill.options)

/-! ## Learning -/

/-- **There may be no room for what is learnt.** -/
theorem stops_learn {first : Literal} (hfull : why .full) (h : Shaped c)
    (hknown : ∀ l ∈ first :: rest, l.atom < c.atoms.count) :
    Stops (learn (first :: rest)) c why := by
  have hfirst := hknown first List.mem_cons_self
  match rest, hknown with
  | [], _ =>
    unfold learn
    refine (stops_assign hfirst).bind (within_assign (R := Still) c).meets fun _ d hd => ?_
    refine ((gives_onAtoms AtomTable.Call.gives_setLevel).stops ?_).andThen fun _ _ => stops_modify
    exact hd.count.symm ▸ hfirst
  | [second], hknown =>
    refine (stops_onWatches (Watches.answers_watchBinary (h.knows hfirst) (h.knows (hknown second (by simp)))).stops).bind
      (within_onWatches (R := Still) c).meets fun _ d hd => ?_
    exact stops_assign (hd.count.symm ▸ hfirst)
  | second :: third :: rest, hknown =>
    unfold learn
    exact (stops_storeLong hfull h (by simp) hknown).bind (within_storeLong (R := Still) _ c).meets fun key d hd =>
      stops_assign (hd.count.symm ▸ hfirst)

theorem stops_countdown (h : c.Paced) : Stops countdown c why := by
  unfold countdown
  rw [stops_bind_get]
  refine (stops_require (decide_eq_true ?_)).andThen fun _ _ => stops_ite (fun _ => stops_modify) fun _ => stops_modify
  have := h.adjustIn
  unfold leastCountdown
  omega

end Solver
end Cdcl
