import Cdcl.Proofs.StoreCounts
/-!
# StoreHistory — the store against all that was asked of it

All that is asked of a store is a `Request`, and a failure is a reply like others.  What should be under a key is told by
the requests and replies alone (`account`): the clause that was stored, with the exchanges of literals made since, until
the clause is removed.

A key is answered once at most, for of each slot no token is left that is at most one that was answered (`Spent`): the
clause in a slot has the last token, and so has the key by which the slot was freed.  A slot whose tokens have run out
is in use no more.  So a key leads where the account says (`history_exact`), also where slots are used again.
-/
namespace Cdcl
namespace ClauseStore

open Run

/-! ## Requests -/

inductive Request
  | store (learnt : Bool) (literals : Clause)
  | remove (key : ClauseKey)
  | swap (key : ClauseKey) (i j : Nat)
  | bump (key : ClauseKey)
  | decay

inductive Reply
  | key (k : ClauseKey)
  | clause (c : StoredClause)
  | done

def storeAs (learnt : Bool) (literals : Clause) : Run ClauseStore ClauseKey :=
  if learnt then Call.storeLearnt literals else Call.storeInput literals

/-- Serves a request by the calls of the store. -/
def Request.perform : Request → Run ClauseStore (Except Failure Reply)
  | .store learnt literals => attempt do
    let key ← storeAs learnt literals
    pure (.key key)
  | .remove key => attempt do
    let c ← Call.remove key
    pure (.clause c)
  | .swap key i j => attempt do
    Call.swap key i j
    pure .done
  | .bump key => do
    modify (·.bump key)
    pure (.ok .done)
  | .decay => do
    modify ClauseStore.decay
    pure (.ok .done)

/-- A request and its reply. -/
abbrev Event := Request × Except Failure Reply

/-- The keys that were answered, the last first. -/
def issued : List Event → List ClauseKey
  | [] => []
  | (.store _ _, .ok (.key k)) :: past => k :: issued past
  | _ :: past => issued past

/-- The keys whose clauses were removed, the last first. -/
def dropped : List Event → List ClauseKey
  | [] => []
  | (.remove k, .ok _) :: past => k :: dropped past
  | _ :: past => dropped past

/-- The literals that a key should lead to: those stored under it, with the exchanges made since. -/
def account : List Event → ClauseKey → Option Clause
  | [], _ => none
  | (.store _ literals, .ok (.key k)) :: past, key => if key = k then some literals else account past key
  | (.remove k, .ok _) :: past, key => if key = k then none else account past key
  | (.swap k i j, .ok _) :: past, key =>
    if key = k then (account past key).bind (·.swap? i j) else account past key
  | _ :: past, key => account past key

/-! ## Slots that stay -/

/-- The same slots are in use, by the same keys, and the same are freed. -/
structure SameSlots (s t : ClauseStore) : Prop where
  input : t.input.size = s.input.size
  slotKeys : t.slotKeys = s.slotKeys
  freed : t.freed = s.freed

variable {s t : ClauseStore} {key : ClauseKey} {keys : List ClauseKey}

theorem SameSlots.refl (s : ClauseStore) : SameSlots s s := ⟨rfl, rfl, rfl⟩

theorem SameSlots.trans {u : ClauseStore} (h : SameSlots s t) (h' : SameSlots t u) : SameSlots s u :=
  ⟨h'.input.trans h.input, h'.slotKeys.trans h.slotKeys, h'.freed.trans h.freed⟩

theorem sameSlots_modifySlot (s : ClauseStore) (key : ClauseKey) {f : StoredClause → StoredClause}
    (hf : ∀ c, (f c).key = c.key) : SameSlots s (s.modifySlot key f) := by
  refine ⟨?_, slotKeys_modifySlot s key hf, freed_modifySlot s key f⟩
  cases key with
  | input i => exact Array.size_modify ..
  | learnt i token => rfl

theorem sameSlots_setActivity (s : ClauseStore) (key : ClauseKey) (activity : Float) :
    SameSlots s (s.setActivity key activity) := sameSlots_modifySlot s key fun _ => rfl

theorem sameSlots_rescale (s : ClauseStore) : SameSlots s s.rescale := ⟨rfl, slotKeys_rescale s, rfl⟩

theorem sameSlots_bump (s : ClauseStore) (key : ClauseKey) : SameSlots s (s.bump key) := by
  unfold bump
  split
  · split
    · exact .refl s
    · dsimp only
      split
      · exact (sameSlots_setActivity ..).trans (sameSlots_rescale _)
      · exact sameSlots_setActivity ..
  · exact .refl s

theorem sameSlots_decay (s : ClauseStore) : SameSlots s s.decay := by
  have hgrown : ∀ options, SameSlots s { s with options } := fun _ => ⟨rfl, rfl, rfl⟩
  unfold decay
  dsimp only
  split
  · exact (hgrown _).trans (sameSlots_rescale _)
  · exact hgrown _

/-! ## Tokens -/

/-- The slots and tokens of some keys are used up: what is in the slot of a learnt key, or was freed there last, has a
token no less.  There are no slots but theirs. -/
structure Spent (keys : List ClauseKey) (s : ClauseStore) : Prop where
  input : ∀ i, .input i ∈ keys → i < s.input.size
  learnt : ∀ i t, .learnt i t ∈ keys → i < s.slotKeys.size
  held : ∀ i t u, .learnt i t ∈ keys → s.slotKeys[i]? = some (some (.learnt i u)) → t ≤ u
  freed : ∀ i t u, .learnt i t ∈ keys → .learnt i u ∈ s.freed → t ≤ u
  inputSize : s.input.size ≤ keys.countP (·.isLearnt == false)
  learntSize : s.slotKeys.size ≤ keys.countP (·.isLearnt == true)

theorem spent_make (options : ClauseOptions) : Spent [] { options } :=
  ⟨nofun, nofun, nofun, nofun, Nat.le_refl _, by simp [slotKeys]⟩

theorem Spent.of_sameSlots (h : Spent keys s) (hs : SameSlots s t) : Spent keys t :=
  ⟨hs.input ▸ h.input, hs.slotKeys ▸ h.learnt, hs.slotKeys ▸ h.held, hs.freed ▸ h.freed, hs.input ▸ h.inputSize,
    hs.slotKeys ▸ h.learntSize⟩

/-- A key whose token is above all those of its slot. -/
def Above (keys : List ClauseKey) (key : ClauseKey) : Prop := ∀ i t u, key = .learnt i u → .learnt i t ∈ keys → t < u

theorem meets_freshLearntKey_spent (h : Spent keys s) :
    Meets Call.freshLearntKey s (fun key t => Spent keys t ∧ Above keys key) (Spent keys) := by
  have hrest : ∀ freed, freed ⊆ s.freed → Spent keys { s with freed } := fun freed hsub =>
    ⟨h.input, h.learnt, h.held, fun i t u ht hu => h.freed i t u ht (hsub hu), h.inputSize, h.learntSize⟩
  unfold Call.freshLearntKey
  simp only [meets_bind, meets_get]
  cases hr : reuse s.freed with
  | none =>
    simp only [meets_bind, meets_modify, meets_ite, meets_pure, meets_fail]
    refine ⟨fun _ => ⟨hrest [] nofun, fun i t u he ht => ?_⟩, fun _ => hrest [] nofun⟩
    cases he
    have := h.learnt _ t ht
    simp [slotKeys] at this
  | some p =>
    obtain ⟨key, rest⟩ := p
    simp only [meets_bind, meets_modify, meets_pure]
    obtain ⟨j, token, rfl, hsuffix⟩ := reuse_eq_some hr
    refine ⟨hrest rest fun k hk => hsuffix.subset (List.mem_cons_of_mem _ hk), fun i t u he ht => ?_⟩
    cases he
    exact Nat.lt_succ_of_le (h.freed j t token ht (hsuffix.subset List.mem_cons_self))

/-- A slot in which no key is freed is taken, with a token above those before. -/
theorem Spent.take (h : Spent keys s) {i token : Nat} (ha : Above keys (.learnt i token)) (hi : i ≤ s.slotKeys.size)
    (hfree : i ∉ s.freed.map ClauseKey.slot) (hinput : t.input.size = s.input.size) (hfreed : t.freed = s.freed)
    (hk : ∀ j, t.slotKeys[j]? = if j = i then some (some (.learnt i token)) else s.slotKeys[j]?) :
    Spent (.learnt i token :: keys) t := by
  constructor
  · intro j hj
    rw [hinput]
    exact h.input j ((List.mem_cons.1 hj).resolve_left nofun)
  · intro j u hj
    by_contra hle
    have hnone := Array.getElem?_eq_none (Nat.not_lt.1 hle)
    rw [hk] at hnone
    by_cases hji : j = i
    · rw [if_pos hji] at hnone
      cases hnone
    · rw [if_neg hji] at hnone
      have hlt := h.learnt j u (List.mem_of_ne_of_mem (fun he => hji (ClauseKey.learnt.inj he).1) hj)
      exact absurd (Array.getElem?_eq_none_iff.1 hnone) (Nat.not_le.2 hlt)
  · intro j u v hj hv
    rw [hk] at hv
    by_cases hji : j = i
    · rw [if_pos hji] at hv
      cases hv
      rcases List.mem_cons.1 hj with he | hj
      · exact Nat.le_of_eq (ClauseKey.learnt.inj he).2
      · exact Nat.le_of_lt (ha i u token rfl hj)
    · rw [if_neg hji] at hv
      exact h.held j u v (List.mem_of_ne_of_mem (fun he => hji (ClauseKey.learnt.inj he).1) hj) hv
  · intro j u v hj hv
    rw [hfreed] at hv
    have hji : j ≠ i := fun he => hfree (List.mem_map.2 ⟨_, hv, he⟩)
    exact h.freed j u v (List.mem_of_ne_of_mem (fun he => hji (ClauseKey.learnt.inj he).1) hj) hv
  · rw [hinput]
    exact h.inputSize
  · -- beyond the slot that is taken there is none but those before
    have hnone : t.slotKeys[s.slotKeys.size + 1]? = none := by
      rw [hk, if_neg (by omega)]
      exact Array.getElem?_eq_none (Nat.le_succ _)
    have hlearnt := h.learntSize
    rw [List.countP_cons_of_pos rfl]
    exact Nat.le_trans (Array.getElem?_eq_none_iff.1 hnone) (Nat.succ_le_succ hlearnt)

theorem Spent.putLearnt (h : Spent keys t) (hf : Fresh s key t) (ha : Above keys key) (literals : Clause) :
    Spent (key :: keys) (t.putLearnt key literals) := by
  obtain ⟨-, -, i, token, rfl, hi, hfreed⟩ := hf
  have hle : i ≤ t.learnt.size := by
    rcases hi with hi | hi
    · exact Nat.le_of_lt (Array.getElem?_eq_some_iff.1 hi).1
    · exact Nat.le_of_eq hi
  unfold ClauseStore.putLearnt
  extract_lets stored u
  have hu : Spent (.learnt i token :: keys) u := h.take ha (by simpa [slotKeys] using hle) hfreed rfl rfl fun j => by
    rw [getElem?_slotKeys, getElem?_slotKeys]
    show (if i < _ then t.learnt.setIfInBounds i _ else _)[j]?.map _ = _
    rw [getElem?_learnt_putLearnt t i token literals j hle]
    split <;> rfl
  exact hu.of_sameSlots (sameSlots_bump u _)

theorem meets_storeLearnt_spent (h : s.Slotted) (hs : Spent keys s) (literals : Clause) :
    Meets (Call.storeLearnt literals) s (fun key t => Spent (key :: keys) t ∧ key ∉ keys) (Spent keys) := by
  unfold Call.storeLearnt
  simp only [meets_bind, meets_modify, meets_pure]
  refine ((meets_freshLearntKey h).and (meets_freshLearntKey_spent hs)).mono (fun key t ⟨hf, ht, ha⟩ => ?_) fun _ ht => ht.2
  refine ⟨ht.putLearnt hf ha literals, fun hmem => ?_⟩
  obtain ⟨i, token, rfl, -⟩ := hf.slot
  exact absurd (ha i token token rfl hmem) (Nat.lt_irrefl _)

theorem meets_storeInput_spent (hs : Spent keys s) (literals : Clause) :
    Meets (Call.storeInput literals) s (fun key t => Spent (key :: keys) t ∧ key ∉ keys) (Spent keys) := by
  unfold Call.storeInput
  simp only [meets_bind, meets_get, meets_ite, meets_modify, meets_pure, meets_fail]
  refine ⟨fun _ => ⟨?_, fun hmem => absurd (hs.input _ hmem) (Nat.lt_irrefl _)⟩, fun _ => hs⟩
  have hsize : (s.pushInput (.input s.input.size) literals).input.size = s.input.size + 1 := Array.size_push ..
  constructor
  · intro i hi
    rw [hsize]
    rcases List.mem_cons.1 hi with he | hi
    · cases he
      exact Nat.lt_succ_self _
    · exact Nat.lt_succ_of_lt (hs.input i hi)
  · exact fun i t hi => hs.learnt i t ((List.mem_cons.1 hi).resolve_left nofun)
  · exact fun i t u hi => hs.held i t u ((List.mem_cons.1 hi).resolve_left nofun)
  · exact fun i t u hi => hs.freed i t u ((List.mem_cons.1 hi).resolve_left nofun)
  · rw [hsize, List.countP_cons_of_pos rfl]
    exact Nat.succ_le_succ hs.inputSize
  · rw [List.countP_cons_of_neg (by simp [ClauseKey.isLearnt])]
    exact hs.learntSize

/-- **A slot is emptied, and freed by the key of its clause**, whose token is no less than those before. -/
theorem Spent.release (h : Spent keys s) {i token : Nat} (hheld : s.slotKeys[i]? = some (some (.learnt i token)))
    (hinput : t.input = s.input) (hk : t.slotKeys = s.slotKeys.setIfInBounds i none)
    (hfreed : t.freed = .learnt i token :: s.freed) : Spent keys t := by
  constructor
  · exact hinput ▸ h.input
  · intro j u hj
    rw [hk, Array.size_setIfInBounds]
    exact h.learnt j u hj
  · intro j u v hj hv
    rw [hk, Array.getElem?_setIfInBounds] at hv
    by_cases hij : i = j
    · rw [if_pos hij] at hv
      split at hv <;> cases hv
    · rw [if_neg hij] at hv
      exact h.held j u v hj hv
  · intro j u v hj hv
    rw [hfreed] at hv
    rcases List.mem_cons.1 hv with he | hv
    · cases he
      exact h.held i u token hj hheld
    · exact h.freed j u v hj hv
  · exact hinput ▸ h.inputSize
  · rw [hk, Array.size_setIfInBounds]
    exact h.learntSize

theorem slotKeys_free {i : Nat} (hl : t.learnt = s.learnt.setIfInBounds i none) :
    t.slotKeys = s.slotKeys.setIfInBounds i none := by
  refine Array.ext_getElem? fun j => ?_
  rw [getElem?_slotKeys, hl, Array.getElem?_setIfInBounds, Array.getElem?_setIfInBounds, getElem?_slotKeys,
    slotKeys, Array.size_map]
  split
  · split <;> rfl
  · rfl

theorem meets_remove_spent (hs : Spent keys s) (key : ClauseKey) :
    Meets (Call.remove key) s (fun _ t => Spent keys t) fun t => t = s := by
  unfold Call.remove Call.find
  simp only [meets_bind, meets_get, meets_ofExcept]
  refine ⟨fun c hc => ?_, fun e he => trivial⟩
  cases key with
  | input i =>
    simp only [meets_bind, meets_get, meets_require, meets_modify, meets_pure]
    exact fun _ => hs.of_sameSlots ⟨Array.size_setIfInBounds, rfl, rfl⟩
  | learnt i token =>
    simp only [meets_bind, meets_get, meets_require, meets_modify, meets_pure]
    have hheld := slotKeys_eq_some_iff.2 ⟨c, getElem?_learnt_of_find hc, key_of_find hc⟩
    exact fun _ => hs.release hheld rfl (slotKeys_free rfl) rfl

theorem remove_of_find_error {e : ClauseError} (h : s.find key = .error e) :
    Call.remove key s = .error (.failure (.clauses e)) s := by
  have hfind : Call.find key s = .error (.failure (.clauses e)) s := by
    show (ofExcept Failure.clauses (s.find key) : Run ClauseStore StoredClause) s = _
    rw [h]
    rfl
  exact bind_of_error hfind

theorem meets_remove_tallied (h : s.Tallied) (key : ClauseKey) :
    Meets (Call.remove key) s (fun _ t => t.Tallied) fun _ => True := by
  cases hf : s.find key with
  | ok c => exact (h.remove hf).meets.mono (fun _ _ ht => ht.2) fun _ => id
  | error e =>
    unfold Meets
    rw [remove_of_find_error hf]
    trivial

/-! ## Every request -/

/-- A store is as the requests and replies tell. -/
structure Faithful (past : List Event) (s : ClauseStore) : Prop where
  tallied : s.Tallied
  spent : Spent (issued past) s
  literals : ∀ key, s.literals? key = account past key
  once : (issued past).Nodup
  known : ∀ key ∈ dropped past, key ∈ issued past
  live : ∀ key, (account past key).isSome ↔ key ∈ issued past ∧ key ∉ dropped past

theorem faithful_make (options : ClauseOptions) : Faithful [] { options } where
  tallied := tallied_make options
  spent := spent_make options
  literals key := by
    refine literals?_eq_none_of_slot ?_
    cases key <;> rfl
  once := List.nodup_nil
  known := nofun
  live key := by simp [account, issued]

namespace Faithful

variable {past : List Event} {literals : Clause}

/-- A request that changes no literals, takes no slot and empties none. -/
theorem keep (h : Faithful past s) (e : Event) (ht : t.Tallied) (hspent : Spent (issued past) t)
    (hl : ∀ k, t.literals? k = s.literals? k) (ha : account (e :: past) = account past)
    (hi : issued (e :: past) = issued past) (hd : dropped (e :: past) = dropped past) : Faithful (e :: past) t where
  tallied := ht
  spent := hi ▸ hspent
  literals key := by rw [hl, h.literals, ha]
  once := hi ▸ h.once
  known := by
    rw [hi, hd]
    exact h.known
  live := by
    rw [ha, hi, hd]
    exact h.live

theorem fail (h : Faithful past s) (r : Request) (f : Failure) (ht : t.Tallied) (hspent : Spent (issued past) t)
    (hl : ∀ k, t.literals? k = s.literals? k) : Faithful ((r, .error f) :: past) t := by
  refine h.keep _ ht hspent hl ?_ ?_ ?_ <;> cases r <;> rfl

/-- **A clause is stored under a key that was not answered before.** -/
theorem store (h : Faithful past s) (learnt : Bool) (ht : t.Tallied) (hspent : Spent (key :: issued past) t)
    (hnew : key ∉ issued past) (hstored : Stored s key literals t) :
    Faithful ((.store learnt literals, .ok (.key key)) :: past) t where
  tallied := ht
  spent := hspent
  literals k := by
    rw [hstored.literals, h.literals]
    rfl
  once := List.nodup_cons.2 ⟨hnew, h.once⟩
  known k hk := List.mem_cons_of_mem _ (h.known k hk)
  live k := by
    show (if k = key then some literals else account past k).isSome ↔ k ∈ key :: issued past ∧ k ∉ dropped past
    by_cases hk : k = key
    · subst hk
      simp only [if_true, Option.isSome_some, List.mem_cons_self, true_and, true_iff]
      exact fun hd => hnew (h.known k hd)
    · rw [if_neg hk, h.live, List.mem_cons, or_iff_right hk]

/-- **A removed key leads nowhere**, now and later. -/
theorem remove (h : Faithful past s) (c : StoredClause) (ht : t.Tallied) (hspent : Spent (issued past) t)
    (hfound : (account past key).isSome) (hremoved : Removed s key t) :
    Faithful ((.remove key, .ok (.clause c)) :: past) t where
  tallied := ht
  spent := hspent
  literals k := by
    rw [hremoved.literals, h.literals]
    rfl
  once := h.once
  known k hk := by
    rcases List.mem_cons.1 hk with rfl | hk
    · exact ((h.live k).1 hfound).1
    · exact h.known k hk
  live k := by
    show (if k = key then none else account past k).isSome ↔ k ∈ issued past ∧ k ∉ key :: dropped past
    by_cases hk : k = key
    · simp [hk]
    · rw [if_neg hk, h.live, List.mem_cons, or_iff_right hk]

theorem swap (h : Faithful past s) {i j : Nat} {old new : Clause} (ht : t.Tallied) (hspent : Spent (issued past) t)
    (hold : s.literals? key = some old) (hnew : old.swap? i j = some new)
    (hl : ∀ k, t.literals? k = if k = key then some new else s.literals? k) :
    Faithful ((.swap key i j, .ok .done) :: past) t where
  tallied := ht
  spent := hspent
  literals k := by
    rw [hl, h.literals]
    show _ = if k = key then (account past k).bind (·.swap? i j) else account past k
    by_cases hk : k = key
    · rw [if_pos hk, if_pos hk, hk, ← h.literals, hold]
      exact hnew.symm
    · rw [if_neg hk, if_neg hk]
  once := h.once
  known := h.known
  live k := by
    refine Iff.trans ?_ (h.live k)
    show (if k = key then (account past k).bind (·.swap? i j) else account past k).isSome ↔ _
    by_cases hk : k = key
    · rw [if_pos hk, hk, ← h.literals, hold, Option.bind_some, hnew]
      simp
    · rw [if_neg hk]

theorem meets_stored (h : Faithful past s) (learnt : Bool) (literals : Clause) :
    Meets (storeAs learnt literals) s
      (fun key t => t.Tallied ∧ Spent (key :: issued past) t ∧ key ∉ issued past ∧ Stored s key literals t)
      (fun t => t.Tallied ∧ Spent (issued past) t ∧ ∀ k, t.literals? k = s.literals? k) := by
  have hslotted := h.tallied.toSlotted
  unfold storeAs
  rw [meets_ite]
  constructor
  · intro _
    refine ((h.tallied.storeLearnt.and (meets_storeLearnt_spent hslotted h.spent literals)).and
      (meets_storeLearnt hslotted literals)).mono (fun key t ht => ?_) fun t ht => ?_
    · exact ⟨ht.1.1, ht.1.2.1, ht.1.2.2, ht.2.1⟩
    · exact ⟨ht.1.1, ht.1.2, ht.2.2⟩
  · intro _
    refine ((h.tallied.storeInput.and (meets_storeInput_spent h.spent literals)).and
      (meets_storeInput hslotted literals)).mono (fun key t ht => ?_) fun t ht => ?_
    · exact ⟨ht.1.1, ht.1.2.1, ht.1.2.2, ht.2.1⟩
    · exact ⟨ht.1.1, ht.1.2, fun k => by rw [ht.2]⟩

/-- **Every request keeps a store as the requests and replies tell.** -/
theorem next (h : Faithful past s) (r : Request) :
    Meets r.perform s (fun a t => Faithful ((r, a) :: past) t) fun _ => True := by
  have hslotted := h.tallied.toSlotted
  cases r with
  | store learnt literals =>
    refine meets_attempt ?_
    rw [meets_bind]
    refine (h.meets_stored learnt literals).mono (fun key t ht => ?_) fun t ht f => ?_
    · obtain ⟨htallied, hspent, hnew, hstored⟩ := ht
      exact h.store learnt htallied hspent hnew hstored
    · obtain ⟨htallied, hspent, hl⟩ := ht
      exact h.fail _ f htallied hspent hl
  | remove key =>
    refine meets_attempt ?_
    rw [meets_bind]
    refine (((meets_remove hslotted key).and (meets_remove_spent h.spent key)).and
      (meets_remove_tallied h.tallied key)).mono (fun c t ht => ?_) fun t ht f => ?_
    · obtain ⟨⟨⟨hc, hremoved⟩, hspent⟩, htallied⟩ := ht
      refine h.remove c htallied hspent ?_ hremoved
      rw [← h.literals, literals?_of_find hc]
      rfl
    · obtain ⟨⟨⟨rfl, -⟩, -⟩, -⟩ := ht
      exact h.fail _ f h.tallied h.spent fun _ => rfl
  | swap key i j =>
    refine meets_attempt ?_
    unfold Call.swap Call.find
    simp only [meets_bind, meets_get, meets_ofExcept, meets_expect, meets_modify, meets_pure]
    refine ⟨fun c hc new hnew => ?_, fun e _ f => h.fail _ f h.tallied h.spent fun _ => rfl⟩
    have hold := literals?_of_find hc
    have hsame : SameSlots s (s.setLiterals key new) := sameSlots_modifySlot s key fun _ => rfl
    have hlength := (Clause.perm_of_swap? hnew).length_eq
    exact h.swap (h.tallied.setLiterals hc hlength) (h.spent.of_sameSlots hsame) hold hnew
      (literals?_setLiterals hold new)
  | bump key =>
    have hsame := sameSlots_bump s key
    exact h.keep _ (h.tallied.bump key) (h.spent.of_sameSlots hsame) (literals?_bump s key) rfl rfl rfl
  | decay =>
    exact h.keep _ h.tallied.decay (h.spent.of_sameSlots (sameSlots_decay s)) (literals?_decay s) rfl rfl rfl

end Faithful

/-- **Whatever is asked of a store, it is as the requests and replies tell.** -/
theorem faithful_of_trace {options : ClauseOptions} {past : List Event}
    (ht : Trace Request.perform { options } past s) : Faithful past s := by
  induction ht with
  | nil => exact faithful_make options
  | cons _ hr ih => exact (ih.next _).of_ok hr

/-! ## A slot that is used again -/

theorem freed_of_remove {i token : Nat} {c : StoredClause} (h : Call.remove (.learnt i token) s = .ok c t) :
    t.freed = .learnt i token :: s.freed := by
  suffices hm : Meets (Call.remove (.learnt i token)) s (fun _ t => t.freed = .learnt i token :: s.freed) fun _ => True from
    hm.of_ok h
  unfold Call.remove Call.find
  simp only [meets_bind, meets_get, meets_ofExcept, meets_require, meets_modify, meets_pure, implies_true, and_self]

/-- **The slot of a removed clause is used again**, with the next token. -/
theorem storeAs_of_freed {i token : Nat} {freed : List ClauseKey} (h : s.freed = .learnt i token :: freed)
    (ht : token < tokenMax) (literals : Clause) : ∃ t, storeAs true literals s = .ok (.learnt i (token + 1)) t := by
  have hretoken : (ClauseKey.learnt i token).retoken = .ok (.learnt i (token + 1)) := if_pos ht
  have hreuse : reuse s.freed = some (.learnt i (token + 1), freed) := by
    rw [h]
    unfold reuse
    rw [hretoken]
  have hfresh : Call.freshLearntKey s = .ok (.learnt i (token + 1)) { s with freed } := by
    refine (bind_of_ok (get_apply s)).trans ?_
    rw [hreuse]
    rfl
  exact ⟨_, (bind_of_ok hfresh).trans rfl⟩

theorem perform_remove {c : StoredClause} (h : Call.remove key s = .ok c t) :
    (Request.remove key).perform s = .ok (.ok (.clause c)) t := by
  have hreply : (do pure (Reply.clause (← Call.remove key)) : Run ClauseStore Reply) s = .ok (.clause c) t := bind_of_ok h
  exact attempt_eq_ok_iff.2 (.inl ⟨_, rfl, hreply⟩)

theorem perform_store {learnt : Bool} {literals : Clause} (h : storeAs learnt literals s = .ok key t) :
    (Request.store learnt literals).perform s = .ok (.ok (.key key)) t := by
  have hreply : (do pure (Reply.key (← storeAs learnt literals)) : Run ClauseStore Reply) s = .ok (.key key) t :=
    bind_of_ok h
  exact attempt_eq_ok_iff.2 (.inl ⟨_, rfl, hreply⟩)

/-! ## What a store tells -/

/-- What is found in a store, and what it counts, by the requests and replies. -/
structure Keeps (past : List Event) (s : ClauseStore) : Prop where
  once : (issued past).Nodup
  found : ∀ key, (∃ c, s.find key = .ok c) ↔ key ∈ issued past ∧ key ∉ dropped past
  literals : ∀ key c, s.find key = .ok c → account past key = some c.literals
  inputKeys : ∀ key, key ∈ s.inputKeys ↔ key.isLearnt = false ∧ key ∈ issued past ∧ key ∉ dropped past
  learntKeys : ∀ key, key ∈ s.learntKeys ↔ key.isLearnt = true ∧ key ∈ issued past ∧ key ∉ dropped past
  listed : (s.inputKeys ++ s.learntKeys).Nodup
  sums : s.Sums
  stores : ∀ learnt literals, Stops (storeAs learnt literals) s (· = .full)
  room : ∀ learnt literals, (issued past).countP (·.isLearnt == learnt) < slotLimit →
    ∃ key t, storeAs learnt literals s = .ok key t
  swaps : ∀ key c i j, s.find key = .ok c → i < c.literals.length → j < c.literals.length →
    ∃ t, Call.swap key i j s = .ok () t
  removes : ∀ key c, s.find key = .ok c → ∃ t, Call.remove key s = .ok c t
  refuses : ∀ key e, s.find key = .error e → Call.remove key s = .error (.failure (.clauses e)) s

theorem Faithful.keeps {past : List Event} (h : Faithful past s) : Keeps past s := by
  have hfound : ∀ key, (∃ c, s.find key = .ok c) ↔ key ∈ issued past ∧ key ∉ dropped past := by
    intro key
    rw [← h.live, ← h.literals, Option.isSome_iff_exists]
    constructor
    · rintro ⟨c, hc⟩
      exact ⟨_, literals?_of_find hc⟩
    · rintro ⟨ls, hls⟩
      obtain ⟨c, hc, -⟩ := literals?_eq_some_iff.1 hls
      exact ⟨c, hc⟩
  have hkeys : ∀ key, key ∈ s.inputKeys ++ s.learntKeys ↔ key ∈ issued past ∧ key ∉ dropped past := fun key =>
    Iff.trans ⟨h.tallied.keys.2 key, fun ⟨_, hc⟩ => mem_keys_of_find hc⟩ (hfound key)
  have hinput : ∀ key ∈ s.inputKeys, key.isLearnt = false := fun key hk => by
    obtain ⟨_, _, -, -, hp⟩ := h.tallied.inputTally.exists_placed hk
    exact hp.kind
  have hlearnt : ∀ key ∈ s.learntKeys, key.isLearnt = true := fun key hk => by
    obtain ⟨_, _, -, -, hp⟩ := h.tallied.learntTally.exists_placed hk
    exact hp.kind
  refine ⟨h.once, hfound, fun key c hc => ?_, fun key => ?_, fun key => ?_, h.tallied.keys.1, h.tallied.sums,
    fun learnt literals => ?_, fun learnt literals hroom => ?_, fun key c i j hc hi hj => ?_, fun key c hc => ?_,
    fun key e => remove_of_find_error⟩
  · rw [← h.literals]
    exact literals?_of_find hc
  · rw [← hkeys, List.mem_append]
    constructor
    · exact fun hk => ⟨hinput key hk, .inl hk⟩
    · rintro ⟨hkind, hk | hk⟩
      · exact hk
      · exact absurd (hkind.symm.trans (hlearnt key hk)) Bool.false_ne_true
  · rw [← hkeys, List.mem_append]
    constructor
    · exact fun hk => ⟨hlearnt key hk, .inr hk⟩
    · rintro ⟨hkind, hk | hk⟩
      · exact absurd ((hinput key hk).symm.trans hkind) Bool.false_ne_true
      · exact hk
  · exact stops_ite (fun _ => stops_storeLearnt fun _ => rfl) fun _ => stops_storeInput fun _ => rfl
  · have hstops : Stops (storeAs learnt literals) s fun _ => False := by
      cases learnt with
      | false => exact stops_storeInput fun hfull => Nat.not_le.2 hroom (Nat.le_trans hfull h.spent.inputSize)
      | true =>
        refine stops_storeLearnt fun hfull => Nat.not_le.2 hroom (Nat.le_trans hfull ?_)
        simpa [slotKeys] using h.spent.learntSize
    obtain ⟨key, t, hr, -⟩ := (h.meets_stored learnt literals).answers_of_stops hstops
    exact ⟨key, t, hr⟩
  · have hswap : c.literals.swap? i j = some (c.literals.toArray.swapIfInBounds i j).toList := if_pos ⟨hi, hj⟩
    suffices hanswers : Answers (Call.swap key i j) s fun _ _ => True by
      obtain ⟨_, t, hr, -⟩ := hanswers
      exact ⟨t, hr⟩
    unfold Call.swap Call.find
    rw [answers_bind, answers_bind, answers_get]
    refine ⟨c, s, by rw [hc]; rfl, ?_⟩
    simp only [answers_bind, answers_expect, answers_modify]
    exact ⟨_, hswap, trivial⟩
  · obtain ⟨d, t, hr, rfl, -⟩ := h.tallied.remove hc
    exact ⟨t, hr⟩

/-- **A store never confuses clauses**, whatever is asked of it and however often its slots are used.  No key is answered
twice.  A key leads to a clause exactly if it was answered and its clause was not removed since, and the literals are
those stored under it, with the exchanges made since.  The keys that are listed are these, each once; the counts are the
numbers and the total lengths of the clauses.  Storing stops only where there is no room, and there is room while fewer clauses
of the kind were stored than there are slots; what is found may be removed, and a removal of anything else fails and changes
nothing. -/
theorem history_exact {options : ClauseOptions} {past : List Event}
    (ht : Trace Request.perform { options } past s) : Keeps past s := (faithful_of_trace ht).keeps

def threeLiterals : Clause := [.ofAtom 0 true, .ofAtom 1 true, .ofAtom 2 true]

/-- An original clause and a learnt one stored, the learnt one removed, and another stored in the slot it had, under the next
token. -/
theorem history_exact_reused :
    ∃ c s,
      Trace Request.perform {}
        [(.store true threeLiterals, .ok (.key (.learnt 0 1))), (.remove (.learnt 0 0), .ok (.clause c)),
          (.store true threeLiterals, .ok (.key (.learnt 0 0))), (.store false threeLiterals, .ok (.key (.input 0)))] s ∧
      Keeps
        [(.store true threeLiterals, .ok (.key (.learnt 0 1))), (.remove (.learnt 0 0), .ok (.clause c)),
          (.store true threeLiterals, .ok (.key (.learnt 0 0))), (.store false threeLiterals, .ok (.key (.input 0)))] s := by
  have h₁ : Trace Request.perform {}
      [(.store true threeLiterals, .ok (.key (.learnt 0 0))), (.store false threeLiterals, .ok (.key (.input 0)))]
      (({ ({} : ClauseStore).pushInput (.input 0) threeLiterals with freed := [] }).putLearnt (.learnt 0 0) threeLiterals) :=
    .cons (.cons .nil rfl) rfl
  obtain ⟨c, hc⟩ := ((faithful_of_trace h₁).keeps.found (.learnt 0 0)).2 (by decide)
  obtain ⟨t, hr⟩ := (faithful_of_trace h₁).keeps.removes _ c hc
  have hfreed : t.freed = [.learnt 0 0] := (freed_of_remove hr).trans (congrArg _ (sameSlots_bump _ _).freed)
  obtain ⟨u, hs⟩ := storeAs_of_freed hfreed (by decide) threeLiterals
  have h₂ := (h₁.cons (perform_remove hr)).cons (perform_store hs)
  exact ⟨c, u, h₂, history_exact h₂⟩

end ClauseStore
end Cdcl
