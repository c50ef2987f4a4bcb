import Cdcl.Clause.Store.Lookup
import Cdcl.Proofs.Outcome
/-!
# StoreKeys — what the store holds after a clause came or went

Each freed key names an empty slot, and no slot is named twice (`Slotted`).  So a stored clause is found under the key
that was answered, which nothing was found under before, and a removed one is found no more; under all other keys the
same literals are found as before.
-/
namespace Cdcl

/-- The store has no room for a further clause. -/
abbrev Interrupt.full : Interrupt := .failure (.clauses .storageExhausted)

namespace ClauseStore

open Run

theorem literals?_eq_some_iff {s : ClauseStore} {key : ClauseKey} {ls : Clause} :
    s.literals? key = some ls ↔ ∃ c, s.find key = .ok c ∧ c.literals = ls := by
  unfold literals?
  cases s.find key <;> simp [Except.toOption]

theorem literals?_of_find {s : ClauseStore} {key : ClauseKey} {c : StoredClause} (h : s.find key = .ok c) :
    s.literals? key = some c.literals := literals?_eq_some_iff.2 ⟨c, h, rfl⟩

/-- The slot of a key that leads to a clause. -/
theorem getElem?_input_of_find {s : ClauseStore} {i : Nat} {c : StoredClause} (h : s.find (.input i) = .ok c) :
    s.input[i]? = some (some c) := by
  have hslot := (find_eq_ok_iff.1 h).1
  simp only [slot, Array.getD_eq_getD_getElem?] at hslot
  cases hi : s.input[i]? <;> simp_all

theorem getElem?_learnt_of_find {s : ClauseStore} {i token : Nat} {c : StoredClause}
    (h : s.find (.learnt i token) = .ok c) : s.learnt[i]? = some (some c) := by
  have hslot := (find_eq_ok_iff.1 h).1
  simp only [slot, Array.getD_eq_getD_getElem?] at hslot
  cases hi : s.learnt[i]? <;> simp_all

theorem literals?_eq (s : ClauseStore) (key : ClauseKey) :
    s.literals? key = (s.slot key).bind fun c => if c.key = key then some c.literals else none := by
  unfold literals? find
  cases s.slot key with
  | none => rfl
  | some c =>
    simp only [Option.bind_some]
    split <;> rfl

/-- **Changing the literals of a clause changes what its key leads to, and nothing else.** -/
theorem literals?_setLiterals {s : ClauseStore} {key : ClauseKey} {old : Clause} (h : s.literals? key = some old)
    (literals : Clause) (k : ClauseKey) :
    (s.setLiterals key literals).literals? k = if k = key then some literals else s.literals? k := by
  obtain ⟨c, hc, -⟩ := literals?_eq_some_iff.1 h
  by_cases hk : k = key
  · rw [if_pos hk, hk]
    exact literals?_of_find (find_setLiterals_self hc literals)
  · rw [if_neg hk]
    unfold literals?
    rw [find_setLiterals_of_ne hc hk]

/-! ## Freed slots -/

/-- The keys of the learnt clauses, by slot. -/
def slotKeys (s : ClauseStore) : Array (Option ClauseKey) := s.learnt.map (Option.map (·.key))

theorem getElem?_slotKeys (s : ClauseStore) (i : Nat) :
    s.slotKeys[i]? = s.learnt[i]?.map (Option.map (·.key)) := Array.getElem?_map ..

theorem slotKeys_eq_none_iff {s : ClauseStore} {i : Nat} : s.slotKeys[i]? = some none ↔ s.learnt[i]? = some none := by
  rw [getElem?_slotKeys]
  cases s.learnt[i]? with
  | none => simp
  | some slot => cases slot <;> simp

theorem slotKeys_eq_some_iff {s : ClauseStore} {i : Nat} {key : ClauseKey} :
    s.slotKeys[i]? = some (some key) ↔ ∃ c, s.learnt[i]? = some (some c) ∧ c.key = key := by
  rw [getElem?_slotKeys]
  cases s.learnt[i]? with
  | none => simp
  | some slot => cases slot <;> simp

/-- Freed keys name empty slots, each of them once, and slots that are in use hold learnt clauses. -/
structure Slotted (s : ClauseStore) : Prop where
  empty : ∀ key ∈ s.freed, ∃ i token, key = .learnt i token ∧ s.slotKeys[i]? = some none
  distinct : (s.freed.map ClauseKey.slot).Nodup
  learnt : ∀ (i : Nat) (key : ClauseKey), s.slotKeys[i]? = some (some key) → key.isLearnt = true

theorem slotted_make (options : ClauseOptions) : Slotted { options } := ⟨by simp, by simp, by simp [slotKeys]⟩

theorem Slotted.of_eq {s t : ClauseStore} (h : s.Slotted) (hf : t.freed = s.freed) (hk : t.slotKeys = s.slotKeys) :
    t.Slotted := ⟨hf ▸ hk ▸ h.empty, hf ▸ h.distinct, hk ▸ h.learnt⟩

/-- Two stores that lead to the same literals. -/
structure Alike (s t : ClauseStore) : Prop where
  literals : ∀ key, t.literals? key = s.literals? key
  slotted : s.Slotted → t.Slotted

namespace Alike

theorem refl (s : ClauseStore) : Alike s s := ⟨fun _ => rfl, id⟩

theorem trans {s t u : ClauseStore} (h : Alike s t) (h' : Alike t u) : Alike s u :=
  ⟨fun key => (h'.literals key).trans (h.literals key), h'.slotted ∘ h.slotted⟩

end Alike

theorem freed_modifySlot (s : ClauseStore) (key : ClauseKey) (f : StoredClause → StoredClause) :
    (s.modifySlot key f).freed = s.freed := by cases key <;> rfl

theorem slotKeys_modifySlot (s : ClauseStore) (key : ClauseKey) {f : StoredClause → StoredClause}
    (hf : ∀ c, (f c).key = c.key) : (s.modifySlot key f).slotKeys = s.slotKeys := by
  cases key with
  | input i => rfl
  | learnt i token =>
    refine Array.ext_getElem? fun j => ?_
    rw [getElem?_slotKeys, getElem?_slotKeys]
    simp only [modifySlot, Array.getElem?_modify]
    split
    · cases s.learnt[j]? with
      | none => rfl
      | some slot => cases slot <;> simp [hf]
    · rfl

theorem slotted_setLiterals {s : ClauseStore} (h : s.Slotted) (key : ClauseKey) (literals : Clause) :
    (s.setLiterals key literals).Slotted :=
  h.of_eq (freed_modifySlot ..) (slotKeys_modifySlot s key fun _ => rfl)

theorem alike_setActivity (s : ClauseStore) (key : ClauseKey) (activity : Float) :
    Alike s (s.setActivity key activity) where
  literals := literals?_setActivity s key activity
  slotted h := h.of_eq (freed_modifySlot ..) (slotKeys_modifySlot s key fun _ => rfl)

theorem slotKeys_rescale (s : ClauseStore) : s.rescale.slotKeys = s.slotKeys := by
  refine Array.ext_getElem? fun i => ?_
  rw [getElem?_slotKeys, getElem?_slotKeys]
  simp only [rescale, Array.getElem?_map]
  cases s.learnt[i]? with
  | none => rfl
  | some slot => cases slot <;> rfl

theorem alike_rescale (s : ClauseStore) : Alike s s.rescale where
  literals := literals?_rescale s
  slotted h := h.of_eq rfl (slotKeys_rescale s)

/-- **Bumping a clause changes no literals and no slots.** -/
theorem alike_bump (s : ClauseStore) (key : ClauseKey) : Alike s (s.bump key) := by
  unfold bump
  split
  · split
    · exact .refl s
    · dsimp only
      split
      · exact (alike_setActivity ..).trans (alike_rescale _)
      · exact alike_setActivity ..
  · exact .refl s

theorem alike_decay (s : ClauseStore) : Alike s s.decay := by
  unfold decay
  dsimp only
  split
  · refine Alike.trans ?_ (alike_rescale _)
    exact ⟨fun _ => rfl, fun h => h.of_eq rfl rfl⟩
  · exact ⟨fun _ => rfl, fun h => h.of_eq rfl rfl⟩

/-! ## Storing -/

/-- A clause has come to a store, under a key that led to nothing. -/
structure Stored (s : ClauseStore) (key : ClauseKey) (literals : Clause) (t : ClauseStore) : Prop where
  slotted : t.Slotted
  fresh : s.literals? key = none
  literals : ∀ k, t.literals? k = if k = key then some literals else s.literals? k

theorem literals?_eq_none_of_slot {s : ClauseStore} {key : ClauseKey} (h : s.slot key = none) :
    s.literals? key = none := by
  rw [literals?_eq, h]
  rfl

theorem meets_storeInput {s : ClauseStore} (h : s.Slotted) (literals : Clause) :
    Meets (Call.storeInput literals) s (fun key t => Stored s key literals t ∧ key.isLearnt = false) (· = s) := by
  unfold Call.storeInput
  simp only [meets_bind, meets_get, meets_ite, meets_modify, meets_pure, meets_fail]
  refine ⟨fun _ => ⟨⟨h.of_eq rfl rfl, ?_, fun k => ?_⟩, rfl⟩, fun _ => trivial⟩
  · refine literals?_eq_none_of_slot ?_
    simp [slot]
  · rw [literals?_eq, literals?_eq s]
    cases k with
    | learnt i token => rfl
    | input i =>
      simp only [slot, pushInput, Array.getD_eq_getD_getElem?, Array.getElem?_push, ClauseKey.input.injEq]
      split
      · rename_i hi
        simp [hi]
      · rfl

/-- **A clause that was pushed is found under its key**, and all else as before. -/
theorem find_pushInput {s : ClauseStore} {key : ClauseKey} {stored : StoredClause} (literals : Clause) :
    (s.pushInput (.input s.input.size) literals).find key = .ok stored ↔
      s.find key = .ok stored ∨ key = .input s.input.size ∧ stored = ⟨key, literals, 0.0⟩ := by
  rw [find_eq_ok_iff, find_eq_ok_iff]
  cases key with
  | learnt i token => simp [slot, pushInput]
  | input i =>
    simp only [slot, pushInput, Array.getD_eq_getD_getElem?, Array.getElem?_push, ClauseKey.input.injEq]
    by_cases hi : i = s.input.size
    · subst hi
      rw [if_pos rfl, Array.getElem?_eq_none (Nat.le_refl _)]
      constructor
      · rintro ⟨he, -⟩
        cases he
        exact .inr ⟨rfl, rfl⟩
      · rintro (⟨he, -⟩ | ⟨-, rfl⟩)
        · cases he
        · exact ⟨rfl, rfl⟩
    · rw [if_neg hi]
      simp [hi]

theorem answers_storeInput {s : ClauseStore} (literals : Clause) (hroom : s.input.size < slotLimit) :
    Answers (Call.storeInput literals) s fun key t => key = .input s.input.size ∧ t = s.pushInput key literals := by
  unfold Call.storeInput
  rw [answers_bind, answers_get]
  dsimp only
  rw [if_pos hroom, answers_bind, answers_modify, answers_pure]
  exact ⟨rfl, rfl⟩

theorem storeInput_of_full {s : ClauseStore} (literals : Clause) (hfull : slotLimit ≤ s.input.size) :
    Call.storeInput literals s = .error .full s := by
  unfold Call.storeInput
  rw [bind_of_ok (get_apply s), if_neg (Nat.not_lt.2 hfull), fail_apply]

theorem reuse_eq_some : ∀ {freed rest : List ClauseKey} {key : ClauseKey}, reuse freed = some (key, rest) →
    ∃ i token, key = .learnt i (token + 1) ∧ .learnt i token :: rest <:+ freed
  | [], _, _, h => by cases h
  | k :: freed, rest, key, h => by
    unfold reuse at h
    cases k with
    | input i =>
      obtain ⟨j, token, hkey, hsuffix⟩ := reuse_eq_some h
      exact ⟨j, token, hkey, hsuffix.trans (List.suffix_cons ..)⟩
    | learnt i token =>
      by_cases ht : token < tokenMax
      · simp only [ClauseKey.retoken, if_pos ht, Option.some.injEq, Prod.mk.injEq] at h
        obtain ⟨rfl, rfl⟩ := h
        exact ⟨i, token, rfl, List.suffix_refl _⟩
      · simp only [ClauseKey.retoken, if_neg ht] at h
        obtain ⟨j, token, hkey, hsuffix⟩ := reuse_eq_some h
        exact ⟨j, token, hkey, hsuffix.trans (List.suffix_cons ..)⟩

/-- The slot of a fresh key is empty, or the next one. -/
structure Fresh (s : ClauseStore) (key : ClauseKey) (t : ClauseStore) : Prop where
  slotted : t.Slotted
  literals : ∀ k, t.literals? k = s.literals? k
  slot : ∃ i token, key = .learnt i token ∧ (t.learnt[i]? = some none ∨ i = t.learnt.size) ∧
    i ∉ t.freed.map ClauseKey.slot

theorem meets_freshLearntKey {s : ClauseStore} (h : s.Slotted) :
    Meets Call.freshLearntKey s (Fresh s) (fun t => t.Slotted ∧ ∀ k, t.literals? k = s.literals? k) := by
  unfold Call.freshLearntKey
  simp only [meets_bind, meets_get]
  cases hr : reuse s.freed with
  | none =>
    simp only [meets_bind, meets_modify, meets_ite, meets_pure, meets_fail]
    have hnil : ({ s with freed := [] } : ClauseStore).Slotted := ⟨by simp, by simp, h.learnt⟩
    exact ⟨fun _ => ⟨hnil, fun _ => rfl, _, _, rfl, .inr rfl, by simp⟩, fun _ => ⟨hnil, fun _ => rfl⟩⟩
  | some p =>
    obtain ⟨key, rest⟩ := p
    simp only [meets_bind, meets_modify, meets_pure]
    obtain ⟨i, token, rfl, hsuffix⟩ := reuse_eq_some hr
    have hdistinct := h.distinct.sublist (hsuffix.sublist.map ClauseKey.slot)
    rw [List.map_cons, List.nodup_cons] at hdistinct
    refine ⟨⟨fun k hk => h.empty k (hsuffix.subset (List.mem_cons_of_mem _ hk)), hdistinct.2, h.learnt⟩, fun _ => rfl,
      i, token + 1, rfl, .inl ?_, hdistinct.1⟩
    obtain ⟨j, token', he, hj⟩ := h.empty _ (hsuffix.subset List.mem_cons_self)
    cases he
    exact slotKeys_eq_none_iff.1 hj

theorem getElem?_learnt_putLearnt (s : ClauseStore) (i token : Nat) (literals : Clause) (j : Nat)
    (hi : i ≤ s.learnt.size) :
    (if i < s.learnt.size then
        s.learnt.setIfInBounds i (some { key := .learnt i token, literals, activity := 0.0 : StoredClause })
      else s.learnt.push (some { key := .learnt i token, literals, activity := 0.0 }))[j]? =
      if j = i then some (some { key := .learnt i token, literals, activity := 0.0 }) else s.learnt[j]? := by
  split
  · rw [Array.getElem?_setIfInBounds]
    grind
  · rw [Array.getElem?_push]
    grind

/-- **A learnt clause put into the slot of a fresh key is found under that key.** -/
theorem stored_putLearnt {s t : ClauseStore} {key : ClauseKey} (h : Fresh s key t) (literals : Clause) :
    Stored s key literals (t.putLearnt key literals) := by
  obtain ⟨hslotted, hliterals, i, token, rfl, hi, hfreed⟩ := h
  have hle : i ≤ t.learnt.size := by
    rcases hi with hi | hi
    · exact Nat.le_of_lt (Array.getElem?_eq_some_iff.1 hi).1
    · exact Nat.le_of_eq hi
  have hlearnt := getElem?_learnt_putLearnt t i token literals
  have hempty : (t.learnt[i]?).getD none = none := by
    rcases hi with hi | hi
    · rw [hi]
      rfl
    · rw [hi, Array.getElem?_eq_none (Nat.le_refl _)]
      rfl
  unfold putLearnt
  refine ⟨(alike_bump _ _).slotted ⟨fun k hk => ?_, hslotted.distinct, fun j k hk => ?_⟩, ?_, fun k => ?_⟩
  · obtain ⟨j, token', rfl, hj⟩ := hslotted.empty k hk
    refine ⟨j, token', rfl, slotKeys_eq_none_iff.2 ?_⟩
    show (if i < _ then t.learnt.setIfInBounds i _ else _)[j]? = _
    rw [hlearnt j hle, if_neg, slotKeys_eq_none_iff.1 hj]
    rintro rfl
    exact hfreed (List.mem_map.2 ⟨_, hk, rfl⟩)
  · obtain ⟨c, hc, hck⟩ := slotKeys_eq_some_iff.1 hk
    replace hc : (if i < _ then t.learnt.setIfInBounds i _ else _)[j]? = _ := hc
    rw [hlearnt j hle] at hc
    split at hc
    · cases hc
      rw [← hck]
      rfl
    · exact hslotted.learnt j k (slotKeys_eq_some_iff.2 ⟨c, hc, hck⟩)
  · rw [← hliterals]
    refine literals?_eq_none_of_slot ?_
    rw [slot, Array.getD_eq_getD_getElem?, hempty]
  · rw [literals?_bump, ← hliterals, literals?_eq, literals?_eq t]
    cases k with
    | input j => rfl
    | learnt j token' =>
      simp only [slot, Array.getD_eq_getD_getElem?, ClauseKey.learnt.injEq]
      show ((if i < _ then t.learnt.setIfInBounds i _ else _)[j]?.getD none).bind _ = _
      rw [hlearnt j hle]
      by_cases hj : j = i
      · subst hj
        rw [if_pos rfl, hempty]
        simp only [Option.getD_some, Option.bind_some, Option.bind_none, ClauseKey.learnt.injEq, true_and]
        by_cases ht : token = token'
        · rw [if_pos ht, if_pos ht.symm]
        · rw [if_neg ht, if_neg (Ne.symm ht)]
      · rw [if_neg hj, if_neg fun e => hj e.1]

theorem meets_storeLearnt {s : ClauseStore} (h : s.Slotted) (literals : Clause) :
    Meets (Call.storeLearnt literals) s (fun key t => Stored s key literals t ∧ key.isLearnt = true)
      (fun t => t.Slotted ∧ ∀ k, t.literals? k = s.literals? k) := by
  unfold Call.storeLearnt
  simp only [meets_bind, meets_modify, meets_pure]
  refine (meets_freshLearntKey h).mono (fun key t hf => ⟨stored_putLearnt hf literals, ?_⟩) fun _ => id
  obtain ⟨_, _, rfl, _⟩ := hf.slot
  rfl

/-- **Storing stops only where there is no room.** -/
theorem stops_storeInput {s : ClauseStore} {ls : Clause} {why : Interrupt → Prop}
    (hfull : slotLimit ≤ s.input.size → why .full) : Stops (Call.storeInput ls) s why :=
  stops_bind_get.2 (stops_ite (fun _ => stops_bind_modify.2 stops_pure) fun hno => stops_fail (hfull (Nat.not_lt.1 hno)))

theorem stops_freshLearntKey {s : ClauseStore} {why : Interrupt → Prop} (hfull : slotLimit ≤ s.learnt.size → why .full) :
    Stops Call.freshLearntKey s why := by
  refine stops_bind_get.2 ?_
  cases reuse s.freed with
  | some p => exact stops_bind_modify.2 stops_pure
  | none =>
    exact stops_bind_modify.2 (stops_ite (fun _ => stops_pure) fun hno => stops_fail (hfull (Nat.not_lt.1 hno)))

theorem stops_storeLearnt {s : ClauseStore} {ls : Clause} {why : Interrupt → Prop}
    (hfull : slotLimit ≤ s.learnt.size → why .full) : Stops (Call.storeLearnt ls) s why :=
  (stops_freshLearntKey hfull).andThen fun _ _ => stops_bind_modify.2 stops_pure

/-! ## Removing -/

/-- A clause has gone from a store. -/
structure Removed (s : ClauseStore) (key : ClauseKey) (t : ClauseStore) : Prop where
  slotted : t.Slotted
  literals : ∀ k, t.literals? k = if k = key then none else s.literals? k

/-- Where an input slot is emptied its key leads nowhere. -/
theorem literals?_withdraw {s t : ClauseStore} {i : Nat} (hi : t.input = s.input.setIfInBounds i none)
    (hl : t.learnt = s.learnt) (k : ClauseKey) : t.literals? k = if k = .input i then none else s.literals? k := by
  rw [literals?_eq, literals?_eq s]
  cases k with
  | learnt j token => simp [slot, hl]
  | input j =>
    simp only [slot, hi, Array.getD_eq_getD_getElem?, Array.getElem?_setIfInBounds, ClauseKey.input.injEq]
    by_cases hj : j = i
    · have hnone : (if i < s.input.size then some (none : Option StoredClause) else none).getD none = none := by
        split <;> rfl
      simp [hj, hnone]
    · simp [hj, Ne.symm hj]

/-- **Where the slot of a learnt clause is emptied nothing is found under its key**, and under all others the same. -/
theorem find_free {s t : ClauseStore} {i token : Nat} {c : StoredClause} (hc : s.find (.learnt i token) = .ok c)
    (hi : t.input = s.input) (hl : t.learnt = s.learnt.setIfInBounds i none) (k : ClauseKey) (stored : StoredClause) :
    t.find k = .ok stored ↔ k ≠ .learnt i token ∧ s.find k = .ok stored := by
  rw [find_eq_ok_iff, find_eq_ok_iff]
  have hin := getElem?_learnt_of_find hc
  have hlt := (Array.getElem?_eq_some_iff.1 hin).1
  cases k with
  | input j => simp [slot, hi]
  | learnt j token' =>
    simp only [slot, hl, Array.getD_eq_getD_getElem?, Array.getElem?_setIfInBounds, ne_eq, ClauseKey.learnt.injEq]
    by_cases hj : j = i
    · subst hj
      -- the slot held the clause of the key, and of no other
      rw [if_pos rfl, if_pos hlt, hin]
      constructor
      · rintro ⟨hnone, -⟩
        cases hnone
      · rintro ⟨hne, hd, hkey⟩
        cases hd
        rw [key_of_find hc] at hkey
        exact absurd (ClauseKey.learnt.inj hkey.symm) hne
    · rw [if_neg (Ne.symm hj)]
      simp [hj]

theorem literals?_free {s t : ClauseStore} {i token : Nat} {c : StoredClause} (hc : s.find (.learnt i token) = .ok c)
    (hi : t.input = s.input) (hl : t.learnt = s.learnt.setIfInBounds i none) (k : ClauseKey) :
    t.literals? k = if k = .learnt i token then none else s.literals? k := by
  ext ls
  rw [literals?_eq_some_iff]
  simp only [find_free hc hi hl]
  by_cases hk : k = .learnt i token
  · simp [hk]
  · simp [hk, literals?_eq_some_iff]

/-- **The key of an emptied slot may be freed.** -/
theorem slotted_free {s t : ClauseStore} (h : s.Slotted) {i token : Nat} {c : StoredClause}
    (hc : s.find (.learnt i token) = .ok c) (hl : t.learnt = s.learnt.setIfInBounds i none)
    (hf : t.freed = .learnt i token :: s.freed) : t.Slotted := by
  have hin := getElem?_learnt_of_find hc
  have hlt := (Array.getElem?_eq_some_iff.1 hin).1
  refine ⟨fun k hk => ?_, ?_, fun j k hk => ?_⟩
  · rw [hf] at hk
    rcases List.mem_cons.1 hk with rfl | hk
    · refine ⟨i, token, rfl, slotKeys_eq_none_iff.2 ?_⟩
      rw [hl, Array.getElem?_setIfInBounds_self_of_lt hlt]
    · obtain ⟨j, token', rfl, hj⟩ := h.empty k hk
      refine ⟨j, token', rfl, slotKeys_eq_none_iff.2 ?_⟩
      have := slotKeys_eq_none_iff.1 hj
      rw [hl, Array.getElem?_setIfInBounds]
      grind
  · rw [hf, List.map_cons, List.nodup_cons]
    refine ⟨fun hmem => ?_, h.distinct⟩
    obtain ⟨k, hk, hki⟩ := List.mem_map.1 hmem
    obtain ⟨j, token', rfl, hj⟩ := h.empty k hk
    rw [slotKeys_eq_none_iff, show j = i from hki, hin] at hj
    cases hj
  · obtain ⟨d, hd, hdk⟩ := slotKeys_eq_some_iff.1 hk
    rw [hl, Array.getElem?_setIfInBounds] at hd
    by_cases hij : i = j
    · rw [if_pos hij, if_pos hlt] at hd
      cases hd
    · rw [if_neg hij] at hd
      exact h.learnt j k (slotKeys_eq_some_iff.2 ⟨d, hd, hdk⟩)

theorem meets_remove {s : ClauseStore} (h : s.Slotted) (key : ClauseKey) :
    Meets (Call.remove key) s (fun c t => s.find key = .ok c ∧ Removed s key t)
      (fun t => t = s ∧ s.literals? key = none) := by
  unfold Call.remove Call.find
  simp only [meets_bind, meets_get, meets_ofExcept]
  refine ⟨fun c hc => ?_, fun e he => ⟨trivial, by rw [literals?, he]; rfl⟩⟩
  cases key with
  | input i =>
    simp only [meets_bind, meets_get, meets_require, meets_modify, meets_pure]
    exact fun _ => ⟨hc, h.of_eq rfl rfl, literals?_withdraw rfl rfl⟩
  | learnt i token =>
    simp only [meets_bind, meets_get, meets_require, meets_modify, meets_pure]
    exact fun _ => ⟨hc, slotted_free h hc rfl rfl, literals?_free hc rfl rfl⟩

theorem meets_noteLiteralsRemoved {s : ClauseStore} (h : s.Slotted) (key : ClauseKey) (n : Nat) :
    Meets (Call.noteLiteralsRemoved key n) s (fun _ t => t.Slotted ∧ ∀ k, t.literals? k = s.literals? k)
      (fun _ => False) := by
  unfold Call.noteLiteralsRemoved
  simp only [meets_bind, meets_get, meets_ite, meets_require, meets_modify]
  exact ⟨fun _ _ => ⟨h.of_eq rfl rfl, fun _ => rfl⟩, fun _ _ => ⟨h.of_eq rfl rfl, fun _ => rfl⟩⟩

end ClauseStore
end Cdcl
