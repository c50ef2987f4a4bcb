import Mathlib
import Cdcl.Proofs.StoreKeys
/-!
# StoreCounts — the store counts what it holds

The store keeps the numbers of its clauses and of their literals, of the formula and learnt.  They are the sums over its
slots (`Tallied`), so a clause that is found may be removed, and literals may be taken from it, without a count going below
zero.  A clause names its slot, so every clause in a slot is found under its key, and no two have the same.
-/
namespace Cdcl
namespace ClauseStore

open Run

/-- The sum of a weight over the clauses in some slots. -/
def total (w : StoredClause → Nat) (slots : Array (Option StoredClause)) : Nat :=
  (slots.toList.map fun slot => slot.elim 0 w).sum

/-- A clause names the slot it is in. -/
structure Placed (learnt : Bool) (i : Nat) (key : ClauseKey) : Prop where
  kind : key.isLearnt = learnt
  slot : key.slot = i

/-- A number of clauses, and one of literals, are those of some slots, and each clause names its slot. -/
structure Tally (learnt : Bool) (slots : Array (Option StoredClause)) (count literals : Nat) : Prop where
  count : count = total (fun _ => 1) slots
  literals : literals = total (fun c => c.literals.length) slots
  placed : ∀ i c, slots[i]? = some (some c) → Placed learnt i c.key

/-- The counts are those of the slots. -/
structure Counted (s : ClauseStore) : Prop where
  inputTally : Tally false s.input s.inputCount s.inputLiterals
  learntTally : Tally true s.learnt s.learntCount s.learntLiterals

structure Tallied (s : ClauseStore) : Prop extends Slotted s, Counted s

variable {w : StoredClause → Nat} {slots : Array (Option StoredClause)} {i count literals : Nat} {s t : ClauseStore}
  {key : ClauseKey} {c : StoredClause} {ls : Clause} {learnt : Bool}

/-! ## Sums over slots -/

theorem total_push (w : StoredClause → Nat) (slots : Array (Option StoredClause)) (slot : Option StoredClause) :
    total w (slots.push slot) = total w slots + slot.elim 0 w := by
  simp [total]

/-- **A slot that changes changes the sum by what it held and by what it holds.** -/
theorem total_set {old : Option StoredClause} (h : slots[i]? = some old) (slot : Option StoredClause) :
    total w (slots.setIfInBounds i slot) + old.elim 0 w = total w slots + slot.elim 0 w := by
  obtain ⟨hlt, he⟩ := Array.getElem?_eq_some_iff.1 h
  have hlt' : i < slots.toList.length := by simpa using hlt
  obtain ⟨before, rest, hold, hnew⟩ : ∃ before rest, slots.toList = before ++ old :: rest ∧
      (slots.setIfInBounds i slot).toList = before ++ slot :: rest := by
    refine ⟨slots.toList.take i, slots.toList.drop (i + 1), ?_, ?_⟩
    · rw [← he, ← Array.getElem_toList, ← List.drop_eq_getElem_cons hlt', List.take_append_drop]
    · rw [Array.toList_setIfInBounds, List.set_eq_take_append_cons_drop, if_pos hlt']
  unfold total
  rw [hold, hnew]
  simp only [List.map_append, List.map_cons, List.sum_append, List.sum_cons]
  omega

theorem modify_eq_set {f : StoredClause → StoredClause} (h : slots[i]? = some (some c)) :
    slots.modify i (Option.map f) = slots.setIfInBounds i (some (f c)) := by
  refine Array.ext_getElem? fun j => ?_
  rw [Array.getElem?_modify, Array.getElem?_setIfInBounds]
  by_cases hj : i = j
  · subst hj
    rw [if_pos rfl, if_pos rfl, if_pos (Array.getElem?_eq_some_iff.1 h).1, h]
    rfl
  · rw [if_neg hj, if_neg hj]

theorem total_map {f : StoredClause → StoredClause} (hf : ∀ c, w (f c) = w c) :
    total w (slots.map (Option.map f)) = total w slots := by
  unfold total
  rw [Array.toList_map, List.map_map]
  congr 1
  refine List.map_congr_left fun slot _ => ?_
  cases slot with
  | none => rfl
  | some c => exact hf c

/-! ## Counts -/

namespace Tally

theorem empty : Tally learnt #[] 0 0 := ⟨rfl, rfl, nofun⟩

theorem placed_set (h : Tally learnt slots count literals) {slot : Option StoredClause}
    (hs : ∀ c, slot = some c → Placed learnt i c.key) (j : Nat) (c : StoredClause)
    (hj : (slots.setIfInBounds i slot)[j]? = some (some c)) : Placed learnt j c.key := by
  rw [Array.getElem?_setIfInBounds] at hj
  split at hj
  · rename_i hij
    split at hj
    · exact hij ▸ hs c (Option.some.inj hj)
    · cases hj
  · exact h.placed j c hj

theorem push (h : Tally learnt slots count literals) (hc : Placed learnt slots.size c.key) :
    Tally learnt (slots.push (some c)) (count + 1) (literals + c.literals.length) where
  count := by rw [total_push, ← h.count]; rfl
  literals := by rw [total_push, ← h.literals]; rfl
  placed j d hj := by
    rw [Array.getElem?_push] at hj
    split at hj
    · rename_i he
      cases hj
      exact he ▸ hc
    · exact h.placed j d hj

theorem fill (h : Tally learnt slots count literals) (hi : slots[i]? = some none) (hc : Placed learnt i c.key) :
    Tally learnt (slots.setIfInBounds i (some c)) (count + 1) (literals + c.literals.length) where
  count := by
    have := total_set (w := fun _ => 1) hi (some c)
    simp only [Option.elim] at this
    rw [h.count]
    omega
  literals := by
    have := total_set (w := fun c => c.literals.length) hi (some c)
    simp only [Option.elim] at this
    rw [h.literals]
    omega
  placed := h.placed_set fun _ he => Option.some.inj he ▸ hc

/-- **A clause that takes a slot is counted**, with its literals. -/
theorem clear (h : Tally learnt slots count literals) (hi : slots[i]? = some (some c)) :
    (1 ≤ count ∧ c.literals.length ≤ literals) ∧
      Tally learnt (slots.setIfInBounds i none) (count - 1) (literals - c.literals.length) := by
  have hcount := total_set (w := fun _ => 1) hi none
  have hliterals := total_set (w := fun c => c.literals.length) hi none
  simp only [Option.elim] at hcount hliterals
  have := h.count
  have := h.literals
  exact ⟨⟨by omega, by omega⟩, by omega, by omega, h.placed_set nofun⟩

/-- Literals may be taken from a clause that takes a slot. -/
theorem change (h : Tally learnt slots count literals) (hi : slots[i]? = some (some c)) (f : StoredClause → StoredClause)
    (hf : (f c).literals.length ≤ c.literals.length) (hk : (f c).key = c.key) :
    c.literals.length - (f c).literals.length ≤ literals ∧
      Tally learnt (slots.modify i (Option.map f)) count (literals - (c.literals.length - (f c).literals.length)) := by
  have hcount := total_set (w := fun _ => 1) hi (some (f c))
  have hliterals := total_set (w := fun c => c.literals.length) hi (some (f c))
  rw [modify_eq_set hi]
  simp only [Option.elim] at hcount hliterals
  have := h.count
  have := h.literals
  refine ⟨by omega, by omega, by omega, h.placed_set fun _ he => ?_⟩
  rw [← Option.some.inj he, hk]
  exact h.placed i c hi

theorem map (h : Tally learnt slots count literals) (f : StoredClause → StoredClause)
    (hf : ∀ c, (f c).literals.length = c.literals.length) (hk : ∀ c, (f c).key = c.key) :
    Tally learnt (slots.map (Option.map f)) count literals where
  count := h.count.trans (total_map (w := fun _ => 1) (f := f) fun _ => rfl).symm
  literals := h.literals.trans (total_map hf).symm
  placed i c hi := by
    rw [Array.getElem?_map] at hi
    obtain ⟨slot, hslot, he⟩ := Option.map_eq_some_iff.1 hi
    obtain ⟨d, rfl, rfl⟩ := Option.map_eq_some_iff.1 he
    rw [hk]
    exact h.placed i d hslot

theorem modify (h : Tally learnt slots count literals) (f : StoredClause → StoredClause)
    (hf : ∀ c, (f c).literals.length = c.literals.length) (hk : ∀ c, (f c).key = c.key) :
    Tally learnt (slots.modify i (Option.map f)) count literals := by
  by_cases hc : ∃ c, slots[i]? = some (some c)
  · obtain ⟨c, hi⟩ := hc
    have := (h.change hi f (Nat.le_of_eq (hf c)) (hk c)).2
    rwa [hf, Nat.sub_self, Nat.sub_zero] at this
  · have hsame : slots.modify i (Option.map f) = slots := Array.ext_getElem? fun j => by
      rw [Array.getElem?_modify]
      split
      · rename_i hj
        subst hj
        match hi : slots[i]? with
        | none => rfl
        | some none => rfl
        | some (some c) => exact absurd ⟨c, hi⟩ hc
      · rfl
    rwa [hsame]

end Tally

/-! ## Changes of the store -/

theorem tallied_make (options : ClauseOptions) : Tallied { options } := ⟨slotted_make options, ⟨.empty, .empty⟩⟩

namespace Counted

theorem setActivity (h : s.Counted) (key : ClauseKey) (activity : Float) : (s.setActivity key activity).Counted := by
  constructor <;> cases key
  · exact h.inputTally.modify _ (fun _ => rfl) fun _ => rfl
  · exact h.inputTally
  · exact h.learntTally
  · exact h.learntTally.modify _ (fun _ => rfl) fun _ => rfl

theorem rescale (h : s.Counted) : s.rescale.Counted :=
  ⟨h.inputTally, h.learntTally.map _ (fun _ => rfl) fun _ => rfl⟩

theorem bump (h : s.Counted) (key : ClauseKey) : (s.bump key).Counted := by
  unfold ClauseStore.bump
  split
  · split
    · exact h
    · dsimp only
      split
      · exact (h.setActivity key _).rescale
      · exact h.setActivity key _
  · exact h

theorem decay (h : s.Counted) : s.decay.Counted := by
  unfold ClauseStore.decay
  dsimp only
  have hgrown : ∀ options, ({ s with options } : ClauseStore).Counted := fun _ => ⟨h.inputTally, h.learntTally⟩
  split
  · exact (hgrown _).rescale
  · exact hgrown _

/-- The literals of a clause may be put in another order. -/
theorem setLiterals (h : s.Counted) (hc : s.find key = .ok c) (hl : ls.length = c.literals.length) :
    (s.setLiterals key ls).Counted := by
  constructor <;> cases key
  · have := (h.inputTally.change (getElem?_input_of_find hc) (fun c => { c with literals := ls }) (Nat.le_of_eq hl) rfl).2
    dsimp only at this
    rwa [hl, Nat.sub_self, Nat.sub_zero] at this
  · exact h.inputTally
  · exact h.learntTally
  · have := (h.learntTally.change (getElem?_learnt_of_find hc) (fun c => { c with literals := ls }) (Nat.le_of_eq hl) rfl).2
    dsimp only at this
    rwa [hl, Nat.sub_self, Nat.sub_zero] at this

/-- A learnt clause is counted in the slot of a fresh key. -/
theorem putLearnt (h : t.Counted) (hf : Fresh s key t) (ls : Clause) : (t.putLearnt key ls).Counted := by
  obtain ⟨i, token, rfl, hi, -⟩ := hf.slot
  unfold ClauseStore.putLearnt
  extract_lets stored u
  have hu : u.Counted := by
    refine ⟨h.inputTally, ?_⟩
    show Tally true (if i < _ then _ else _) _ _
    split
    · rename_i hlt
      exact h.learntTally.fill (hi.resolve_right (Nat.ne_of_lt hlt)) ⟨rfl, rfl⟩
    · rename_i hle
      exact h.learntTally.push ⟨rfl, hi.resolve_left fun hi => hle (Array.getElem?_eq_some_iff.1 hi).1⟩
  exact hu.bump _

end Counted

theorem Tallied.bump (h : s.Tallied) (key : ClauseKey) : (s.bump key).Tallied :=
  ⟨(alike_bump s key).slotted h.toSlotted, h.toCounted.bump key⟩

theorem Tallied.decay (h : s.Tallied) : s.decay.Tallied := ⟨(alike_decay s).slotted h.toSlotted, h.toCounted.decay⟩

theorem Tallied.setLiterals (h : s.Tallied) (hc : s.find key = .ok c) (hl : ls.length = c.literals.length) :
    (s.setLiterals key ls).Tallied := ⟨slotted_setLiterals h.toSlotted key ls, h.toCounted.setLiterals hc hl⟩

/-- **Literals may be taken from a clause**, and are counted no more then. -/
theorem Tallied.strip (h : s.Tallied) (hc : s.find key = .ok c) (hl : ls.length ≤ c.literals.length) :
    Answers (Call.noteLiteralsRemoved key (c.literals.length - ls.length)) (s.setLiterals key ls) fun _ t => t.Tallied := by
  have hslotted := slotted_setLiterals h.toSlotted key ls
  unfold Call.noteLiteralsRemoved
  simp only [answers_bind, answers_get, answers_ite, answers_require, answers_modify, decide_eq_true_eq]
  cases key with
  | input i =>
    obtain ⟨hle, htally⟩ := h.inputTally.change (getElem?_input_of_find hc) (fun c => { c with literals := ls }) hl rfl
    exact ⟨nofun, fun _ => ⟨hle, hslotted.of_eq rfl rfl, htally, h.learntTally⟩⟩
  | learnt i token =>
    obtain ⟨hle, htally⟩ := h.learntTally.change (getElem?_learnt_of_find hc) (fun c => { c with literals := ls }) hl rfl
    exact ⟨fun _ => ⟨hle, hslotted.of_eq rfl rfl, h.inputTally, htally⟩, fun hne => absurd rfl hne⟩

/-- **A clause that is found may be removed.** -/
theorem Tallied.remove (h : s.Tallied) (hc : s.find key = .ok c) :
    Answers (Call.remove key) s fun d t => d = c ∧ t.Tallied := by
  suffices hanswers : Answers (Call.remove key) s fun d t => d = c ∧ t.Counted by
    obtain ⟨d, t, hr, hd, hcounted⟩ := hanswers
    exact ⟨d, t, hr, hd, ((meets_remove h.toSlotted key).of_ok hr).2.slotted, hcounted⟩
  unfold Call.remove Call.find
  rw [answers_bind, answers_bind, answers_get]
  refine ⟨c, s, by rw [hc]; rfl, ?_⟩
  cases key with
  | input i =>
    obtain ⟨⟨hcount, hliterals⟩, htally⟩ := h.inputTally.clear (getElem?_input_of_find hc)
    rw [answers_bind, answers_get, answers_bind, answers_require, answers_bind, answers_modify, answers_pure]
    exact ⟨by simp [hcount, hliterals], rfl, htally, h.learntTally⟩
  | learnt i token =>
    obtain ⟨⟨hcount, hliterals⟩, htally⟩ := h.learntTally.clear (getElem?_learnt_of_find hc)
    rw [answers_bind, answers_get, answers_bind, answers_require, answers_bind, answers_modify, answers_pure]
    exact ⟨by simp [hcount, hliterals], rfl, h.inputTally, htally⟩

/-! ## Storing -/

theorem Tallied.storeInput (h : s.Tallied) : Meets (Call.storeInput ls) s (fun _ t => t.Tallied) Tallied := by
  unfold Call.storeInput
  simp only [meets_bind, meets_get, meets_ite, meets_modify, meets_pure, meets_fail]
  exact ⟨fun _ => ⟨h.of_eq rfl rfl, h.inputTally.push ⟨rfl, rfl⟩, h.learntTally⟩, fun _ => h⟩

theorem Counted.freshLearntKey (h : s.Counted) : Meets Call.freshLearntKey s (fun _ t => t.Counted) Counted := by
  unfold Call.freshLearntKey
  rw [meets_bind, meets_get]
  cases reuse s.freed with
  | none =>
    simp only [meets_bind, meets_modify, meets_ite, meets_pure, meets_fail]
    exact ⟨fun _ => ⟨h.inputTally, h.learntTally⟩, fun _ => ⟨h.inputTally, h.learntTally⟩⟩
  | some p =>
    obtain ⟨key, rest⟩ := p
    exact ⟨h.inputTally, h.learntTally⟩

theorem Tallied.storeLearnt (h : s.Tallied) : Meets (Call.storeLearnt ls) s (fun _ t => t.Tallied) Tallied := by
  unfold Call.storeLearnt
  simp only [meets_bind, meets_modify, meets_pure]
  exact ((meets_freshLearntKey h.toSlotted).and h.toCounted.freshLearntKey).mono
    (fun key t ⟨hf, ht⟩ => ⟨(stored_putLearnt hf ls).slotted, ht.putLearnt hf ls⟩) fun t ⟨hs, ht⟩ => ⟨hs.1, ht⟩

/-! ## The keys there are -/

theorem Tally.nodup_keys (h : Tally learnt slots count literals) :
    ((slots.toList.filterMap id).map (·.key)).Nodup := by
  rw [List.Nodup, List.pairwise_map, List.pairwise_filterMap, List.pairwise_iff_getElem]
  intro i j hi hj hij c hc d hd he
  have hplaced : ∀ k (hk : k < slots.toList.length) e, id slots.toList[k] = some e → Placed learnt k e.key :=
    fun k hk e he => h.placed k e (by rw [← Array.getElem?_toList, List.getElem?_eq_getElem hk, ← he]; rfl)
  have hslot := (hplaced i hi c hc).slot
  rw [he, (hplaced j hj d hd).slot] at hslot
  exact Nat.ne_of_gt hij hslot

theorem Tally.exists_placed (h : Tally learnt slots count literals)
    (hk : key ∈ (slots.toList.filterMap id).map (·.key)) :
    ∃ i c, slots[i]? = some (some c) ∧ c.key = key ∧ Placed learnt i key := by
  obtain ⟨c, hc, rfl⟩ := List.mem_map.1 hk
  obtain ⟨slot, hslot, rfl⟩ := List.mem_filterMap.1 hc
  obtain ⟨i, hi⟩ := List.mem_iff_getElem?.1 hslot
  rw [Array.getElem?_toList] at hi
  exact ⟨i, c, hi, rfl, h.placed i c hi⟩

theorem Tallied.find_learnt (h : s.Tallied) (hk : key ∈ s.learntKeys) : ∃ c, s.find key = .ok c := by
  obtain ⟨i, c, hi, hkey, hplaced⟩ := h.learntTally.exists_placed hk
  cases key with
  | input j => cases hplaced.kind
  | learnt j token =>
    obtain rfl : j = i := hplaced.slot
    exact ⟨c, find_eq_ok_iff.2 ⟨by rw [slot, Array.getD_eq_getD_getElem?, hi]; rfl, hkey⟩⟩

theorem Tallied.find_input (h : s.Tallied) (hk : key ∈ s.inputKeys) : ∃ c, s.find key = .ok c := by
  obtain ⟨i, c, hi, hkey, hplaced⟩ := h.inputTally.exists_placed hk
  cases key with
  | learnt j token => cases hplaced.kind
  | input j =>
    obtain rfl : j = i := hplaced.slot
    exact ⟨c, find_eq_ok_iff.2 ⟨by rw [slot, Array.getD_eq_getD_getElem?, hi]; rfl, hkey⟩⟩

/-- **Every clause is found under its key, and no two have the same.** -/
theorem Tallied.keys (h : s.Tallied) : (s.inputKeys ++ s.learntKeys).Nodup ∧
    ∀ key ∈ s.inputKeys ++ s.learntKeys, ∃ c, s.find key = .ok c := by
  refine ⟨List.nodup_append.2 ⟨h.inputTally.nodup_keys, h.learntTally.nodup_keys, fun k hk m hm he => ?_⟩, fun key hk => ?_⟩
  · obtain ⟨_, _, -, -, hp⟩ := h.inputTally.exists_placed hk
    obtain ⟨_, _, -, -, hq⟩ := h.learntTally.exists_placed (he ▸ hm)
    exact Bool.false_ne_true (hp.kind.symm.trans hq.kind)
  · exact (List.mem_append.1 hk).elim h.find_input h.find_learnt

theorem keys_eq (s : ClauseStore) : s.inputKeys ++ s.learntKeys = s.clauses.map (·.key) := by
  unfold inputKeys learntKeys clauses
  rw [List.filterMap_append, List.map_append]

theorem mem_clauses_of_find (h : s.find key = .ok c) : c ∈ s.clauses := by
  refine List.mem_filterMap.2 ⟨some c, List.mem_append.2 ?_, rfl⟩
  cases key with
  | input i => exact .inl (Array.mem_toList_iff.2 (Array.mem_of_getElem? (getElem?_input_of_find h)))
  | learnt i token => exact .inr (Array.mem_toList_iff.2 (Array.mem_of_getElem? (getElem?_learnt_of_find h)))

theorem mem_keys_of_find (h : s.find key = .ok c) : key ∈ s.inputKeys ++ s.learntKeys := by
  rw [keys_eq]
  exact List.mem_map.2 ⟨c, mem_clauses_of_find h, key_of_find h⟩

/-- **Under its key there is each clause of a store that counts what it holds.** -/
theorem Tallied.find_of_mem (h : s.Tallied) (hc : c ∈ s.clauses) : s.find c.key = .ok c := by
  have hkeys := h.keys
  rw [keys_eq] at hkeys
  obtain ⟨d, hd⟩ := hkeys.2 c.key (List.mem_map_of_mem hc)
  rw [hd, List.inj_on_of_nodup_map hkeys.1 (mem_clauses_of_find hd) hc (key_of_find hd)]

/-! ## What is counted -/

/-- **The counts are the numbers and the total lengths of the clauses there are**, of the formula and learnt. -/
structure Sums (s : ClauseStore) : Prop where
  live : ∀ key c, s.find key = .ok c ↔ c ∈ s.clauses ∧ c.key = key
  once : (s.clauses.map (·.key)).Nodup
  inputCount : s.inputCount = s.clauses.countP fun c => !c.key.isLearnt
  learntCount : s.learntCount = s.clauses.countP fun c => c.key.isLearnt
  inputLiterals : s.inputLiterals = ((s.clauses.filter fun c => !c.key.isLearnt).map (·.literals.length)).sum
  learntLiterals : s.learntLiterals = ((s.clauses.filter fun c => c.key.isLearnt).map (·.literals.length)).sum

/-- The clauses in some slots. -/
def inSlots (slots : Array (Option StoredClause)) : List StoredClause := slots.toList.filterMap id

theorem total_eq (w : StoredClause → Nat) (slots : Array (Option StoredClause)) :
    total w slots = ((inSlots slots).map w).sum := by
  unfold total inSlots
  induction slots.toList with
  | nil => rfl
  | cons slot rest ih =>
    rw [List.map_cons, List.sum_cons, ih]
    cases slot with
    | none => exact Nat.zero_add _
    | some c => rfl

theorem Tally.isLearnt (h : Tally learnt slots count literals) {c : StoredClause} (hc : c ∈ inSlots slots) :
    c.key.isLearnt = learnt := by
  obtain ⟨slot, hslot, rfl⟩ := List.mem_filterMap.1 hc
  obtain ⟨i, hi⟩ := List.mem_iff_getElem?.1 hslot
  exact (h.placed i c (Array.getElem?_toList .. ▸ hi)).kind

theorem Tally.count_eq (h : Tally learnt slots count literals) : count = (inSlots slots).length := by
  rw [h.count, total_eq, List.map_const', List.sum_replicate_nat, Nat.mul_one]

theorem Tallied.sums (h : s.Tallied) : s.Sums := by
  have hsplit : s.clauses = inSlots s.input ++ inSlots s.learnt := List.filterMap_append
  have hinput : ∀ c ∈ inSlots s.input, c.key.isLearnt = false := fun _ => h.inputTally.isLearnt
  have hlearnt : ∀ c ∈ inSlots s.learnt, c.key.isLearnt = true := fun _ => h.learntTally.isLearnt
  have hold : (s.clauses.filter fun c => !c.key.isLearnt) = inSlots s.input := by
    rw [hsplit, List.filter_append, List.filter_eq_self.2 fun c hc => by rw [hinput c hc]; rfl,
      List.filter_eq_nil_iff.2 fun c hc => by rw [hlearnt c hc]; nofun, List.append_nil]
  have hnew : (s.clauses.filter fun c => c.key.isLearnt) = inSlots s.learnt := by
    rw [hsplit, List.filter_append, List.filter_eq_nil_iff.2 fun c hc => by rw [hinput c hc]; nofun,
      List.filter_eq_self.2 hlearnt, List.nil_append]
  refine ⟨fun key c => ⟨fun hc => ⟨mem_clauses_of_find hc, key_of_find hc⟩, fun ⟨hc, hkey⟩ => hkey ▸ h.find_of_mem hc⟩,
    keys_eq s ▸ h.keys.1, ?_, ?_, ?_, ?_⟩
  · rw [List.countP_eq_length_filter, hold, h.inputTally.count_eq]
  · rw [List.countP_eq_length_filter, hnew, h.learntTally.count_eq]
  · rw [hold, h.inputTally.literals, total_eq]
  · rw [hnew, h.learntTally.literals, total_eq]

end ClauseStore
end Cdcl
