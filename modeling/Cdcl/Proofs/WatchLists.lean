import Cdcl.Proofs.Invariant
import Cdcl.Proofs.Outcome
import Cdcl.Watches.Lists
/-!
# WatchLists — keeping watch lists and clauses in agreement

Long lists agree with the clauses after a clause changed the order of its literals, gave a watch to another of them, was
stored, or was removed.  Binary lists stay symmetric as clauses come, and as all clauses of a literal go: each clause is
in two lists, so as many entries name the literal elsewhere as its own list has (`count_removeBinaryOf`).
-/
namespace Cdcl
namespace Context

/-! ## Long lists -/

section

variable {long longer : Literal → List ClauseKey} {literals? changed : ClauseKey → Option Clause} {key : ClauseKey}
  {old new : Clause}

theorem Listed.reorder (h : Listed long literals?) (hk : literals? key = some old)
    (hc : ∀ k, changed k = if k = key then some new else literals? k) (hw : ∀ l, l ∈ new.take 2 ↔ l ∈ old.take 2) :
    Listed long changed where
  mem_iff l k := by
    rw [h.mem_iff, hc]
    by_cases he : k = key
    · rw [if_pos he, he, hk]
      simp [hw]
    · rw [if_neg he]
  nodup := h.nodup

/-- A clause that gives a watch from one of its literals to another changes over to the list of that one. -/
theorem Listed.move (watch given : Literal) (h : Listed long literals?) (hk : literals? key = some old)
    (hc : ∀ k, changed k = if k = key then some new else literals? k)
    (hw : ∀ l, l ∈ new.take 2 ↔ l = watch ∨ l ∈ old.take 2 ∧ l ≠ given)
    (hl : ∀ l k, k ∈ longer l ↔ l = watch ∧ k = key ∨ k ∈ long l ∧ ¬(l = given ∧ k = key))
    (hn : ∀ l, (longer l).Nodup) : Listed longer changed where
  mem_iff l k := by
    rw [hl, h.mem_iff, hc]
    by_cases he : k = key
    · rw [if_pos he, he, hk]
      simp [hw]
    · rw [if_neg he]
      simp [he]
  nodup := hn

theorem Listed.store {a b : Literal} {rest : Clause} (h : Listed long literals?) (hk : literals? key = none)
    (hc : ∀ k, changed k = if k = key then some (a :: b :: rest) else literals? k)
    (hl : ∀ l k, k ∈ longer l ↔ (l = a ∨ l = b) ∧ k = key ∨ k ∈ long l) (hn : ∀ l, (longer l).Nodup) :
    Listed longer changed where
  mem_iff l k := by
    rw [hl, h.mem_iff, hc]
    by_cases he : k = key
    · rw [if_pos he, he, hk]
      simp
    · rw [if_neg he]
      simp [he]
  nodup := hn

theorem Listed.remove (h : Listed long literals?) (hc : ∀ k, changed k = if k = key then none else literals? k)
    (hl : ∀ l k, k ∈ longer l ↔ k ∈ long l ∧ k ≠ key) (hn : ∀ l, (longer l).Nodup) : Listed longer changed where
  mem_iff l k := by
    rw [hl, h.mem_iff, hc]
    by_cases he : k = key
    · rw [if_pos he]
      simp [he]
    · rw [if_neg he]
      simp [he]
  nodup := hn

end

end Context

namespace Watches

theorem long_watchLong_size (w : Watches) (l : Literal) (key : ClauseKey) :
    (w.watchLong l key).long.size = w.long.size := by simp [watchLong]

theorem longOf_watchLong_twice {w : Watches} {a b : Literal} (ha : a.index < w.long.size) (hb : b.index < w.long.size)
    (hne : a ≠ b) (key : ClauseKey) (l : Literal) :
    ((w.watchLong a key).watchLong b key).longOf l = if l = a ∨ l = b then (w.longOf l).push key else w.longOf l := by
  rw [longOf_watchLong _ _ (by rwa [long_watchLong_size]), longOf_watchLong _ _ ha, longOf_watchLong _ _ ha,
    if_neg (Ne.symm hne)]
  by_cases hlb : l = b
  · rw [if_pos hlb, if_pos (.inr hlb), hlb]
  · rw [if_neg hlb]
    by_cases hla : l = a
    · rw [if_pos hla, if_pos (.inl hla), hla]
    · rw [if_neg hla, if_neg (not_or.2 ⟨hla, hlb⟩)]

theorem mem_watchLong_twice {w : Watches} {a b : Literal} (ha : a.index < w.long.size) (hb : b.index < w.long.size)
    (key : ClauseKey) (l : Literal) (k : ClauseKey) :
    k ∈ (((w.watchLong a key).watchLong b key).longOf l).toList ↔
      (l = a ∨ l = b) ∧ k = key ∨ k ∈ (w.longOf l).toList := by
  rw [longOf_watchLong _ _ (by rw [long_watchLong_size]; exact hb)]
  split
  · rename_i he
    rw [longOf_watchLong _ _ ha, ← he]
    split
    · simp only [Array.toList_push, List.mem_append, List.mem_singleton]
      grind
    · simp only [Array.toList_push, List.mem_append, List.mem_singleton]
      grind
  · rename_i hne
    rw [longOf_watchLong _ _ ha]
    split
    · rename_i he
      simp only [Array.toList_push, List.mem_append, List.mem_singleton, ← he]
      grind
    · grind

theorem nodup_watchLong {w : Watches} {a : Literal} (ha : a.index < w.long.size) {key : ClauseKey}
    (hk : key ∉ (w.longOf a).toList) (hn : ∀ l, (w.longOf l).toList.Nodup) (l : Literal) :
    ((w.watchLong a key).longOf l).toList.Nodup := by
  rw [longOf_watchLong _ _ ha]
  split
  · rw [Array.toList_push, List.nodup_append]
    refine ⟨hn a, List.pairwise_singleton .., fun k hk' m hm e => ?_⟩
    rw [e, List.mem_singleton.1 hm] at hk'
    exact hk hk'
  · exact hn l

theorem mem_unwatchLong (w : Watches) (a : Literal) (key : ClauseKey) (l : Literal) (k : ClauseKey) :
    k ∈ ((w.unwatchLong a key).longOf l).toList ↔ k ∈ (w.longOf l).toList ∧ ¬(l = a ∧ k = key) := by
  rw [longOf_unwatchLong]
  split
  · rename_i he
    rw [(perm_removeAll key _).mem_iff, List.mem_filter, he]
    simp
  · rename_i hne
    simp [hne]

theorem nodup_unwatchLong {w : Watches} (hn : ∀ l, (w.longOf l).toList.Nodup) (a : Literal) (key : ClauseKey)
    (l : Literal) : ((w.unwatchLong a key).longOf l).toList.Nodup := by
  rw [longOf_unwatchLong]
  split
  · rw [(perm_removeAll key _).nodup_iff]
    exact (hn a).filter _
  · exact hn l

/-- **A clause unwatched by its first two literals is in no list any more.** -/
theorem listed_unwatch {w : Watches} {literals? changed : ClauseKey → Option Clause} {key : ClauseKey} {a b : Literal}
    {rest : Clause} (h : Context.Listed (fun l => (w.longOf l).toList) literals?)
    (hk : literals? key = some (a :: b :: rest))
    (hc : ∀ k, changed k = if k = key then none else literals? k) :
    Context.Listed (fun l => (((w.unwatchLong a key).unwatchLong b key).longOf l).toList) changed := by
  refine h.remove hc (fun l k => ?_) (nodup_unwatchLong (nodup_unwatchLong h.nodup a key) b key)
  rw [mem_unwatchLong, mem_unwatchLong]
  constructor
  · rintro ⟨⟨hm, ha⟩, hb⟩
    refine ⟨hm, fun he => ?_⟩
    subst he
    -- the key is in no list but those of the two watches
    obtain ⟨ls, hls, hl⟩ := (h.mem_iff l k).1 hm
    rw [hk, Option.some.injEq] at hls
    subst hls
    rcases List.mem_cons.1 hl with rfl | hl
    · exact ha ⟨rfl, rfl⟩
    · exact hb ⟨List.mem_singleton.1 hl, rfl⟩
  · exact fun ⟨hm, hne⟩ => ⟨⟨hm, fun e => hne e.2⟩, fun e => hne e.2⟩

/-! ## Binary lists -/

theorem count_removeFirst (x l : Literal) (list : Array Literal) :
    (removeFirst l list).toList.count x = list.toList.count x - if x = l then 1 else 0 := by
  rw [(perm_removeFirst l list).count_eq, List.count_erase]
  by_cases h : x = l
  · simp [h]
  · simp [h, Ne.symm h]

/-- Going through a list and removing a literal from the list of each literal met removes it as often as one is met. -/
theorem count_foldl_removeFirst (l : Literal) : ∀ (list : List Literal) (binary : Array (Array Literal))
    (m x : Literal),
    ((list.foldl (fun binary other => binary.modify other.index (removeFirst l)) binary).getD m.index #[]).toList.count x
      = (binary.getD m.index #[]).toList.count x - if x = l then list.count m else 0
  | [], binary, m, x => by simp
  | o :: list, binary, m, x => by
    rw [List.foldl_cons, count_foldl_removeFirst l list]
    have hstep : ((binary.modify o.index (removeFirst l)).getD m.index #[]).toList.count x =
        (binary.getD m.index #[]).toList.count x - if x = l ∧ o = m then 1 else 0 := by
      simp only [Array.getD_eq_getD_getElem?, Array.getElem?_modify, Literal.index_inj]
      by_cases ho : o = m
      · rw [if_pos ho]
        cases binary[m.index]? with
        | none => simp
        | some list =>
          simp only [Option.map_some, Option.getD_some, count_removeFirst, ho, and_true]
      · simp [ho]
    rw [hstep, List.count_cons]
    by_cases hx : x = l
    · by_cases ho : o = m
      · simp [hx, ho]
        omega
      · simp [hx, ho]
    · simp [hx]

/-- **With symmetric lists, removing the binary clauses of a literal removes it everywhere, and nothing else.** -/
theorem count_removeBinaryOf {w : Watches} {l : Literal} (hl : l.index < w.binary.size)
    (hsym : ∀ a b, (w.binaryOf a).toList.count b = (w.binaryOf b).toList.count a) (m x : Literal) :
    ((w.removeBinaryOf l).2.binaryOf m).toList.count x =
      if m = l ∨ x = l then 0 else (w.binaryOf m).toList.count x := by
  have htake : ∀ m, ((w.binary.setIfInBounds l.index #[]).getD m.index #[]) = if m = l then #[] else w.binaryOf m := by
    intro m
    simp only [Array.getD_eq_getD_getElem?, Array.getElem?_setIfInBounds, Literal.index_inj]
    by_cases hm : m = l
    · simp [hm, hl]
    · rw [if_neg (Ne.symm hm), if_neg hm, binaryOf, Array.getD_eq_getD_getElem?]
  simp only [removeBinaryOf, takeBinary]
  rw [binaryOf]
  simp only [← Array.foldl_toList]
  rw [count_foldl_removeFirst, htake]
  by_cases hm : m = l
  · simp [hm]
  · by_cases hx : x = l
    · simp [hm, hx, hsym m l]
    · simp [hm, hx]

theorem binary_removeBinaryOf_size (w : Watches) (l : Literal) :
    (w.removeBinaryOf l).2.binary.size = w.binary.size := by
  simp only [removeBinaryOf, takeBinary, ← Array.foldl_toList]
  generalize (w.binaryOf l).toList = list
  suffices ∀ (list : List Literal) (binary : Array (Array Literal)),
      (list.foldl (fun binary other => binary.modify other.index (removeFirst l)) binary).size = binary.size by
    rw [this, Array.size_setIfInBounds]
  intro list
  induction list with
  | nil => exact fun _ => rfl
  | cons o list ih =>
    intro binary
    rw [List.foldl_cons, ih, Array.size_modify]

theorem count_watchBinary {w : Watches} {a b : Literal} (ha : w.knows a = true) (hb : w.knows b = true) (hne : a ≠ b)
    (m x : Literal) :
    ((w.watchBinary a b).binaryOf m).toList.count x =
      (w.binaryOf m).toList.count x + if m = a ∧ x = b ∨ m = b ∧ x = a then 1 else 0 := by
  rw [binaryOf_watchBinary w ha hb hne]
  by_cases hma : m = a
  · rw [if_pos hma, Array.toList_push, List.count_append, List.count_singleton, hma]
    by_cases hx : x = b
    · simp [hx]
    · simp [hx, Ne.symm hx, hne]
  · rw [if_neg hma]
    by_cases hmb : m = b
    · rw [if_pos hmb, Array.toList_push, List.count_append, List.count_singleton, hmb]
      by_cases hx : x = a
      · simp [hx]
      · simp [hx, Ne.symm hx, Ne.symm hne]
    · simp [hma, hmb]

/-! ## Calls -/

namespace Call

open Run

variable {α : Type} {w : Watches} {l : Literal}

theorem gives_ask {f : Watches → α} : Gives (ask l f) w (w.knows l = true) (f w) w := by
  unfold ask
  exact gives_bind_get.2 (gives_bind_require id fun _ => .inl rfl)

theorem gives_change {f : Watches → Watches} : Gives (change l f) w (w.knows l = true) () (f w) := by
  unfold change
  exact gives_bind_get.2 (gives_bind_require id fun _ => gives_modify)

theorem gives_take {f : Watches → α × Watches} : Gives (take l f) w (w.knows l = true) (f w).1 (f w).2 := by
  unfold take
  exact gives_bind_get.2 (gives_bind_require id fun _ => .inl rfl)

theorem gives_watchLong {key : ClauseKey} : Gives (watchLong l key) w (w.knows l = true) () (w.watchLong l key) :=
  gives_change

theorem gives_binary : Gives (binary l) w (w.knows l = true) (w.binaryOf l) w := gives_ask

theorem gives_takeLong : Gives (takeLong l) w (w.knows l = true) (w.longOf l) (w.takeLong l).2 := gives_take

theorem gives_restoreLong {list : Array ClauseKey} :
    Gives (restoreLong l list) w (w.knows l = true) () (w.restoreLong l list) := gives_change

end Call

end Watches
end Cdcl
