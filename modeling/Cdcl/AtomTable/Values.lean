import Cdcl.AtomTable
/-!
# AtomTable.Values — reading the table after each change

How a literal stands is a matter of the value of its atom alone.  Each change of the table is described by what it
does to values, levels and reasons; changes of activity do nothing to them.
-/
namespace Cdcl
namespace AtomTable

theorem knows_iff {t : AtomTable} {a : Nat} : t.knows a = true ↔ a < t.count := by simp [knows, count]

theorem value_eq (t : AtomTable) (a : Nat) : t.value a = t.records[a]?.bind (·.value) := by
  unfold value
  cases t.records[a]? <;> rfl

theorem value_of_record {t : AtomTable} {a : Nat} {r : AtomRecord} (h : t.records[a]? = some r) : t.value a = r.value := by
  rw [value_eq, h, Option.bind_some]

theorem lt_count_of_value {t : AtomTable} {a : Nat} {b : Bool} (h : t.value a = some b) : a < t.count := by
  rw [value_eq] at h
  obtain ⟨r, hr, -⟩ := Option.bind_eq_some_iff.1 h
  exact (Array.getElem?_eq_some_iff.1 hr).1

theorem reason_eq (t : AtomTable) (a : Nat) : t.reason a = t.records[a]?.bind (·.reason) := by
  unfold reason
  cases t.records[a]? <;> rfl

theorem levelOrZero_eq (t : AtomTable) (a : Nat) : t.levelOrZero a = (t.records[a]?.bind (·.level)).getD 0 := by
  unfold levelOrZero
  cases t.records[a]? <;> rfl

theorem exists_record {t : AtomTable} {a : Nat} (h : a < t.count) : ∃ r, t.records[a]? = some r :=
  ⟨_, Array.getElem?_eq_getElem h⟩

theorem of_record {t : AtomTable} {a : Nat} {r : AtomRecord} (h : t.records[a]? = some r) :
    r.level.getD 0 = t.levelOrZero a ∧ r.reason = t.reason a ∧ r.value = t.value a := by
  rw [levelOrZero_eq, reason_eq, value_eq, h]
  exact ⟨rfl, rfl, rfl⟩

/-! ## How a literal stands -/

theorem standing_eq_unknown_iff {t : AtomTable} {l : Literal} : t.standing l = .unknown ↔ t.count ≤ l.atom := by
  unfold standing count
  cases h : t.records[l.atom]? with
  | none => simpa using h
  | some r =>
    have := (Array.getElem?_eq_some_iff.1 h).1
    dsimp only
    split
    · simp
      omega
    · split <;> simp <;> omega

theorem standing_eq_holds_iff {t : AtomTable} {l : Literal} :
    t.standing l = .holds ↔ t.value l.atom = some l.positive := by
  unfold standing value
  cases t.records[l.atom]? with
  | none => simp
  | some r => rcases r with ⟨_ | _ | _, _⟩ <;> cases l.positive <;> simp

theorem standing_eq_fails_iff {t : AtomTable} {l : Literal} :
    t.standing l = .fails ↔ t.value l.atom = some !l.positive := by
  unfold standing value
  cases t.records[l.atom]? with
  | none => simp
  | some r => rcases r with ⟨_ | _ | _, _⟩ <;> cases l.positive <;> simp

theorem standing_eq_free_iff {t : AtomTable} {l : Literal} :
    t.standing l = .free ↔ l.atom < t.count ∧ t.value l.atom = none := by
  unfold standing value count
  cases h : t.records[l.atom]? with
  | none => simpa using h
  | some r =>
    have := (Array.getElem?_eq_some_iff.1 h).1
    dsimp only
    split
    · simp [*]
    · split <;> simp [*]

theorem isTrue_iff {t : AtomTable} {l : Literal} : t.isTrue l = true ↔ t.value l.atom = some l.positive := by
  simp [isTrue, standing_eq_holds_iff]

theorem isFalse_iff {t : AtomTable} {l : Literal} : t.isFalse l = true ↔ t.value l.atom = some !l.positive := by
  simp [isFalse, standing_eq_fails_iff]

@[simp] theorem isTrue_negate (t : AtomTable) (l : Literal) : t.isTrue l.negate = t.isFalse l := by
  rw [Bool.eq_iff_iff, isTrue_iff, isFalse_iff, Literal.atom_negate, Literal.positive_negate]

theorem value_eq_none_iff {t : AtomTable} {l : Literal} :
    t.value l.atom = none ↔ t.isTrue l = false ∧ t.isFalse l = false := by
  rw [← Bool.not_eq_true, ← Bool.not_eq_true, isTrue_iff, isFalse_iff]
  cases t.value l.atom with
  | none => simp
  | some b => cases b <;> cases l.positive <;> simp

/-! ## An atom without a value -/

theorem value_of_firstFree? {t : AtomTable} {a : Nat} (h : t.firstFree? = some a) : a < t.count ∧ t.value a = none := by
  obtain ⟨hlt, hv, -⟩ := Array.findIdx?_eq_some_iff_getElem.1 h
  refine ⟨hlt, ?_⟩
  rw [value_of_record (Array.getElem?_eq_getElem hlt)]
  exact Option.isNone_iff_eq_none.1 hv

theorem value_ne_none_of_firstFree? {t : AtomTable} {a : Nat} (h : t.firstFree? = none) (ha : a < t.count) :
    t.value a ≠ none := by
  intro hv
  have hr := Array.getElem?_eq_getElem ha
  have hfree := Array.findIdx?_eq_none_iff.1 h _ (Array.mem_of_getElem? hr)
  rw [value_of_record hr] at hv
  rw [hv] at hfree
  cases hfree

/-! ## A further atom -/

@[simp] theorem count_push (t : AtomTable) (previous : Bool) : (t.push previous).count = t.count + 1 := by
  simp [push, count]

@[simp] theorem value_push (t : AtomTable) (previous : Bool) (a : Nat) : (t.push previous).value a = t.value a := by
  simp only [value_eq, push, Array.getElem?_push]
  grind

@[simp] theorem reason_push (t : AtomTable) (previous : Bool) (a : Nat) : (t.push previous).reason a = t.reason a := by
  simp only [reason_eq, push, Array.getElem?_push]
  grind

@[simp] theorem levelOrZero_push (t : AtomTable) (previous : Bool) (a : Nat) :
    (t.push previous).levelOrZero a = t.levelOrZero a := by
  simp only [levelOrZero_eq, push, Array.getElem?_push]
  grind

/-! ## Giving a value and taking it away -/

@[simp] theorem count_setValue (t : AtomTable) (l : Literal) (level : Nat) (reason : Option Reason) :
    (t.setValue l level reason).count = t.count := by
  simp [setValue, count]

theorem value_setValue (t : AtomTable) (l : Literal) (level : Nat) (reason : Option Reason) (a : Nat) :
    (t.setValue l level reason).value a = if a = l.atom ∧ a < t.count then some l.positive else t.value a := by
  simp only [value_eq, setValue, count, Array.getElem?_modify]
  grind

theorem reason_setValue (t : AtomTable) (l : Literal) (level : Nat) (reason : Option Reason) (a : Nat) :
    (t.setValue l level reason).reason a = if a = l.atom ∧ a < t.count then reason else t.reason a := by
  simp only [reason_eq, setValue, count, Array.getElem?_modify]
  grind

theorem levelOrZero_setValue (t : AtomTable) (l : Literal) (level : Nat) (reason : Option Reason) (a : Nat) :
    (t.setValue l level reason).levelOrZero a = if a = l.atom ∧ a < t.count then level else t.levelOrZero a := by
  simp only [levelOrZero_eq, setValue, count, Array.getElem?_modify]
  grind

@[simp] theorem count_dropValue (t : AtomTable) (a : Nat) (deferred : Bool) :
    (t.dropValue a deferred).count = t.count := by
  simp [dropValue, clearValue, count]

theorem value_dropValue (t : AtomTable) (a b : Nat) (deferred : Bool) :
    (t.dropValue a deferred).value b = if b = a then none else t.value b := by
  simp only [value_eq, dropValue, clearValue, Array.getElem?_modify]
  grind

theorem reason_dropValue (t : AtomTable) (a b : Nat) (deferred : Bool) :
    (t.dropValue a deferred).reason b = if b = a then none else t.reason b := by
  simp only [reason_eq, dropValue, clearValue, Array.getElem?_modify]
  grind

theorem levelOrZero_dropValue (t : AtomTable) (a b : Nat) (deferred : Bool) :
    (t.dropValue a deferred).levelOrZero b = if b = a then 0 else t.levelOrZero b := by
  simp only [levelOrZero_eq, dropValue, clearValue, Array.getElem?_modify]
  grind

@[simp] theorem value_setLevel (t : AtomTable) (a level b : Nat) : (t.setLevel a level).value b = t.value b := by
  simp only [value_eq, setLevel, Array.getElem?_modify]
  grind

@[simp] theorem count_setLevel (t : AtomTable) (a level : Nat) : (t.setLevel a level).count = t.count := by
  simp [setLevel, count]

@[simp] theorem reason_setLevel (t : AtomTable) (a level b : Nat) : (t.setLevel a level).reason b = t.reason b := by
  simp only [reason_eq, setLevel, Array.getElem?_modify]
  grind

theorem levelOrZero_setLevel (t : AtomTable) (a level b : Nat) :
    (t.setLevel a level).levelOrZero b = if b = a ∧ a < t.count then level else t.levelOrZero b := by
  simp only [levelOrZero_eq, setLevel, count, Array.getElem?_modify]
  grind

/-! ## Values have levels -/

def level? (t : AtomTable) (a : Nat) : Option Nat := t.records[a]?.bind (·.level)

/-- The atoms with a value have a level, and no others; and no others have a reason. -/
def Leveled (t : AtomTable) : Prop :=
  ∀ (a : Nat) (r : AtomRecord), t.records[a]? = some r →
    (r.level = none ↔ r.value = none) ∧ (r.value = none → r.reason = none)

theorem Leveled.level?_eq {t : AtomTable} {a : Nat} {b : Bool} (h : t.Leveled) (hv : t.value a = some b) :
    t.level? a = some (t.levelOrZero a) := by
  rw [value_eq] at hv
  rw [levelOrZero_eq, level?]
  obtain ⟨r, hr, hb⟩ := Option.bind_eq_some_iff.1 hv
  rw [hr, Option.bind_some]
  obtain ⟨level, hl⟩ := Option.ne_none_iff_exists'.1 fun hn => by
    rw [(h a r hr).1.1 hn] at hb
    cases hb
  rw [hl, Option.getD_some]

theorem Leveled.level?_eq_none {t : AtomTable} {a : Nat} (h : t.Leveled) (hv : t.value a = none) : t.level? a = none := by
  cases hl : t.level? a with
  | none => rfl
  | some level =>
    obtain ⟨r, hr, hrl⟩ := Option.bind_eq_some_iff.1 hl
    rw [value_of_record hr] at hv
    exact hrl.symm.trans ((h a r hr).1.2 hv)

theorem Leveled.reason_eq_none {t : AtomTable} {a : Nat} (h : t.Leveled) (hv : t.value a = none) : t.reason a = none := by
  rw [reason_eq]
  cases hr : t.records[a]? with
  | none => rfl
  | some r => exact (h a r hr).2 ((value_of_record hr).symm.trans hv)

theorem Leveled.exists_value {t : AtomTable} {a level : Nat} (h : t.Leveled) (hl : t.level? a = some level) :
    ∃ b, t.value a = some b := by
  obtain ⟨r, hr, hb⟩ := Option.bind_eq_some_iff.1 hl
  rw [value_eq, hr, Option.bind_some]
  refine Option.ne_none_iff_exists'.1 fun hn => ?_
  rw [(h a r hr).1.2 hn] at hb
  cases hb

theorem leveled_push {t : AtomTable} (h : t.Leveled) (previous : Bool) : (t.push previous).Leveled := by
  intro a r hr
  simp only [push, Array.getElem?_push] at hr
  split at hr
  · cases hr
    exact ⟨⟨fun _ => rfl, fun _ => rfl⟩, fun _ => rfl⟩
  · exact h a r hr

theorem leveled_setValue {t : AtomTable} (h : t.Leveled) (l : Literal) (level : Nat) (reason : Option Reason) :
    (t.setValue l level reason).Leveled := by
  intro a r hr
  simp only [setValue, Array.getElem?_modify] at hr
  split at hr
  · obtain ⟨_, -, rfl⟩ := Option.map_eq_some_iff.1 hr
    exact ⟨⟨nofun, nofun⟩, nofun⟩
  · exact h a r hr

theorem leveled_dropValue {t : AtomTable} (h : t.Leveled) (a : Nat) (deferred : Bool) :
    (t.dropValue a deferred).Leveled := by
  intro b r hr
  simp only [dropValue, clearValue, Array.getElem?_modify] at hr
  split at hr
  · obtain ⟨_, -, rfl⟩ := Option.map_eq_some_iff.1 hr
    exact ⟨⟨fun _ => rfl, fun _ => rfl⟩, fun _ => rfl⟩
  · exact h b r hr

theorem leveled_setLevel {t : AtomTable} {a : Nat} {b : Bool} (h : t.Leveled) (hv : t.value a = some b) (level : Nat) :
    (t.setLevel a level).Leveled := by
  intro x r hr
  simp only [setLevel, Array.getElem?_modify] at hr
  split at hr
  · rename_i he
    obtain ⟨old, hold, rfl⟩ := Option.map_eq_some_iff.1 hr
    rw [value_eq, he, hold, Option.bind_some] at hv
    exact ⟨⟨nofun, fun hn => absurd (hv.symm.trans hn) nofun⟩, fun hn => absurd (hv.symm.trans hn) nofun⟩
  · exact h x r hr

/-! ## Activity -/

@[simp] theorem records_bump (t : AtomTable) (a : Nat) : (t.bump a).records = t.records := by
  unfold bump
  split <;> rfl

@[simp] theorem records_noteDecision (t : AtomTable) : t.noteDecision.records = t.records := by
  unfold noteDecision
  split <;> rfl

end AtomTable
end Cdcl
