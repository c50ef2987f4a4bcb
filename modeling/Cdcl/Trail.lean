import Cdcl.Literal
/-!
# Trail — the assigned literals, in order

Where each level above zero starts is noted, so the level is the count of starts.  Literals from the head on are
assigned but not yet propagated.

Levels are counted in 32 bits where this runs, and here by a number that does not wrap around.  The two are the same while
fewer than `levelLimit` levels are open.  A decision opens a level for an atom, of which there are fewer; only assumptions
can open as many.  What is said of a solve is said of one with fewer assumptions and atoms than that, in all, and such a solve
does not open as many (`Session.level_lt_levelLimit`).
-/
namespace Cdcl

/-- How many levels there are to count. -/
def levelLimit : Nat := 4294967296

@[ext]
structure Trail where
  literals : Array Literal := #[]
  /-- Where each level above zero starts. -/
  starts : Array Nat := #[]
  /-- The next literal to propagate. -/
  head : Nat := 0
  /-- The level of the last assumption, below `levelLimit`. -/
  root : Nat := 0

namespace Trail

instance : Inhabited Trail := ⟨{}⟩

/-- The current level.  There should be fewer than `levelLimit`. -/
@[inline] def level (t : Trail) : Nat := t.starts.size

@[inline] def size (t : Trail) : Nat := t.literals.size

@[inline] def push (t : Trail) (l : Literal) : Trail := { t with literals := t.literals.push l }

def newLevel (t : Trail) : Trail := { t with starts := t.starts.push t.literals.size }

/-- Where a level starts: level zero at the beginning, and a level above the current one at the end. -/
def start (t : Trail) (level : Nat) : Nat :=
  if level = 0 then 0 else t.starts.getD (level - 1) t.literals.size

/-- The first literal of the current level, if the level is above zero and not empty. -/
def topDecision (t : Trail) : Option Literal :=
  match t.starts.back? with
  | some i => t.literals[i]?
  | none => none

def topLevel (t : Trail) : List Literal := t.literals.toList.drop (t.start t.level)

/-- Whether every literal has been propagated. -/
def propagated (t : Trail) : Bool := decide (t.literals.size ≤ t.head)

/-- The literals from an index on, the last first. -/
def above (t : Trail) (i : Nat) : List Literal := (t.literals.extract i t.literals.size).toList.reverse

/-- The trail with the levels above a given one cut off. -/
def cut (t : Trail) (level : Nat) : Trail :=
  let literals := t.literals.shrink (t.start (level + 1))
  { t with literals, starts := t.starts.shrink level, head := literals.size }

/-! ## Levels after each change -/

@[simp] theorem level_push (t : Trail) (l : Literal) : (t.push l).level = t.level := rfl

@[simp] theorem size_push (t : Trail) (l : Literal) : (t.push l).size = t.size + 1 := by simp [push, size]

@[simp] theorem level_newLevel (t : Trail) : t.newLevel.level = t.level + 1 := by simp [newLevel, level]

@[simp] theorem start_zero (t : Trail) : t.start 0 = 0 := rfl

theorem start_of_level_lt {t : Trail} {level : Nat} (h : t.level < level) : t.start level = t.size := by
  unfold start
  rw [if_neg (by omega), Array.getD_eq_getD_getElem?, Array.getElem?_eq_none (by unfold Trail.level at h; omega)]
  rfl

/-- A fresh level starts at the end. -/
theorem start_newLevel (t : Trail) : t.newLevel.start t.newLevel.level = t.size := by
  simp [start, newLevel, level, size]

/-- The levels there were start where they did. -/
theorem start_newLevel_of_le {t : Trail} {level : Nat} (h : level ≤ t.level) :
    t.newLevel.start level = t.start level := by
  unfold start newLevel
  dsimp only
  split
  · rfl
  · rw [Array.getD_eq_getD_getElem?, Array.getD_eq_getD_getElem?, Array.getElem?_push]
    unfold Trail.level at h
    rw [if_neg (by omega)]

theorem level_cut (t : Trail) (level : Nat) : (t.cut level).level = min level t.level := by
  simp [cut, Trail.level]

theorem literals_cut (t : Trail) (level : Nat) :
    (t.cut level).literals.toList = t.literals.toList.take (t.start (level + 1)) := by
  simp [cut]

@[simp] theorem propagated_cut (t : Trail) (level : Nat) : (t.cut level).propagated = true := by
  simp [cut, propagated]

theorem above_eq (t : Trail) (i : Nat) : t.above i = (t.literals.toList.drop i).reverse := by
  unfold above
  rw [Array.toList_extract, List.extract_eq_take_drop, List.take_of_length_le (by simp)]

/-- What is cut off and what stays are the whole trail. -/
theorem cut_append_above (t : Trail) (level : Nat) :
    (t.cut level).literals.toList ++ (t.above (t.start (level + 1))).reverse = t.literals.toList := by
  rw [literals_cut, above_eq, List.reverse_reverse, List.take_append_drop]

end Trail

end Cdcl
