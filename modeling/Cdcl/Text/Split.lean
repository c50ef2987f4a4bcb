/-!
# Text.Split — lines, and words between blanks

A text is cut at some of its elements, which stay out of the pieces.  Lines end at a line feed alone; what follows the
last line feed is a line if there is anything.  Words are the longest pieces without blanks, and a blank is a character
the Unicode standard calls white space.

Cutting loses nothing but the elements cut at (`flatten_split`), and the words of a text have all of its characters that
are not blank (`flatten_words`).
-/
namespace Cdcl
namespace Text

variable {α : Type}

/-- Goes on cutting: the piece at hand and the pieces before it, each in reverse. -/
def splitFrom (cut : α → Bool) (piece : List α) (done : List (List α)) : List α → List (List α)
  | [] => (piece.reverse :: done).reverse
  | x :: rest =>
    if cut x then splitFrom cut [] (piece.reverse :: done) rest else splitFrom cut (x :: piece) done rest

/-- The pieces of a list, one more than there are elements to cut at. -/
def split (cut : α → Bool) (xs : List α) : List (List α) := splitFrom cut [] [] xs

theorem flatten_splitFrom (cut : α → Bool) (xs : List α) : ∀ (piece : List α) (done : List (List α)),
    (splitFrom cut piece done xs).flatten = done.reverse.flatten ++ piece.reverse ++ xs.filter (!cut ·) := by
  induction xs with
  | nil => simp [splitFrom]
  | cons x xs ih =>
    intro piece done
    unfold splitFrom
    cases h : cut x <;> simp [ih, h]

/-- **Nothing is lost but the elements cut at.** -/
theorem flatten_split (cut : α → Bool) (xs : List α) : (split cut xs).flatten = xs.filter (!cut ·) :=
  flatten_splitFrom cut xs [] []

theorem length_splitFrom (cut : α → Bool) (xs : List α) : ∀ (piece : List α) (done : List (List α)),
    (splitFrom cut piece done xs).length = done.length + 1 + xs.countP cut := by
  induction xs with
  | nil => simp [splitFrom]
  | cons x xs ih =>
    intro piece done
    unfold splitFrom
    cases h : cut x <;> simp [ih, h]
    omega

theorem length_split (cut : α → Bool) (xs : List α) : (split cut xs).length = xs.countP cut + 1 := by
  rw [split, length_splitFrom, List.length_nil]
  omega

/-- **No piece has an element to cut at.** -/
theorem cut_eq_false_of_mem_split {cut : α → Bool} {xs piece : List α} {x : α} (hp : piece ∈ split cut xs)
    (hx : x ∈ piece) : cut x = false := by
  have : x ∈ (split cut xs).flatten := List.mem_flatten.2 ⟨piece, hp, hx⟩
  rw [flatten_split, List.mem_filter] at this
  simpa using this.2

/-- The pieces, but for a last one that is empty. -/
def lines (isEnd : α → Bool) (xs : List α) : List (List α) :=
  let pieces := split isEnd xs
  match pieces.getLast? with
  | some [] => pieces.dropLast
  | _ => pieces

/-- White space, as the Unicode standard lists it. -/
def isBlank (c : Char) : Bool :=
  let n := c.toNat
  n == 0x20 || (0x09 ≤ n && n ≤ 0x0d) || n == 0x85 || n == 0xa0 || n == 0x1680 || (0x2000 ≤ n && n ≤ 0x200a)
    || n == 0x2028 || n == 0x2029 || n == 0x202f || n == 0x205f || n == 0x3000

def words (cs : List Char) : List (List Char) := (split isBlank cs).filter (!·.isEmpty)

/-- **A word is not empty and has no blank.** -/
theorem isBlank_eq_false_of_mem_words {cs word : List Char} (h : word ∈ words cs) :
    word ≠ [] ∧ ∀ c ∈ word, isBlank c = false := by
  obtain ⟨hmem, hne⟩ := List.mem_filter.1 h
  exact ⟨by simpa using hne, fun c hc => cut_eq_false_of_mem_split hmem hc⟩

/-- **The words have all characters that are not blank, in order.** -/
theorem flatten_words (cs : List Char) : (words cs).flatten = cs.filter (!isBlank ·) := by
  rw [words, List.flatten_filter_not_isEmpty, flatten_split]

end Text
end Cdcl
