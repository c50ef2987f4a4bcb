import Cdcl.Dimacs.Grammar
/-!
# Dimacs.Written — clauses written as a text

Clauses are written as the words of their literals, each clause with a zero after it (`written`).  Words may be laid out over
lines in any way, with blank lines and comments anywhere between the lines (`Rows`).  A problem line, laid out in a line of its
own, and then the words of the clauses make a text (`Written`), which is accepted, and holds the counts of the problem line
and the integers of the clauses (`Written.accepts`).
-/
namespace Cdcl
namespace Dimacs

open Text (Spaced Signed)

/-- The words of clauses as they are written, each with its closing zero. -/
def written (clauses : List Clause) : List (List Char) :=
  clauses.flatMap fun clause => Text.words (clause.toDimacs true).toList

/-- The words of a problem line. -/
def heading (atoms clauses : Nat) : List (List Char) :=
  ["p".toList, "cnf".toList, (toString atoms).toList, (toString clauses).toList]

/-- A blank line or a comment. -/
def Silent (line : List Char) : Prop := Spaced [] line ∨ first? line = some 'c'

/-- Words laid out over lines, with blank lines and comments between the lines. -/
inductive Rows : List (List Char) → List (List Char) → Prop
  | nil : Rows [] []
  | silent {line : List Char} {lines words : List (List Char)} (hline : Silent line) (hlines : Rows lines words) :
      Rows (line :: lines) words
  | words {line : List Char} {lines words more : List (List Char)} (hline : Spaced words line) (hlines : Rows lines more) :
      Rows (line :: lines) (words ++ more)

/-- The lines of a text made of a problem line and clauses. -/
inductive Written (atoms count : Nat) (clauses : List Clause) : List (List Char) → Prop
  | intro {before after : List (List Char)} {line : List Char} (hbefore : ∀ l ∈ before, Silent l)
      (hline : Spaced (heading atoms count) line) (hafter : Rows after (written clauses)) :
      Written atoms count clauses (before ++ line :: after)

/-- The integers of clauses as they are written. -/
def writtenIntegers (clauses : List Clause) : List Int := clauses.flatMap fun clause => clause.map Literal.toInt ++ [0]

/-- What a text made of a problem line and clauses holds. -/
def writtenItems (atoms count : Nat) (clauses : List Clause) : List Item :=
  .counts atoms count :: (writtenIntegers clauses).map .integer

/-! ## The words of clauses -/

theorem words_intercalate {ws : List (List Char)} (h : ∀ w ∈ ws, w ≠ [] ∧ ∀ c ∈ w, Text.isBlank c = false) :
    Text.words ([' '].intercalate ws) = ws := by
  induction ws with
  | nil => rfl
  | cons w ws ih =>
    obtain ⟨⟨hne, hw⟩, hws⟩ := List.forall_mem_cons.1 h
    by_cases hnil : ws = []
    · rw [hnil, List.intercalate_singleton, Text.words_of_forall hne hw]
    · rw [List.intercalate_cons_of_ne_nil hnil, List.append_assoc, List.singleton_append,
        Text.words_append_cons (by decide), Text.words_of_forall hne hw, ih hws, List.singleton_append]

theorem token_toText (l : Literal) (h : l.atom < atomLimit) : Token l.toText.toList l.toInt := by
  refine ⟨Text.signed_toString _, ?_⟩
  rw [l.natAbs_toInt]
  exact h

theorem token_zero : Token "0".toList 0 := integer?_eq_some_iff.1 (by decide)

/-- **The words of a clause are those of its literals and the zero.** -/
theorem words_toDimacs (clause : Clause) :
    Text.words (clause.toDimacs true).toList = clause.map (·.toText.toList) ++ ["0".toList] := by
  have hblank : " ".toList = [' '] := rfl
  rw [Clause.toDimacs, String.toList_intercalate, hblank, if_pos rfl, List.map_append, List.map_map]
  refine words_intercalate fun w hw => ?_
  rcases List.mem_append.1 hw with hw | hw
  · obtain ⟨l, -, rfl⟩ := List.mem_map.1 hw
    exact (Text.signed_toString l.toInt).word
  · rw [List.mem_singleton.1 hw]
    exact token_zero.1.word

/-- **The words of clauses stand for their integers.** -/
theorem forall_token_written : ∀ {clauses : List Clause}, (∀ clause ∈ clauses, ∀ l ∈ clause, l.atom < atomLimit) →
    List.Forall₂ Token (written clauses) (writtenIntegers clauses)
  | [], _ => .nil
  | clause :: clauses, h => by
    obtain ⟨hclause, hclauses⟩ := List.forall_mem_cons.1 h
    have hliterals : List.Forall₂ Token (clause.map (·.toText.toList)) (clause.map Literal.toInt) := by
      rw [List.forall₂_map_left_iff, List.forall₂_map_right_iff, List.forall₂_same]
      exact fun l hl => token_toText l (hclause l hl)
    show List.Forall₂ Token (Text.words (clause.toDimacs true).toList ++ written clauses)
      ((clause.map Literal.toInt ++ [0]) ++ writtenIntegers clauses)
    rw [words_toDimacs]
    exact List.rel_append (List.rel_append hliterals (.cons token_zero .nil)) (forall_token_written hclauses)

theorem closed_written (clauses : List Clause) (atoms count : Nat) : Closed (writtenItems atoms count clauses) := by
  have hintegers : ∀ vs : List Int, integers (vs.map .integer) = vs := fun vs => by
    rw [integers, List.filterMap_map]
    exact List.filterMap_some
  show ∀ v ∈ (integers ((writtenIntegers clauses).map .integer)).getLast?, v = 0
  rw [hintegers]
  unfold writtenIntegers
  induction clauses with
  | nil => exact nofun
  | cons clause clauses ih =>
    rw [List.flatMap_cons, List.getLast?_append]
    cases h : (clauses.flatMap fun clause => clause.map Literal.toInt ++ [0]).getLast? with
    | none => simp
    | some v => simpa [h] using ih

/-! ## The lines of clauses -/

theorem first?_of_blanks {line : List Char} (h : Spaced [] line) : first? line = none := by
  cases h with
  | blanks h => exact List.find?_eq_none.2 fun c hc => by simp [h c hc]

theorem first?_of_word {line word : List Char} {words : List (List Char)} (h : Spaced (word :: words) line) :
    first? line = word.head? := by
  cases h with
  | @word before word rest words hbefore hne hword =>
    obtain ⟨c, word, rfl⟩ := List.exists_cons_of_ne_nil hne
    have hc : Text.isBlank c = false := hword c List.mem_cons_self
    unfold first?
    rw [List.append_assoc, List.find?_append, List.find?_eq_none.2 fun c hc => by simp [hbefore c hc]]
    simp [hc]

/-- A numeral starts with a digit or a sign. -/
theorem head?_of_signed {word : List Char} {v : Int} (h : Signed word v) :
    ∃ c, word.head? = some c ∧ c ≠ 'c' ∧ c ≠ 'p' ∧ c ≠ '%' := by
  have hdigits : ∀ {w : List Char} {n : Nat}, Text.Digits w n →
      ∃ c, w.head? = some c ∧ c ≠ 'c' ∧ c ≠ 'p' ∧ c ≠ '%' := fun h => by
    obtain ⟨c, w, rfl⟩ := List.exists_cons_of_ne_nil h.ne_nil
    have hdigit := h.isDigit_of_mem c List.mem_cons_self
    refine ⟨c, rfl, ?_, ?_, ?_⟩ <;>
    · rintro rfl
      exact absurd hdigit (by decide)
  rcases h with ⟨⟨h⟩ | ⟨h⟩⟩ | ⟨h⟩
  · exact hdigits h
  · exact ⟨'+', rfl, by decide⟩
  · exact ⟨'-', rfl, by decide⟩

theorem considered_of_silent {line : List Char} (h : Silent line) (lines : List (List Char)) (number : Nat) :
    considered (line :: lines) number = considered lines (number + 1) := by
  rw [considered_cons, if_pos]
  exact h.imp_left first?_of_blanks

theorem considered_append : ∀ {before : List (List Char)}, (∀ l ∈ before, Silent l) → ∀ (lines : List (List Char))
    (number : Nat), considered (before ++ lines) number = considered lines (number + before.length)
  | [], _, _, _ => rfl
  | line :: before, h, lines, number => by
    obtain ⟨hline, hbefore⟩ := List.forall_mem_cons.1 h
    rw [List.cons_append, considered_of_silent hline, considered_append hbefore, List.length_cons, Nat.add_right_comm]
    rfl

/-- **Words laid out over lines yield their integers**, however they are. -/
theorem Rows.holds {lines words : List (List Char)} (h : Rows lines words) : ∀ {vs : List Int} (number : Nat),
    List.Forall₂ Token words vs → Holds (considered lines number) (vs.map .integer) := by
  induction h with
  | nil =>
    intro vs number hvs
    cases hvs
    exact .nil
  | silent hline _ ih =>
    intro vs number hvs
    rw [considered_of_silent hline]
    exact ih _ hvs
  | @words line lines words more hline _ ih =>
    intro vs number hvs
    rw [forall_token_iff, List.map_append, eq_comm, List.map_eq_append_iff] at hvs
    obtain ⟨vs, us, rfl, hvs, hus⟩ := hvs
    have hus := ih (number + 1) (forall_token_iff.2 hus.symm)
    have hvs := forall_token_iff.2 hvs.symm
    rw [List.map_append]
    cases words with
    | nil =>
      cases hvs
      rwa [considered_of_silent (.inl hline)]
    | cons word words =>
      cases vs with
      | nil => cases hvs
      | cons v vs =>
        obtain ⟨c, hc, hcomment, hproblem, hstop⟩ := head?_of_signed (List.forall₂_cons.1 hvs).1.1
        rw [← first?_of_word hline] at hc
        rw [considered_cons, if_neg (by simp [hc, hcomment]), if_neg (by simp [hc, hstop])]
        exact .cons (.integers (by simp [hc, hproblem]) hline hvs) hus

/-- **A text made of a problem line and clauses is accepted**, and holds what was written. -/
theorem Written.accepts {atoms count : Nat} {clauses : List Clause} {lines : List (List Char)}
    (h : Written atoms count clauses lines) (hatoms : atoms ≤ atomLimit) (hcount : count ≤ countMax)
    (hclauses : ∀ clause ∈ clauses, ∀ l ∈ clause, l.atom < atomLimit) :
    Accepts lines (writtenItems atoms count clauses) := by
  refine ⟨?_, closed_written clauses atoms count⟩
  obtain ⟨hbefore, hline, hafter⟩ := h
  have hfirst := first?_of_word hline
  rw [considered_append hbefore, considered_cons, if_neg (by simp [hfirst]), if_neg (by simp [hfirst])]
  exact @Holds.cons _ _ _ [.counts atoms count] _ (.counts hfirst hline
    (.intro (.plain (Text.digits_toString atoms)) (.plain (Text.digits_toString count)) hatoms hcount))
    (hafter.holds _ (forall_token_written hclauses))

end Dimacs
end Cdcl
