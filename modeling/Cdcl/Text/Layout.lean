import Cdcl.Text.Split
/-!
# Text.Layout — which lines and which words a text has

A text is laid out as lines if they are what stands between the ends of lines (`Lined`), and as words if they are what
stands between the blanks (`Spaced`).  Neither says how a text is cut.  Every text is laid out in one way, and cutting
finds it (`lines_eq_iff`, `words_eq_iff`).
-/
namespace Cdcl
namespace Text

variable {α : Type} {isEnd : α → Bool}

/-! ## Lines -/

/-- The lines of a text.  Each has its end right after it, but that the last one may have none if it is not empty. -/
inductive Lined (isEnd : α → Bool) : List (List α) → List α → Prop
  | nil : Lined isEnd [] []
  | last {line : List α} (hne : line ≠ []) (hline : ∀ x ∈ line, isEnd x = false) : Lined isEnd [line] line
  | line {line rest : List α} {lines : List (List α)} {x : α} (hline : ∀ x ∈ line, isEnd x = false)
      (hx : isEnd x = true) (hrest : Lined isEnd lines rest) : Lined isEnd (line :: lines) (line ++ x :: rest)

theorem splitFrom_eq (cut : α → Bool) : ∀ (xs piece : List α) (done : List (List α)),
    splitFrom cut piece done xs = done.reverse ++ xs.splitOnPPrepend cut piece
  | [], piece, done => by simp [splitFrom]
  | x :: xs, piece, done => by
    unfold splitFrom
    rw [List.splitOnPPrepend_cons_eq_if]
    split
    · rw [splitFrom_eq cut xs, List.splitOnPPrepend_nil_right]
      simp
    · rw [splitFrom_eq cut xs]

theorem split_eq_splitOnP (cut : α → Bool) (xs : List α) : split cut xs = xs.splitOnP cut := by
  rw [split, splitFrom_eq, List.splitOnPPrepend_nil_right, List.reverse_nil, List.nil_append]

theorem lines_nil : lines isEnd [] = [] := rfl

theorem lines_of_forall {line : List α} (hne : line ≠ []) (h : ∀ x ∈ line, isEnd x = false) :
    lines isEnd line = [line] := by
  unfold lines
  rw [split_eq_splitOnP, List.splitOnP_eq_singleton h]
  simp [hne]

theorem lines_append_cons {line rest : List α} {x : α} (h : ∀ x ∈ line, isEnd x = false) (hx : isEnd x = true) :
    lines isEnd (line ++ x :: rest) = line :: lines isEnd rest := by
  have hne := List.splitOnP_ne_nil isEnd rest
  unfold lines
  rw [split_eq_splitOnP, split_eq_splitOnP, List.splitOnP_append_cons_of_forall_mem h x hx]
  dsimp only
  rw [List.getLast?_cons_of_ne_nil hne, List.dropLast_cons_of_ne_nil hne]
  split <;> rfl

theorem exists_lined (isEnd : α → Bool) : ∀ text : List α, ∃ ls, Lined isEnd ls text
  | [] => ⟨[], .nil⟩
  | x :: text => by
    obtain ⟨ls, h⟩ := exists_lined isEnd text
    cases hx : isEnd x with
    | true => exact ⟨[] :: ls, .line nofun hx h⟩
    | false =>
      -- the first line gets one element more
      cases h with
      | nil => exact ⟨[[x]], .last (by simp) (by simpa using hx)⟩
      | last hne hline =>
        exact ⟨[x :: text], .last (by simp) (List.forall_mem_cons.2 ⟨hx, hline⟩)⟩
      | @line line rest lines y hline hy hrest =>
        have hline : ∀ z ∈ x :: line, isEnd z = false := List.forall_mem_cons.2 ⟨hx, hline⟩
        exact ⟨(x :: line) :: lines, (Lined.line hline hy hrest :)⟩

theorem Lined.lines_eq {ls : List (List α)} {text : List α} (h : Lined isEnd ls text) : lines isEnd text = ls := by
  induction h with
  | nil => exact lines_nil
  | last hne hline => exact lines_of_forall hne hline
  | line hline hx _ ih => rw [lines_append_cons hline hx, ih]

/-- **Cutting at the ends of lines finds the lines of a text.** -/
theorem lines_eq_iff {ls : List (List α)} {text : List α} : lines isEnd text = ls ↔ Lined isEnd ls text := by
  refine ⟨fun h => ?_, Lined.lines_eq⟩
  obtain ⟨ls', h'⟩ := exists_lined isEnd text
  rwa [← h, h'.lines_eq]

/-! ## Words -/

/-- The words of a text: blanks stand before and after them, and between any two at least one. -/
inductive Spaced : List (List Char) → List Char → Prop
  | blanks {cs : List Char} (h : ∀ c ∈ cs, isBlank c = true) : Spaced [] cs
  | word {before word rest : List Char} {words : List (List Char)} (hbefore : ∀ c ∈ before, isBlank c = true)
      (hne : word ≠ []) (hword : ∀ c ∈ word, isBlank c = false) (hnext : ∀ c ∈ rest.head?, isBlank c = true)
      (hrest : Spaced words rest) : Spaced (word :: words) (before ++ word ++ rest)

theorem words_nil : words [] = [] := rfl

/-- **The words of a text with a blank in it** are those before the blank and those after it. -/
theorem words_append_cons {c : Char} (hc : isBlank c = true) (cs ds : List Char) :
    words (cs ++ c :: ds) = words cs ++ words ds := by
  unfold words
  rw [split_eq_splitOnP, List.splitOnP_append_cons cs ds hc, List.filter_append, split_eq_splitOnP, split_eq_splitOnP]

theorem words_cons_of_blank {c : Char} (hc : isBlank c = true) (cs : List Char) : words (c :: cs) = words cs :=
  words_append_cons hc [] cs

theorem words_of_forall {word : List Char} (hne : word ≠ []) (h : ∀ c ∈ word, isBlank c = false) :
    words word = [word] := by
  rw [words, split_eq_splitOnP, List.splitOnP_eq_singleton h]
  simp [hne]

theorem words_of_blanks : ∀ {cs : List Char}, (∀ c ∈ cs, isBlank c = true) → words cs = []
  | [], _ => words_nil
  | _ :: _, h => (words_cons_of_blank (h _ List.mem_cons_self) _).trans
      (words_of_blanks fun c hc => h c (List.mem_cons_of_mem _ hc))

theorem words_append_of_blanks : ∀ {before : List Char}, (∀ c ∈ before, isBlank c = true) → ∀ cs : List Char,
    words (before ++ cs) = words cs
  | [], _, _ => rfl
  | _ :: _, h, cs => (words_cons_of_blank (h _ List.mem_cons_self) _).trans
      (words_append_of_blanks (fun c hc => h c (List.mem_cons_of_mem _ hc)) cs)

theorem words_append {word rest : List Char} (hne : word ≠ []) (hword : ∀ c ∈ word, isBlank c = false)
    (hnext : ∀ c ∈ rest.head?, isBlank c = true) : words (word ++ rest) = word :: words rest := by
  cases rest with
  | nil => rw [List.append_nil, words_of_forall hne hword, words_nil]
  | cons c rest =>
    have hc : isBlank c = true := hnext c rfl
    rw [words_append_cons hc, words_of_forall hne hword, words_cons_of_blank hc, List.singleton_append]

theorem Spaced.words_eq {ws : List (List Char)} {cs : List Char} (h : Spaced ws cs) : words cs = ws := by
  induction h with
  | blanks h => exact words_of_blanks h
  | word hbefore hne hword hnext _ ih =>
    rw [List.append_assoc, words_append_of_blanks hbefore, words_append hne hword hnext, ih]

theorem exists_spaced : ∀ cs : List Char, ∃ ws, Spaced ws cs
  | [] => ⟨[], .blanks nofun⟩
  | c :: cs => by
    obtain ⟨ws, h⟩ := exists_spaced cs
    cases hc : isBlank c with
    | true =>
      cases h with
      | blanks h => exact ⟨[], .blanks (List.forall_mem_cons.2 ⟨hc, h⟩)⟩
      | @word before word rest words hbefore hne hword hnext hrest =>
        have hbefore : ∀ d ∈ c :: before, isBlank d = true := List.forall_mem_cons.2 ⟨hc, hbefore⟩
        exact ⟨word :: words, (Spaced.word hbefore hne hword hnext hrest :)⟩
    | false =>
      -- the character starts a word, which ends before the next blank
      have hnone : ∀ d ∈ ([] : List Char), isBlank d = true := nofun
      by_cases hnext : ∀ d ∈ cs.head?, isBlank d = true
      · have hword : ∀ d ∈ [c], isBlank d = false := List.forall_mem_singleton.2 hc
        exact ⟨[c] :: ws, (Spaced.word hnone (List.cons_ne_nil c []) hword hnext h :)⟩
      · cases h with
        | blanks h => exact absurd (fun d hd => h d (List.mem_of_mem_head? hd)) hnext
        | @word before word rest words hbefore hne hword hend hrest =>
          cases before with
          | nil =>
            have hword : ∀ d ∈ c :: word, isBlank d = false := List.forall_mem_cons.2 ⟨hc, hword⟩
            exact ⟨(c :: word) :: words, (Spaced.word hnone (List.cons_ne_nil c word) hword hend hrest :)⟩
          | cons b before =>
            refine absurd (fun d hd => ?_) hnext
            cases hd
            exact hbefore b List.mem_cons_self

/-- **Cutting at the blanks finds the words of a text.** -/
theorem words_eq_iff {ws : List (List Char)} {cs : List Char} : words cs = ws ↔ Spaced ws cs := by
  refine ⟨fun h => ?_, Spaced.words_eq⟩
  obtain ⟨ws', h'⟩ := exists_spaced cs
  rwa [← h, h'.words_eq]

end Text
end Cdcl
