import Cdcl.Dimacs
import Cdcl.Text.Numeral
import Mathlib.Data.List.Forall2
import Mathlib.Data.List.TakeWhile
/-!
# Dimacs.Grammar — what a text holds, and which texts are well formed

A text holds counts and integers, one after the other (`Item`).  The lines that count are those before the first line that
starts with `%`, but for blank lines and those that start with `c` (`considered`), where a line starts with its first
character that is not blank.  A line that starts with `p` yields counts, and any other line the integers its words stand for
(`Yields`).

A text is accepted if each of its lines that count yields something, and the last integer is a zero, if there is one
(`Accepts`).  Otherwise it is rejected for its first line that yields nothing, or at its end (`Rejects`).  Either is the case
of every text (`accepts_or_rejects`).
-/
namespace Cdcl
namespace Dimacs

open Text (Spaced Signed Unsigned)

/-- What a text holds at a time. -/
inductive Item
  /-- So many atoms and so many clauses are announced. -/
  | counts (atoms clauses : Nat)
  | integer (v : Int)
deriving DecidableEq, Repr

/-- The character a line starts with: its first that is not blank. -/
def first? (line : List Char) : Option Char := line.find? (!Text.isBlank ·)

/-- The lines that count, each with its number, where the first line has a given one. -/
def considered (lines : List (List Char)) (number : Nat) : List (List Char × Nat) :=
  ((lines.takeWhile (first? · != some '%')).zipIdx number).filter fun l =>
    first? l.1 != none && first? l.1 != some 'c'

/-- A word that stands for zero or a literal. -/
def Token (word : List Char) (v : Int) : Prop := Signed word v ∧ v.natAbs ≤ atomLimit

/-- The words of a line that starts with `p`, and the counts it announces.  Anything may follow them. -/
inductive Announces : List (List Char) → Nat → Nat → Prop
  | intro {first second : List Char} {rest : List (List Char)} {atoms clauses : Nat} (hatoms : Unsigned first atoms)
      (hclauses : Unsigned second clauses) (hlimit : atoms ≤ atomLimit) (hmax : clauses ≤ countMax) :
      Announces (['p'] :: ['c', 'n', 'f'] :: first :: second :: rest) atoms clauses

/-- What a line that counts yields. -/
inductive Yields : List Char → List Item → Prop
  | counts {line : List Char} {words : List (List Char)} {atoms clauses : Nat} (hfirst : first? line = some 'p')
      (hwords : Spaced words line) (hcounts : Announces words atoms clauses) : Yields line [.counts atoms clauses]
  | integers {line : List Char} {words : List (List Char)} {vs : List Int} (hfirst : first? line ≠ some 'p')
      (hwords : Spaced words line) (htokens : List.Forall₂ Token words vs) : Yields line (vs.map .integer)

/-- What a line that counts yields before what is wrong with it. -/
inductive Spoils : List Char × Nat → List Item → ParseError → Prop
  | counts {line : List Char} {number : Nat} {words : List (List Char)} (hfirst : first? line = some 'p')
      (hwords : Spaced words line) (hnone : ∀ atoms clauses, ¬Announces words atoms clauses) :
      Spoils (line, number) [] .problemSpecification
  | integers {line : List Char} {number : Nat} {words rest : List (List Char)} {word : List Char} {vs : List Int}
      (hfirst : first? line ≠ some 'p') (hwords : Spaced (words ++ word :: rest) line)
      (htokens : List.Forall₂ Token words vs) (hnone : ∀ v, ¬Token word v) :
      Spoils (line, number) (vs.map .integer) (.literal number)

/-- What lines that count yield, in one. -/
inductive Holds : List (List Char × Nat) → List Item → Prop
  | nil : Holds [] []
  | cons {line : List Char} {number : Nat} {lines : List (List Char × Nat)} {items more : List Item}
      (hline : Yields line items) (hlines : Holds lines more) : Holds ((line, number) :: lines) (items ++ more)

/-- What lines that count yield before the first of them that something is wrong with. -/
inductive Breaks : List (List Char × Nat) → List Item → ParseError → Prop
  | here {line : List Char × Nat} {lines : List (List Char × Nat)} {items : List Item} {e : ParseError}
      (hline : Spoils line items e) : Breaks (line :: lines) items e
  | later {line : List Char} {number : Nat} {lines : List (List Char × Nat)} {items more : List Item} {e : ParseError}
      (hline : Yields line items) (hlines : Breaks lines more e) : Breaks ((line, number) :: lines) (items ++ more) e

/-- The integers among items. -/
def integers (items : List Item) : List Int :=
  items.filterMap fun
    | .counts _ _ => none
    | .integer v => some v

/-- There is no integer, or the last one is zero. -/
def Closed (items : List Item) : Prop := ∀ v ∈ (integers items).getLast?, v = 0

/-- A text, given by its lines, is well formed and holds some items. -/
def Accepts (lines : List (List Char)) (items : List Item) : Prop := Holds (considered lines 1) items ∧ Closed items

/-- Something is wrong with a text, and some items come before that. -/
inductive Rejects (lines : List (List Char)) : List Item → ParseError → Prop
  | line {items : List Item} {e : ParseError} (h : Breaks (considered lines 1) items e) : Rejects lines items e
  | unterminated {items : List Item} (h : Holds (considered lines 1) items) (hopen : ¬Closed items) :
      Rejects lines items .unterminatedClause

/-! ## Lines that count -/

theorem considered_cons (line : List Char) (lines : List (List Char)) (number : Nat) :
    considered (line :: lines) number =
      if first? line = none ∨ first? line = some 'c' then considered lines (number + 1)
      else if first? line = some '%' then []
      else (line, number) :: considered lines (number + 1) := by
  unfold considered
  by_cases hstop : first? line = some '%'
  · simp [hstop]
  · rw [List.takeWhile_cons_of_pos (by simpa using hstop), List.zipIdx_cons, List.filter_cons]
    by_cases hskip : first? line = none ∨ first? line = some 'c'
    · rw [if_pos hskip, if_neg (by rcases hskip with h | h <;> simp [h])]
    · rw [if_neg hskip, if_neg hstop, if_pos (by simpa [not_or] using hskip)]

/-! ## Every text is accepted or rejected -/

theorem forall_token_or : ∀ words : List (List Char), (∃ vs, List.Forall₂ Token words vs) ∨
    ∃ good bad rest vs, words = good ++ bad :: rest ∧ List.Forall₂ Token good vs ∧ ∀ v, ¬Token bad v
  | [] => .inl ⟨[], .nil⟩
  | word :: words => by
    by_cases hword : ∃ v, Token word v
    · obtain ⟨v, hv⟩ := hword
      rcases forall_token_or words with ⟨vs, hvs⟩ | ⟨good, bad, rest, vs, rfl, hvs, hbad⟩
      · exact .inl ⟨v :: vs, .cons hv hvs⟩
      · exact .inr ⟨word :: good, bad, rest, v :: vs, rfl, .cons hv hvs, hbad⟩
    · exact .inr ⟨[], word, words, [], rfl, .nil, fun v hv => hword ⟨v, hv⟩⟩

theorem yields_or_spoils (line : List Char) (number : Nat) :
    (∃ items, Yields line items) ∨ ∃ items e, Spoils (line, number) items e := by
  have hwords := Text.words_eq_iff.1 (rfl : Text.words line = _)
  by_cases hfirst : first? line = some 'p'
  · by_cases hcounts : ∃ atoms clauses, Announces (Text.words line) atoms clauses
    · obtain ⟨atoms, clauses, hcounts⟩ := hcounts
      exact .inl ⟨_, .counts hfirst hwords hcounts⟩
    · exact .inr ⟨_, _, .counts hfirst hwords fun atoms clauses h => hcounts ⟨atoms, clauses, h⟩⟩
  · rcases forall_token_or (Text.words line) with ⟨vs, hvs⟩ | ⟨good, bad, rest, vs, hsplit, hvs, hbad⟩
    · exact .inl ⟨_, .integers hfirst hwords hvs⟩
    · exact .inr ⟨_, _, .integers hfirst (hsplit ▸ hwords) hvs hbad⟩

theorem holds_or_breaks : ∀ lines : List (List Char × Nat), (∃ items, Holds lines items) ∨ ∃ items e, Breaks lines items e
  | [] => .inl ⟨[], .nil⟩
  | (line, number) :: lines => by
    rcases yields_or_spoils line number with ⟨items, hline⟩ | ⟨items, e, hline⟩
    · rcases holds_or_breaks lines with ⟨more, hlines⟩ | ⟨more, e, hlines⟩
      · exact .inl ⟨_, .cons hline hlines⟩
      · exact .inr ⟨_, e, .later hline hlines⟩
    · exact .inr ⟨items, e, .here hline⟩

/-- **A text is accepted or rejected.** -/
theorem accepts_or_rejects (lines : List (List Char)) :
    (∃ items, Accepts lines items) ∨ ∃ items e, Rejects lines items e := by
  rcases holds_or_breaks (considered lines 1) with ⟨items, h⟩ | ⟨items, e, h⟩
  · by_cases hclosed : Closed items
    · exact .inl ⟨items, h, hclosed⟩
    · exact .inr ⟨items, _, .unterminated h hclosed⟩
  · exact .inr ⟨items, e, .line h⟩

/-! ## Reading words -/

/-- **A word is read as the integer it stands for.** -/
theorem integer?_eq_some_iff {word : List Char} {v : Int} : integer? word = some v ↔ Token word v := by
  unfold integer? Token
  rw [Option.filter_eq_some_iff, Text.signed64?_eq_some_iff, decide_eq_true_eq]
  have hlimit : atomLimit = 2147483647 := rfl
  exact ⟨fun ⟨⟨h, _⟩, hle⟩ => ⟨h, hle⟩, fun ⟨h, hle⟩ => ⟨⟨h, by omega, by omega⟩, hle⟩⟩

theorem integer?_eq_none_iff {word : List Char} : integer? word = none ↔ ∀ v, ¬Token word v := by
  simp only [Option.eq_none_iff_forall_ne_some, ne_eq, integer?_eq_some_iff]

theorem forall_token_iff {words : List (List Char)} {vs : List Int} :
    List.Forall₂ Token words vs ↔ words.map integer? = vs.map some := by
  induction words generalizing vs with
  | nil => cases vs <;> simp
  | cons word words ih => cases vs <;> simp [ih, integer?_eq_some_iff]

/-- **The words of a problem line are read as the counts it announces.** -/
theorem problem?_eq_some_iff {words : List (List Char)} {atoms clauses : Nat} :
    problem? words = some (atoms, clauses) ↔ Announces words atoms clauses := by
  constructor
  · intro h
    unfold problem? at h
    split at h
    · obtain ⟨a, ha, h⟩ := Option.bind_eq_some_iff.1 h
      obtain ⟨c, hc, h⟩ := Option.bind_eq_some_iff.1 h
      split at h
      · cases h
        exact .intro (Text.unsigned?_eq_some_iff.1 ha).1 (Text.unsigned?_eq_some_iff.1 hc).1 ‹_›
          (Text.unsigned?_eq_some_iff.1 hc).2
      · cases h
    · cases h
  · rintro ⟨hatoms, hclauses, hlimit, hmax⟩
    have hle : atoms ≤ countMax := Nat.le_trans hlimit (by decide)
    have ha := Text.unsigned?_eq_some_iff.2 ⟨hatoms, hle⟩
    have hc := Text.unsigned?_eq_some_iff.2 ⟨hclauses, hmax⟩
    simp [problem?, ha, hc, hlimit]

theorem problem?_eq_none_iff {words : List (List Char)} :
    problem? words = none ↔ ∀ atoms clauses, ¬Announces words atoms clauses := by
  simp only [Option.eq_none_iff_forall_ne_some, Prod.forall, ne_eq, problem?_eq_some_iff]

/-! ## Reading lines -/

/-- What a line is taken for depends on the character it starts with. -/
theorem ofChars_eq (line : List Char) :
    Line.ofChars line =
      if first? line = none ∨ first? line = some 'c' then .skip
      else if first? line = some '%' then .stop
      else if first? line = some 'p' then .problem (Text.words line)
      else .literals (Text.words line) := by
  rw [first?, List.find?_not_eq_head?_dropWhile]
  unfold Line.ofChars
  cases line.dropWhile Text.isBlank with
  | nil => rfl
  | cons c rest => split <;> simp_all

end Dimacs
end Cdcl
