import Cdcl.Dimacs.Written
import Cdcl.Proofs.Accepting
/-!
# Writing — what is written is read back

A text made of a problem line and clauses, in whatever layout, stands for the calls that make the announced atoms and then add
the clauses one after the other (`calls_written`).  Read into an empty context it leads to where these calls lead, and the
info counts the clauses (`readDimacsBytes_written`).

The problem line needs a line of its own, since anything may follow on it: clauses there are passed over
(`readDimacsBytes_not_written`).
-/
namespace Cdcl

open Run

namespace Dimacs

/-! ## The calls of clauses -/

/-- Literals of atoms there are only wait for their zero. -/
theorem calls_clause {n : Nat} (rest : List Item) : ∀ {clause : Clause} (before : Clause), (∀ l ∈ clause, l.atom < n) →
    calls n before ((clause.map Literal.toInt).map .integer ++ .integer 0 :: rest) =
      .addClause (before.reverse ++ clause) :: calls n [] rest
  | [], before, _ => by
    rw [List.append_nil]
    rfl
  | l :: clause, before, h => by
    obtain ⟨hl, hclause⟩ := List.forall_mem_cons.1 h
    have hle : l.atom + 1 ≤ n := hl
    rw [List.map_cons, List.map_cons, List.cons_append, calls, if_neg l.toInt_ne_zero, l.ofAtom_toInt, l.natAbs_toInt,
      Nat.sub_eq_zero_of_le hle, Nat.max_eq_left hle, calls_clause rest (l :: before) hclause]
    simp

theorem calls_writtenIntegers {n : Nat} : ∀ {clauses : List Clause}, (∀ clause ∈ clauses, ∀ l ∈ clause, l.atom < n) →
    calls n [] ((writtenIntegers clauses).map .integer) = clauses.map .addClause
  | [], _ => rfl
  | clause :: clauses, h => by
    obtain ⟨hclause, hclauses⟩ := List.forall_mem_cons.1 h
    have hsplit : (writtenIntegers (clause :: clauses)).map Item.integer =
        (clause.map Literal.toInt).map .integer ++ .integer 0 :: (writtenIntegers clauses).map .integer := by
      simp [writtenIntegers]
    rw [hsplit, calls_clause _ [] hclause, calls_writtenIntegers hclauses]
    rfl

/-- The calls that make atoms and then add clauses. -/
def building (atoms : Nat) (clauses : List Clause) : List Call :=
  List.replicate atoms .freshAtom ++ clauses.map .addClause

/-- **A problem line and clauses stand for the calls that make the atoms and add the clauses.** -/
theorem calls_written {atoms count : Nat} {clauses : List Clause}
    (h : ∀ clause ∈ clauses, ∀ l ∈ clause, l.atom < atoms) :
    calls 0 [] (writtenItems atoms count clauses) = building atoms clauses := by
  rw [writtenItems, calls, Nat.sub_zero, Nat.max_eq_right (Nat.zero_le _), calls_writtenIntegers h, building]

theorem count_writtenIntegers (clauses : List Clause) : (writtenIntegers clauses).count 0 = clauses.length := by
  have hclause : ∀ clause : Clause, (clause.map Literal.toInt).count 0 = 0 := fun clause =>
    List.count_eq_zero.2 fun h => by
      obtain ⟨l, -, hl⟩ := List.mem_map.1 h
      exact l.toInt_ne_zero hl
  unfold writtenIntegers
  induction clauses with
  | nil => rfl
  | cons clause clauses ih =>
    rw [List.flatMap_cons, List.count_append, List.count_append, hclause, ih]
    simp [Nat.add_comm]

theorem summary_written (atoms count n : Nat) (clauses : List Clause) :
    summary (writtenItems atoms count clauses) n =
      { expectedAtoms := some atoms, expectedClauses := some count, atoms := n, clauses := clauses.length } := by
  have hannounced : announced (writtenItems atoms count clauses) = some (atoms, count) := by
    simp [announced, writtenItems, List.filterMap_map]
  have hcount : (writtenItems atoms count clauses).count (.integer 0) = clauses.length := by
    rw [writtenItems, List.count_cons_of_ne (by simp), List.count_map_of_injective _ _ fun _ _ => Item.integer.inj,
      count_writtenIntegers]
  rw [summary, hannounced, hcount]
  rfl

end Dimacs

namespace Session

open Dimacs Solver Context

theorem meets_building (atoms : Nat) (clauses : List Clause) (c : Context) :
    Meets ((building atoms clauses).forM Call.program) c (fun _ d => d.atoms.count = c.atoms.count + atoms)
      fun _ => True := by
  have hadd : Within SameCount ((clauses.map Call.addClause).forM Call.program) := by
    rw [List.forM_eq_forM, List.forM_map]
    exact within_forM (fun clause => within_bind (sameCount_addClause clause) fun _ => within_pure) clauses
  rw [building, List.forM_eq_forM, List.forM_append, meets_bind]
  refine (meets_replicate_freshAtom atoms c).mono (fun _ d hd => ?_) fun _ => id
  exact (hadd d).meets.mono (fun _ e he => he.trans hd) fun _ _ => trivial

/-- **What is written is read back**, in whatever layout, if the problem line has a line of its own: into an empty context,
reading does what making the atoms and adding the clauses does, and says how many clauses there are. -/
theorem readDimacsBytes_written (options : Options) (random : Chance) {atoms count : Nat} {clauses : List Clause}
    {text : String} {lines : List (List Char)} (hatoms : atoms ≤ atomLimit) (hcount : count ≤ countMax)
    (hclauses : ∀ clause ∈ clauses, ∀ l ∈ clause, l.atom < atoms) (hlines : Text.Lined (· == '\n') lines text.toList)
    (hwritten : Written atoms count clauses lines) :
    (∃ d, (building atoms clauses).forM Call.program (.make options random) = .ok () d ∧
      readDimacsBytes text.toUTF8 (.make options random) = .ok
        { expectedAtoms := some atoms, expectedClauses := some count, atoms := atoms, clauses := clauses.length } d) ∨
    ∃ e d, (Context.make options random).Obstructed (building atoms clauses) e d ∧
      readDimacsBytes text.toUTF8 (.make options random) = .error e d := by
  have haccepts := hwritten.accepts hatoms hcount fun clause hclause l hl =>
    Nat.lt_of_lt_of_le (hclauses clause hclause l hl) hatoms
  have hstart : (start options random).Followed := .start options random
  have hcalls : calls (start options random).context.atoms.count [] (writtenItems atoms count clauses) =
      building atoms clauses := calls_written hclauses
  have hread : readDimacsBytes text.toUTF8 = readAll (lines.map some) := by
    rw [readDimacsBytes_toUTF8, hlines.lines_eq]
  rw [hread]
  have hreads := ((hstart.enterable rfl).reads lines).accepted _ haccepts
  unfold Carries at hreads
  rw [hcalls] at hreads
  refine hreads.imp_left fun ⟨d, hd, hread⟩ => ⟨d, hd, hread.trans ?_⟩
  have hsize : d.atoms.count = 0 + atoms := (meets_building atoms clauses (.make options random)).of_ok hd
  dsimp only
  rw [summary_written, hsize, Nat.zero_add]

/-- Two clauses, the second of them empty, with the first over two lines, a comment between them, and a blank line. -/
theorem readDimacsBytes_written_two : 2 ≤ atomLimit ∧ 2 ≤ countMax ∧
    (∀ clause ∈ [[x₀, x₁.negate], []], ∀ l ∈ clause, l.atom < 2) ∧
    ∃ lines, Text.Lined (· == '\n') lines "c\np cnf 2 2\n1\nc 5\n\t-2 0\n\n0".toList ∧
      Written 2 2 [[x₀, x₁.negate], []] lines ∧
      ∃ d, (building 2 [[x₀, x₁.negate], []]).forM Call.program (.make {} .default) = .ok () d ∧
        readDimacsBytes "c\np cnf 2 2\n1\nc 5\n\t-2 0\n\n0".toUTF8 (.make {} .default) = .ok
          { expectedAtoms := some 2, expectedClauses := some 2, atoms := 2, clauses := 2 } d := by
  have hatoms : 2 ≤ atomLimit := by decide
  have hcount : 2 ≤ countMax := by decide
  have hclauses : ∀ clause ∈ [[x₀, x₁.negate], []], ∀ l ∈ clause, l.atom < 2 := by decide
  have hlines : Text.Lined (· == '\n') ["c".toList, "p cnf 2 2".toList, "1".toList, "c 5".toList, "\t-2 0".toList, [], ['0']]
      "c\np cnf 2 2\n1\nc 5\n\t-2 0\n\n0".toList := Text.lines_eq_iff.1 (by decide)
  have hwritten : Written 2 2 [[x₀, x₁.negate], []]
      ["c".toList, "p cnf 2 2".toList, "1".toList, "c 5".toList, "\t-2 0".toList, [], ['0']] := by
    refine @Written.intro _ _ _ ["c".toList] _ _ ?_ (Text.words_eq_iff.1 (by decide)) ?_
    · exact List.forall_mem_singleton.2 (.inr (by decide))
    · have hwords : written [[x₀, x₁.negate], []] =
          ["1".toList] ++ (["-2".toList, "0".toList] ++ ([] ++ (["0".toList] ++ []))) := by
        simp only [written, words_toDimacs, List.flatMap_cons, List.flatMap_nil]
        decide
      rw [hwords]
      exact .words (Text.words_eq_iff.1 (by decide)) (.silent (.inr (by decide)) (.words (Text.words_eq_iff.1 (by decide))
        (.words (Text.words_eq_iff.1 (by decide)) (.words (Text.words_eq_iff.1 (by decide)) .nil))))
  have hmade : (((building 2 [[x₀, x₁.negate], []]).forM Call.program).ended (.make {} .default)).map Prod.fst =
      some (some ()) := by
    have hempty : Clause.normal [] = [] := Clause.normal_of_pairwise .nil
    simp only [building, List.replicate, List.cons_append, List.nil_append, List.map, List.forM_eq_forM, List.forM_cons,
      List.forM_nil, Call.program, addClause, normal_or_negate, hempty]
    decide +kernel
  refine ⟨hatoms, hcount, hclauses, _, hlines, hwritten, ?_⟩
  rcases readDimacsBytes_written {} .default hatoms hcount hclauses hlines hwritten with hread | ⟨e, d, hd, -⟩
  · exact hread
  · obtain ⟨⟨_, b⟩, hb, rfl⟩ := Option.map_eq_some_iff.1 hmade
    cases (ended_eq_answer hb).symm.trans hd.stops

/-- **Clauses on the line of the problem line are passed over**, so it is not enough that the words are there. -/
theorem readDimacsBytes_not_written : ¬∀ (atoms count : Nat) (clauses : List Clause) (text : String)
    (lines : List (List Char)), atoms ≤ atomLimit → count ≤ countMax →
    (∀ clause ∈ clauses, ∀ l ∈ clause, l.atom < atoms) → Text.Lined (· == '\n') lines text.toList →
    Rows lines (heading atoms count ++ written clauses) →
    ∃ info d, readDimacsBytes text.toUTF8 (.make {} .default) = .ok info d ∧ info.clauses = clauses.length := by
  intro h
  have hlines : Text.Lined (· == '\n') ["p cnf 2 1 1 -2 0".toList] "p cnf 2 1 1 -2 0\n".toList :=
    Text.lines_eq_iff.1 (by decide)
  have hwords : Text.words "p cnf 2 1 1 -2 0".toList = heading 2 1 ++ written [[x₀, x₁.negate]] := by
    simp only [written, words_toDimacs, List.flatMap_cons, List.flatMap_nil]
    decide
  have hrows : Rows ["p cnf 2 1 1 -2 0".toList] (heading 2 1 ++ written [[x₀, x₁.negate]]) := by
    rw [← List.append_nil (heading 2 1 ++ _)]
    exact .words (Text.words_eq_iff.1 hwords) .nil
  obtain ⟨info, d, hd, hinfo⟩ := h 2 1 [[x₀, x₁.negate]] _ _ (by decide) (by decide) (by decide) hlines hrows
  -- the line is no more than a problem line
  have haccepts : Accepts ["p cnf 2 1 1 -2 0".toList] [.counts 2 1] :=
    ⟨@Holds.cons _ 1 _ _ _ (.counts (by decide) (Text.words_eq_iff.1 rfl) (problem?_eq_some_iff.1 (by decide))) .nil,
      nofun⟩
  have hstart : (start {} .default).Followed := .start {} .default
  have hread := ((hstart.enterable rfl).reads _).accepted _ haccepts
  rw [← hlines.lines_eq, ← readDimacsBytes_toUTF8] at hread
  rcases hread with ⟨b, -, hb⟩ | ⟨e, b, -, hb⟩
  · have hb := hd.symm.trans hb
    cases hb
    cases hinfo
  · have hb := hd.symm.trans hb
    cases hb

end Session

end Cdcl
