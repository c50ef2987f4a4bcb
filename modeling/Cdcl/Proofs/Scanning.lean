import Cdcl.Dimacs.Grammar
import Cdcl.Proofs.Calls
/-!
# Scanning — reading a text is taking its items

What is read of a text is taken item by item (`readItem`): counts and literals make atoms, and a zero adds the clause at
hand.  So a text that holds some items is read as these, and one that something is wrong with is read up to there and fails
(`readAll_of_accepts`, `readAll_of_rejects`).

To take items is to make calls, which depend on the items and on how many atoms there are (`Item.calls`); what has been read
afterwards depends on the items alone (`foldlM_readItem`).
-/
namespace Cdcl
namespace Dimacs

/-- An item has been read. -/
def Progress.take (p : Progress) : Item → Progress
  | .counts atoms clauses =>
    { p with info := { p.info with expectedAtoms := some atoms, expectedClauses := some clauses } }
  | .integer v =>
    if v = 0 then { info := { p.info with clauses := p.info.clauses + 1 }, clause := [] }
    else { p with clause := .ofAtom (v.natAbs - 1) (0 < v) :: p.clause }

/-- What the last problem line announced. -/
def announced (items : List Item) : Option (Nat × Nat) :=
  (items.filterMap fun
    | .counts atoms clauses => some (atoms, clauses)
    | .integer _ => none).getLast?

/-- The info on a text that holds some items, for a context with so many atoms after it. -/
def summary (items : List Item) (atoms : Nat) : Info where
  expectedAtoms := (announced items).map Prod.fst
  expectedClauses := (announced items).map Prod.snd
  atoms := atoms
  clauses := items.count (.integer 0)

/-- The calls that items stand for, with so many atoms at first, and the literals of the clause at hand, the last first:
atoms are made until there are as many as announced, or as a literal needs, and a zero adds the clause. -/
def calls (atoms : Nat) (clause : Clause) : List Item → List Call
  | [] => []
  | .counts n _ :: rest => List.replicate (n - atoms) .freshAtom ++ calls (max atoms n) clause rest
  | .integer v :: rest =>
    if v = 0 then .addClause clause.reverse :: calls atoms [] rest
    else List.replicate (v.natAbs - atoms) .freshAtom ++
      calls (max atoms v.natAbs) (.ofAtom (v.natAbs - 1) (0 < v) :: clause) rest

/-! ## What has been read after some items -/

variable {p : Progress} {v : Int}

theorem Progress.take_counts {atoms clauses : Nat} : p.take (.counts atoms clauses) =
    { p with info := { p.info with expectedAtoms := some atoms, expectedClauses := some clauses } } := rfl

theorem Progress.take_zero :
    p.take (.integer 0) = { info := { p.info with clauses := p.info.clauses + 1 }, clause := [] } := rfl

theorem Progress.take_literal (hv : v ≠ 0) :
    p.take (.integer v) = { p with clause := .ofAtom (v.natAbs - 1) (0 < v) :: p.clause } := if_neg hv

theorem info_foldl_take (items : List Item) : (items.foldl Progress.take {}).info = summary items 0 := by
  induction items using List.reverseRecOn with
  | nil => rfl
  | append_singleton items i ih =>
    rw [List.foldl_append, List.foldl_cons, List.foldl_nil]
    cases i with
    | counts atoms clauses => simp [Progress.take_counts, ih, summary, announced]
    | integer v =>
      by_cases hv : v = 0
      · rw [hv, Progress.take_zero, ih]
        simp [summary, announced]
      · rw [Progress.take_literal hv, ih]
        simp [summary, announced, hv]

/-- **Items are closed if no literals are at hand after them.** -/
theorem closed_iff (items : List Item) : Closed items ↔ (items.foldl Progress.take {}).clause = [] := by
  induction items using List.reverseRecOn with
  | nil => simp [Closed, integers]
  | append_singleton items i ih =>
    rw [List.foldl_append, List.foldl_cons, List.foldl_nil]
    cases i with
    | counts atoms clauses => simpa [Closed, integers, Progress.take_counts] using ih
    | integer v =>
      by_cases hv : v = 0
      · rw [hv, Progress.take_zero]
        simp [Closed, integers]
      · rw [Progress.take_literal hv]
        simp [Closed, integers, hv]

end Dimacs

namespace Solver

open Run Dimacs

variable {p : Progress} {c : Context}

/-! ## Taking items -/

/-- Takes in an item. -/
def readItem (p : Progress) : Item → Solver Progress
  | .counts n clauses => do
    ensureAtoms n
    pure (p.take (.counts n clauses))
  | .integer v => do
    if v = 0 then
      let _ ← addClause p.clause.reverse
      pure (p.take (.integer v))
    else
      ensureAtoms v.natAbs
      pure (p.take (.integer v))

def readItems (items : List Item) (p : Progress) : Solver Progress := items.foldlM readItem p

/-- Takes in a line that counts. -/
def readLine (p : Progress) (line : List Char × Nat) : Solver Progress :=
  if first? line.1 = some 'p' then
    match problem? (Text.words line.1) with
    | none => Run.fail (.parse .problemSpecification)
    | some (atoms, clauses) => readItem p (.counts atoms clauses)
  else readWords line.2 (Text.words line.1) p

theorem readItems_append (items more : List Item) (p : Progress) :
    readItems (items ++ more) p = readItems items p >>= readItems more := List.foldlM_append

theorem readWords_eq_readItems {line : Nat} {words : List (List Char)} {vs : List Int}
    (h : List.Forall₂ Token words vs) (rest : List (List Char)) : ∀ p : Progress,
    readWords line (words ++ rest) p = readItems (vs.map .integer) p >>= readWords line rest := by
  induction h with
  | nil => exact fun p => (pure_bind p _).symm
  | @cons word v words vs hword _ ih =>
    intro p
    rw [List.cons_append, readWords, integer?_eq_some_iff.2 hword]
    show _ = (readItem p (.integer v) >>= readItems (vs.map .integer)) >>= readWords line rest
    rw [bind_assoc]
    unfold readItem
    dsimp only
    split
    · rename_i hv
      rw [hv, Progress.take_zero, bind_assoc]
      simp only [pure_bind]
      exact bind_congr fun _ => ih _
    · rename_i hv
      rw [Progress.take_literal hv, bind_assoc]
      simp only [pure_bind]
      exact bind_congr fun _ => ih _

theorem readLine_of_yields {line : List Char} {items : List Item} (h : Yields line items) (number : Nat) (p : Progress) :
    readLine p (line, number) = readItems items p := by
  unfold readLine
  cases h with
  | counts hfirst hwords hcounts =>
    rw [if_pos hfirst, hwords.words_eq, problem?_eq_some_iff.2 hcounts]
    exact (bind_pure _).symm
  | integers hfirst hwords htokens =>
    have hread : readWords number (_ ++ []) p = _ := readWords_eq_readItems htokens [] p
    rw [List.append_nil] at hread
    rw [if_neg hfirst, hwords.words_eq, hread]
    exact bind_pure _

theorem readLine_of_spoils {line : List Char × Nat} {items : List Item} {e : ParseError} (h : Spoils line items e)
    (p : Progress) : readLine p line = readItems items p >>= fun _ => Run.fail (.parse e) := by
  unfold readLine
  cases h with
  | counts hfirst hwords hnone =>
    rw [if_pos hfirst, hwords.words_eq, problem?_eq_none_iff.2 hnone]
    exact (pure_bind _ _).symm
  | integers hfirst hwords htokens hnone =>
    rw [if_neg hfirst, hwords.words_eq, readWords_eq_readItems htokens]
    refine bind_congr fun p => ?_
    rw [readWords, integer?_eq_none_iff.2 hnone]

theorem readLines_of_holds {lines : List (List Char × Nat)} {items : List Item} (h : Holds lines items) :
    ∀ p : Progress, lines.foldlM readLine p = readItems items p := by
  induction h with
  | nil => exact fun _ => rfl
  | cons hline _ ih =>
    intro p
    rw [List.foldlM_cons, readLine_of_yields hline, readItems_append]
    exact bind_congr ih

theorem readLines_of_breaks {lines : List (List Char × Nat)} {items : List Item} {e : ParseError}
    (h : Breaks lines items e) : ∀ p : Progress,
    lines.foldlM readLine p = readItems items p >>= fun _ => Run.fail (.parse e) := by
  induction h with
  | here hline =>
    intro p
    rw [List.foldlM_cons, readLine_of_spoils hline, bind_assoc]
    rfl
  | later hline _ ih =>
    intro p
    rw [List.foldlM_cons, readLine_of_yields hline, readItems_append, bind_assoc]
    exact bind_congr ih

/-- **Only the lines that count are read.** -/
theorem readLines_eq_considered : ∀ (lines : List (List Char)) (before : Nat) (p : Progress),
    readLines before (lines.map some) p = (considered lines (before + 1)).foldlM readLine p
  | [], _, _ => rfl
  | line :: lines, before, p => by
    have ih := readLines_eq_considered lines (before + 1)
    rw [List.map_cons, readLines, ofChars_eq, considered_cons]
    by_cases hskip : first? line = none ∨ first? line = some 'c'
    · rw [if_pos hskip, if_pos hskip]
      exact ih p
    rw [if_neg hskip, if_neg hskip]
    by_cases hstop : first? line = some '%'
    · rw [if_pos hstop, if_pos hstop]
      rfl
    rw [if_neg hstop, if_neg hstop, List.foldlM_cons]
    unfold readLine
    by_cases hproblem : first? line = some 'p'
    · rw [if_pos hproblem, if_pos hproblem]
      dsimp only
      cases problem? (Text.words line) with
      | none => rfl
      | some counts =>
        show _ = (ensureAtoms counts.1 >>= fun _ => pure (p.take (.counts counts.1 counts.2))) >>= _
        rw [bind_assoc]
        exact bind_congr fun _ => ih _
    · rw [if_neg hproblem, if_neg hproblem]
      exact bind_congr ih

/-! ## Calls instead of items -/

/-- The number of atoms stays. -/
def SameCount (c d : Context) : Prop := d.atoms.count = c.atoms.count

instance : Chained SameCount where
  refl _ := rfl
  trans h h' := h'.trans h

instance : Stepped SameCount := .ofStill (fun _ _ => trivial) Context.Still.count

instance : Refutable SameCount where
  refuted _ := rfl

theorem sameCount_addClause (clause : Clause) : Within SameCount (addClause clause) :=
  within_addClause (R := SameCount) (fun _ => rfl) clause

theorem meets_freshAtom_next : Meets freshAtom c
    (fun _ d => d.atoms.count = c.atoms.count + 1 ∧ d.trail = c.trail) fun _ => True := by
  unfold freshAtom
  rw [meets_bind, meets_get, meets_bind]
  refine meets_chance fun previous random => ?_
  rw [meets_bind, meets_onAtoms]
  exact AtomTable.Call.meets_fresh (fun _ => ⟨AtomTable.count_push _ _, rfl⟩) trivial

theorem meets_replicate_freshAtom : ∀ (n : Nat) (c : Context),
    Meets ((List.replicate n Call.freshAtom).forM Call.program) c (fun _ d => d.atoms.count = c.atoms.count + n) fun _ => True
  | 0, _ => rfl
  | n + 1, c => by
    show Meets ((do let _ ← freshAtom) >>= fun _ => _) c _ _
    rw [meets_bind, meets_bind]
    refine meets_freshAtom_next.mono (fun _ d ⟨hd, _⟩ => ?_) fun _ => id
    refine (meets_replicate_freshAtom n d).mono (fun _ e he => ?_) fun _ => id
    rw [he, hd]
    omega

theorem freshAtoms_eq : ∀ n : Nat,
    (do let _ ← freshAtoms n) = (List.replicate n Call.freshAtom).forM Call.program
  | 0 => rfl
  | n + 1 => by
    show _ = (do let _ ← freshAtom) >>= fun _ => (List.replicate n Call.freshAtom).forM Call.program
    rw [← freshAtoms_eq n]
    simp [freshAtoms]

/-- Atoms are made up to a number by calls for those that are missing. -/
theorem ensureAtoms_bind {α : Type} {n : Nat} {m : Solver α} {more : List Call} {a : α}
    (h : ∀ d : Context, d.atoms.count = max c.atoms.count n → m d = (do more.forM Call.program; pure a) d) :
    (ensureAtoms n >>= fun _ => m) c = (do
      (List.replicate (n - c.atoms.count) Call.freshAtom ++ more).forM Call.program
      pure a) c := by
  show ((do let _ ← freshAtoms (n - c.atoms.count)) >>= fun _ => m) c = _
  rw [freshAtoms_eq, List.forM_eq_forM, List.forM_append, bind_assoc]
  refine bind_eq_of_meets ((meets_replicate_freshAtom _ c).mono (fun _ d hd => h d ?_) fun _ => id)
  rw [hd]
  omega

/-- **Taking items is making calls.**  What has been read after them depends on the items alone. -/
theorem readItems_eq_calls : ∀ (items : List Item) (p : Progress) (c : Context),
    readItems items p c = (do
      (calls c.atoms.count p.clause items).forM Call.program
      pure (items.foldl Progress.take p)) c
  | [], _, _ => rfl
  | .counts n clauses :: items, p, c => by
    show ((ensureAtoms n >>= fun _ => pure (p.take (.counts n clauses))) >>= readItems items) c = _
    rw [bind_assoc]
    exact ensureAtoms_bind fun d hd => hd ▸ readItems_eq_calls items _ d
  | .integer v :: items, p, c => by
    show (readItem p (.integer v) >>= readItems items) c = _
    unfold readItem calls
    dsimp only
    split
    · rename_i hv
      rw [hv, Progress.take_zero, bind_assoc]
      show (addClause p.clause.reverse >>= fun _ => readItems items _) c =
        (((do let _ ← addClause p.clause.reverse) >>= fun _ => (calls c.atoms.count [] items).forM Call.program) >>= _) c
      rw [bind_assoc, bind_assoc]
      refine bind_eq_of_meets ((sameCount_addClause _ c).meets.mono (fun _ d hd => ?_)
        fun _ _ => trivial)
      rw [pure_bind, readItems_eq_calls items _ d, show d.atoms.count = c.atoms.count from hd]
      rfl
    · rename_i hv
      rw [bind_assoc]
      simp only [pure_bind]
      rw [List.foldl_cons, Progress.take_literal hv]
      exact ensureAtoms_bind fun d hd => hd ▸ readItems_eq_calls items _ d

/-- **A text that holds some items is read by making their calls.** -/
theorem readAll_of_accepts {lines : List (List Char)} {items : List Item} (h : Accepts lines items) (c : Context) :
    readAll (lines.map some) c = (do
      (calls c.atoms.count [] items).forM Call.program
      return summary items (← get).atoms.count) c := by
  have hclosed : (items.foldl Progress.take {}).clause = [] := (closed_iff items).1 h.2
  unfold readAll
  rw [readLines_eq_considered, readLines_of_holds h.1, bind_eq_of_eq (readItems_eq_calls items {} c), bind_assoc]
  simp only [pure_bind]
  rw [hclosed, info_foldl_take]
  rfl

/-- **A text that something is wrong with is read by making the calls of what comes before that.** -/
theorem readAll_of_rejects {lines : List (List Char)} {items : List Item} {e : ParseError} (h : Rejects lines items e)
    (c : Context) :
    readAll (lines.map some) c = (do
      (calls c.atoms.count [] items).forM Call.program
      Run.fail (.parse e)) c := by
  unfold readAll
  rw [readLines_eq_considered]
  cases h with
  | line h =>
    rw [readLines_of_breaks h, bind_assoc, bind_eq_of_eq (readItems_eq_calls items {} c), bind_assoc]
    rfl
  | unterminated h hopen =>
    have hne : ¬(items.foldl Progress.take {}).clause = [] := mt (closed_iff items).2 hopen
    rw [readLines_of_holds h, bind_eq_of_eq (readItems_eq_calls items {} c), bind_assoc]
    simp only [pure_bind, List.isEmpty_iff]
    rw [if_neg hne]

end Solver
end Cdcl
