import Cdcl.Proofs.Reliability
import Cdcl.Proofs.Scanning
import Cdcl.Text.Bytes
/-!
# Accepting — a text is read exactly if it is well formed

At level zero a call that adds an atom within the limit, or a clause of atoms there are, may not be made for two reasons only:
what atoms are drawn by is no probability, and every slot for a clause is in use (`Context.Obstacle`).  The calls that the
items of a text stand for never ask for more (`Fitting`), so they are made, or made up to one that there is an obstacle to
(`Session.Enterable.makes`).

So reading answers exactly for the texts that are well formed, unless there is an obstacle, and leads to where the calls
lead; and it fails for the others with what is wrong, after the calls for what comes before that (`readDimacsBytes_reads`).
-/
namespace Cdcl

open Run Dimacs

namespace Context

/-- Why a call may not be made: atoms are drawn by what is no probability, or every slot for a clause is in use. -/
inductive Obstacle (c : Context) : Call → Interrupt → Prop
  | chance (h : ¬(0.0 ≤ c.options.positiveChance.value ∧ c.options.positiveChance.value ≤ 1.0)) :
      Obstacle c .freshAtom .fault
  | room {clause : Clause} (h : slotLimit ≤ c.clauses.input.size) : Obstacle c (.addClause clause) .full

/-- Calls are made one after the other up to one that there is an obstacle to. -/
structure Obstructed (c : Context) (calls : List Call) (e : Interrupt) (d : Context) : Prop where
  stops : calls.forM Call.program c = .error e d
  obstacle : ∃ before call after b, calls = before ++ call :: after ∧ before.forM Call.program c = .ok () b ∧
    b.Obstacle call e

variable {c : Context} {call : Call} {calls : List Call}

theorem Obstructed.cons {d b : Context} {e : Interrupt} (hcall : call.program c = .ok () b) (h : b.Obstructed calls e d) :
    c.Obstructed (call :: calls) e d := by
  obtain ⟨hstops, before, other, after, a, rfl, ha, hobstacle⟩ := h
  exact ⟨(bind_of_ok hcall).trans hstops, call :: before, other, after, a, rfl, (bind_of_ok hcall).trans ha, hobstacle⟩

/-- **Calls are made, or made up to an obstacle**, if the first is, and the others are after it. -/
theorem makes_cons (hcall : ∀ e d, call.program c = .error e d → c.Obstacle call e)
    (hcalls : ∀ b, call.program c = .ok () b →
      (∃ d, calls.forM Call.program b = .ok () d) ∨ ∃ e d, b.Obstructed calls e d) :
    (∃ d, (call :: calls).forM Call.program c = .ok () d) ∨ ∃ e d, c.Obstructed (call :: calls) e d := by
  cases h : call.program c with
  | ok u b =>
    rcases hcalls b h with ⟨d, hd⟩ | ⟨e, d, hd⟩
    · exact .inl ⟨d, (bind_of_ok h).trans hd⟩
    · exact .inr ⟨e, d, hd.cons h⟩
  | error e d => exact .inr ⟨e, d, bind_of_error h, [], call, calls, c, rfl, rfl, hcall e d h⟩

end Context

/-- With so many atoms there is room for the atoms that calls make, and the clauses they add have atoms there are. -/
inductive Fitting : Nat → List Call → Prop
  | nil {n : Nat} : Fitting n []
  | freshAtom {n : Nat} {calls : List Call} (hn : n < atomLimit) (h : Fitting (n + 1) calls) :
      Fitting n (.freshAtom :: calls)
  | addClause {n : Nat} {clause : Clause} {calls : List Call} (hknown : ∀ l ∈ clause, l.atom < n) (h : Fitting n calls) :
      Fitting n (.addClause clause :: calls)

/-! ## The calls of items fit -/

namespace Dimacs

/-- How many atoms an item needs. -/
def Item.atoms : Item → Nat
  | .counts atoms _ => atoms
  | .integer v => v.natAbs

theorem Announces.le {words : List (List Char)} {atoms clauses : Nat} (h : Announces words atoms clauses) :
    atoms ≤ atomLimit := by
  cases h
  assumption

theorem atoms_le_of_tokens {words : List (List Char)} {vs : List Int} (h : List.Forall₂ Token words vs) :
    ∀ i ∈ vs.map Item.integer, i.atoms ≤ atomLimit := by
  induction h with
  | nil => exact nofun
  | cons hword _ ih => exact List.forall_mem_cons.2 ⟨hword.2, ih⟩

theorem Yields.atoms_le {line : List Char} {items : List Item} (h : Yields line items) :
    ∀ i ∈ items, i.atoms ≤ atomLimit := by
  cases h with
  | counts _ _ hcounts => exact List.forall_mem_singleton.2 hcounts.le
  | integers _ _ htokens => exact atoms_le_of_tokens htokens

theorem Holds.atoms_le {lines : List (List Char × Nat)} {items : List Item} (h : Holds lines items) :
    ∀ i ∈ items, i.atoms ≤ atomLimit := by
  induction h with
  | nil => exact nofun
  | cons hline _ ih => exact List.forall_mem_append.2 ⟨hline.atoms_le, ih⟩

theorem Breaks.atoms_le {lines : List (List Char × Nat)} {items : List Item} {e : ParseError} (h : Breaks lines items e) :
    ∀ i ∈ items, i.atoms ≤ atomLimit := by
  induction h with
  | here hline =>
    cases hline with
    | counts => exact nofun
    | integers _ _ htokens _ => exact atoms_le_of_tokens htokens
  | later hline _ ih => exact List.forall_mem_append.2 ⟨hline.atoms_le, ih⟩

theorem Rejects.atoms_le {lines : List (List Char)} {items : List Item} {e : ParseError} (h : Rejects lines items e) :
    ∀ i ∈ items, i.atoms ≤ atomLimit := by
  cases h with
  | line h => exact h.atoms_le
  | unterminated h _ => exact h.atoms_le

theorem fitting_replicate {calls : List Call} : ∀ {k n : Nat}, n + k ≤ atomLimit → Fitting (n + k) calls →
    Fitting n (List.replicate k .freshAtom ++ calls)
  | 0, _, _, h => h
  | k + 1, n, hle, h => by
    refine .freshAtom (by omega) (fitting_replicate (by omega) ?_)
    rwa [Nat.add_right_comm]

theorem fitting_calls : ∀ (items : List Item) (n : Nat) (clause : Clause), (∀ i ∈ items, i.atoms ≤ atomLimit) →
    n ≤ atomLimit → (∀ l ∈ clause, l.atom < n) → Fitting n (calls n clause items)
  | [], _, _, _, _, _ => .nil
  | .counts a _ :: items, n, clause, hitems, hn, hknown => by
    obtain ⟨ha, hitems⟩ := List.forall_mem_cons.1 hitems
    have ha : a ≤ atomLimit := ha
    have hmax : n + (a - n) = max n a := by omega
    unfold calls
    refine fitting_replicate (by omega) (hmax ▸ fitting_calls items _ _ hitems (by omega) fun l hl => ?_)
    exact Nat.lt_of_lt_of_le (hknown l hl) (Nat.le_add_right ..)
  | .integer v :: items, n, clause, hitems, hn, hknown => by
    obtain ⟨hv, hitems⟩ := List.forall_mem_cons.1 hitems
    have hv : v.natAbs ≤ atomLimit := hv
    unfold calls
    split
    · exact .addClause (fun l hl => hknown l (List.mem_reverse.1 hl)) (fitting_calls items n [] hitems hn (List.forall_mem_nil _))
    · rename_i hne
      have hmax : n + (v.natAbs - n) = max n v.natAbs := by omega
      refine fitting_replicate (by omega) (hmax ▸ fitting_calls items _ _ hitems (by omega)
        (List.forall_mem_cons.2 ⟨?_, fun l hl => Nat.lt_of_lt_of_le (hknown l hl) (Nat.le_add_right ..)⟩))
      rw [Literal.atom_ofAtom (Literal.lt_of_lt_atomLimit (by omega))]
      omega

end Dimacs

/-! ## Calls that fit are made -/

namespace Solver

variable {c : Context} {why : Interrupt → Prop}

/-- **A further atom is made** if there is room for it, and it is drawn by a probability. -/
theorem stops_freshAtom (hstocked : c.atoms.Stocked) (hroom : c.atoms.count < atomLimit)
    (hchance : ¬(0.0 ≤ c.options.positiveChance.value ∧ c.options.positiveChance.value ≤ 1.0) → why .fault) :
    Stops freshAtom c why := by
  unfold freshAtom
  rw [stops_bind_get]
  refine Stops.bind (Q := fun _ d => d.atoms = c.atoms) (E := fun _ => True) ?_ (meets_chance fun _ _ => rfl)
    fun previous d hd => ?_
  · by_cases hp : 0.0 ≤ c.options.positiveChance.value ∧ c.options.positiveChance.value ≤ 1.0
    · exact (answers_chance hp.1 hp.2).stops
    · unfold chance
      rw [stops_bind_get]
      refine Stops.andThen ?_ fun drawn _ => stops_bind_modify.2 stops_pure
      cases c.random.chance? c.options.positiveChance.value with
      | none =>
        intro e t he
        cases he
        exact hchance hp
      | some drawn => exact stops_pure
  · have hle : d.atoms.records.size ≤ atomMax := by
      rw [hd]
      exact Nat.le_of_lt_succ hroom
    have hfresh : Stops (AtomTable.Call.fresh previous) d.atoms why :=
      (AtomTable.Call.gives_fresh hle).stops (hd ▸ hstocked)
    exact (stops_onAtoms hfresh).andThen fun _ _ => stops_bind_modify.2 stops_pure

end Solver

namespace Session

open Solver Context

variable {s t : Session}

/-- Atoms and clauses may be added to the context of a session. -/
structure Enterable (s : Session) : Prop extends Held (· = 0) s where
  level : s.context.trail.level = 0

/-- **A further atom may be added after it**, if one could be added. -/
theorem Enterable.freshAtom (h : Enterable s) : Meets freshAtom s.context (fun _ d => Enterable (s.goTo d)) fun _ => True :=
  (h.toHeld.freshAtom.and meets_freshAtom_next).mono (fun _ _ ⟨hd, hnext⟩ => ⟨hd, hnext.2 ▸ h.level⟩) fun _ _ => trivial

theorem Enterable.addClause (h : Enterable s) (clause : Clause) :
    Meets (addClause clause) s.context (fun outcome d => Enterable (s.accept clause outcome d)) fun _ => True := by
  refine ((h.toHeld.addClause rfl clause).and (meets_addClause h.toResting rfl)).mono (fun outcome d ⟨hheld, hd⟩ =>
    ⟨hheld, ?_⟩) fun _ _ => trivial
  cases outcome with
  | added => exact (hd.added rfl).1
  | unsatisfiable => exact (hd.resting.barren (hd.unsatisfiable rfl)).level
  | tautology => exact hd.same nofun nofun ▸ h.level
  | satisfied => exact hd.same nofun nofun ▸ h.level

/-- **Calls that fit are made**, or made up to one that there is an obstacle to. -/
theorem Enterable.makes {n : Nat} {calls : List Call} (hfit : Fitting n calls) : ∀ {s : Session}, Enterable s →
    s.context.atoms.count = n →
    (∃ d, calls.forM Call.program s.context = .ok () d) ∨ ∃ e d, s.context.Obstructed calls e d := by
  induction hfit with
  | nil => exact fun _ _ => .inl ⟨_, rfl⟩
  | @freshAtom n calls hn _ ih =>
    intro s h hcount
    obtain ⟨_, _, hsound, _⟩ := h.toResting.exists_sound
    refine makes_cons (fun e d he => ?_) fun b hb => ?_
    · have hstops : Stops Solver.freshAtom s.context (s.context.Obstacle .freshAtom) :=
        stops_freshAtom hsound.stocked (hcount ▸ hn) .chance
      exact hstops.andThen (fun _ _ => stops_pure) e d he
    · obtain ⟨a, d, hd, hb⟩ := bind_eq_ok_iff.1 hb
      cases hb
      exact ih (h.freshAtom.of_ok hd) ((meets_freshAtom_next.of_ok hd).1.trans (congrArg (· + 1) hcount))
  | @addClause n clause calls hknown _ ih =>
    intro s h hcount
    refine makes_cons (fun e d he => ?_) fun b hb => ?_
    · have hstops : Stops (Solver.addClause clause) s.context (s.context.Obstacle (.addClause clause)) :=
        stops_addClause_of_full .room h.toResting h.level (hcount ▸ hknown)
      exact hstops.andThen (fun _ _ => stops_pure) e d he
    · obtain ⟨outcome, d, hd, hb⟩ := bind_eq_ok_iff.1 hb
      cases hb
      have hsame : SameCount s.context b := (sameCount_addClause clause s.context).meets.of_ok hd
      exact ih ((h.addClause clause).of_ok hd) (hsame.trans hcount)

/-! ## Reading -/

/-- The calls for some items are made, and a result is what is said of the context after them, or there is an obstacle to one
of them, and the result is where that leaves it. -/
def Carries (c : Context) (items : List Item) (result : EStateM.Result Interrupt Context Info)
    (ending : Context → EStateM.Result Interrupt Context Info) : Prop :=
  (∃ d, (calls c.atoms.count [] items).forM Call.program c = .ok () d ∧ result = ending d) ∨
    ∃ e d, c.Obstructed (calls c.atoms.count [] items) e d ∧ result = .error e d

/-- Reading a text, given by its lines, has a result.  It answers exactly if the text is well formed and the calls for its
items are made, with info on the text.  It fails with what is wrong with the text after the calls for the items before
that. -/
structure Reads (c : Context) (lines : List (List Char)) (result : EStateM.Result Interrupt Context Info) : Prop where
  answers_iff : (∃ info d, result = .ok info d) ↔
    ∃ items, Accepts lines items ∧ ∃ d, (calls c.atoms.count [] items).forM Call.program c = .ok () d
  accepted : ∀ items, Accepts lines items → Carries c items result fun d => .ok (summary items d.atoms.count) d
  rejected : ∀ items e, Rejects lines items e → Carries c items result fun d => .error (.failure (.parse e)) d
  settled : (∃ items, Accepts lines items) ∨ ∃ items e, Rejects lines items e

/-- **Calls for items are carried out**, and what comes after them. -/
theorem Enterable.carries (h : Enterable s) {items : List Item} (hitems : ∀ i ∈ items, i.atoms ≤ atomLimit)
    {result : EStateM.Result Interrupt Context Info} {ending : Solver Info}
    (hresult : result = (do (calls s.context.atoms.count [] items).forM Call.program; ending) s.context) :
    Carries s.context items result ending := by
  obtain ⟨_, _, hsound, -⟩ := h.exists_sound
  rcases h.makes (fitting_calls items _ [] hitems hsound.shaped.bounded nofun) rfl with ⟨d, hd⟩ | ⟨e, d, hd⟩
  · exact .inl ⟨d, hd, hresult.trans (bind_of_ok hd)⟩
  · exact .inr ⟨e, d, hd, hresult.trans (bind_of_error hd.stops)⟩

theorem Enterable.reads (h : Enterable s) (lines : List (List Char)) :
    Reads s.context lines (readAll (lines.map some) s.context) := by
  have haccepted : ∀ items, Accepts lines items →
      Carries s.context items (readAll (lines.map some) s.context) fun d => .ok (summary items d.atoms.count) d :=
    fun items hitems => h.carries hitems.1.atoms_le (readAll_of_accepts hitems s.context)
  have hrejected : ∀ items e, Rejects lines items e →
      Carries s.context items (readAll (lines.map some) s.context) fun d => .error (.failure (.parse e)) d :=
    fun items e hitems => h.carries hitems.atoms_le (readAll_of_rejects hitems s.context)
  refine ⟨⟨fun ⟨info, d, hd⟩ => ?_, fun ⟨items, hitems, d, hd⟩ => ?_⟩, haccepted, hrejected, accepts_or_rejects lines⟩
  · -- what is rejected ends otherwise
    rcases accepts_or_rejects lines with ⟨items, hitems⟩ | ⟨items, e, hitems⟩
    · rcases haccepted items hitems with ⟨e, he, -⟩ | ⟨e, b, -, hb⟩
      · exact ⟨items, hitems, e, he⟩
      · rw [hd] at hb
        cases hb
    · rcases hrejected items e hitems with ⟨b, -, hb⟩ | ⟨i, b, -, hb⟩ <;>
      · rw [hd] at hb
        cases hb
  · exact ⟨_, d, (readAll_of_accepts hitems s.context).trans (bind_of_ok hd)⟩

theorem readDimacsBytes_toUTF8 (text : String) :
    readDimacsBytes text.toUTF8 = readAll ((Text.lines (· == '\n') text.toList).map some) :=
  congrArg readAll (Text.lines_toUTF8 text)

theorem Followed.enterable (h : s.Followed) (hl : s.context.level = 0) : Enterable s := ⟨h.held, hl⟩

/-- **A text in UTF-8 is read exactly if it is well formed**, at level zero, and means the calls that its items stand for.
The items are told by the lines of the text alone. -/
theorem readDimacsBytes_reads (h : s.Followed) (hl : s.context.level = 0) (text : String) :
    ∃ lines, Text.Lined (· == '\n') lines text.toList ∧
      Reads s.context lines (readDimacsBytes text.toUTF8 s.context) := by
  refine ⟨_, Text.lines_eq_iff.1 rfl, ?_⟩
  rw [readDimacsBytes_toUTF8]
  exact (h.enterable hl).reads _

/-- Into an empty context, a text with a clause over two lines and a comment between them, and one with a word in its second
line that is no integer. -/
theorem readDimacsBytes_reads_start : (start {} .default).Followed ∧ (start {} .default).context.level = 0 ∧
    (∃ lines, Text.Lined (· == '\n') lines " p cnf 2 1\n1\nc\n-2 0\n%\nx".toList ∧
      Accepts lines [.counts 2 1, .integer 1, .integer (-2), .integer 0] ∧
      Reads (start {} .default).context lines
        (readDimacsBytes " p cnf 2 1\n1\nc\n-2 0\n%\nx".toUTF8 (start {} .default).context)) ∧
    ∃ lines, Text.Lined (· == '\n') lines "1 0\n2 x 0\n".toList ∧
      Rejects lines [.integer 1, .integer 0, .integer 2] (.literal 2) ∧
      Reads (start {} .default).context lines (readDimacsBytes "1 0\n2 x 0\n".toUTF8 (start {} .default).context) := by
  have hstart : (start {} .default).Followed := .start {} .default
  refine ⟨hstart, rfl, ?_, ?_⟩
  · obtain ⟨lines, hlines, hreads⟩ := readDimacsBytes_reads hstart rfl " p cnf 2 1\n1\nc\n-2 0\n%\nx"
    refine ⟨lines, hlines, ?_, hreads⟩
    have hconsidered : considered lines 1 = [(" p cnf 2 1".toList, 1), ("1".toList, 2), ("-2 0".toList, 4)] := by
      rw [← hlines.lines_eq]
      decide
    refine ⟨?_, by simp [Closed, integers]⟩
    rw [hconsidered]
    exact .cons (.counts (by decide) (Text.words_eq_iff.1 rfl) (problem?_eq_some_iff.1 (by decide)))
      (.cons (@Yields.integers _ _ [1] (by decide) (Text.words_eq_iff.1 rfl) (forall_token_iff.2 (by decide)))
        (.cons (@Yields.integers _ _ [-2, 0] (by decide) (Text.words_eq_iff.1 rfl) (forall_token_iff.2 (by decide))) .nil))
  · obtain ⟨lines, hlines, hreads⟩ := readDimacsBytes_reads hstart rfl "1 0\n2 x 0\n"
    refine ⟨lines, hlines, .line ?_, hreads⟩
    have hconsidered : considered lines 1 = [("1 0".toList, 1), ("2 x 0".toList, 2)] := by
      rw [← hlines.lines_eq]
      decide
    rw [hconsidered]
    exact .later (@Yields.integers _ _ [1, 0] (by decide) (Text.words_eq_iff.1 rfl) (forall_token_iff.2 (by decide)))
      (.here (@Spoils.integers _ _ ["2".toList] _ _ [2] (by decide) (Text.words_eq_iff.1 rfl)
        (forall_token_iff.2 (by decide)) (integer?_eq_none_iff.1 (by decide))))

end Session

end Cdcl
