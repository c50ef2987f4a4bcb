import Cdcl.Context
/-!
# Outcome — what holds where a program ends

`Meets m s answer failed` says what holds where `m` ends, started at `s`: `answer` where it answers, `failed` where it
ends with a failure.  A fault, a refusal and fuel that ran out end the run, and nothing is said of them.

Each way to build a program has a rule that reads the claim about the whole as a claim about its parts, so a program is
taken apart by rewriting.  A loop over a list has an invariant in what is left of the list (`meets_forM`).

`Answers m s answer` says more: that `m` does answer, and `answer` holds where it does.  It has the same rules, and what
they ask for besides is that no part of the program stops.

`Stops m s why` says only why `m` may end without an answer.  What never stops answers with what it meets.

`Yields m s answer why` says both what holds where `m` answers and why it may end without an answer, where neither can be
told without the other.

`Gives m s fit a t` is for a program that checks where it looks: it answers `a` at `t`, or it ends in a fault, and then
what it looks at is not fit for it.
-/
namespace Cdcl
namespace Run

variable {σ α β : Type}

/-- What holds where a program answers, and where it fails. -/
def Meets (m : Run σ α) (s : σ) (answer : α → σ → Prop) (failed : σ → Prop) : Prop :=
  match m s with
  | .ok a t => answer a t
  | .error (.failure _) t => failed t
  | .error _ _ => True

/-- A program answers, and what holds there. -/
def Answers (m : Run σ α) (s : σ) (answer : α → σ → Prop) : Prop := ∃ a t, m s = .ok a t ∧ answer a t

/-- Why a program ends without an answer, where it does. -/
def Stops (m : Run σ α) (s : σ) (why : Interrupt → Prop) : Prop := ∀ e t, m s = .error e t → why e

/-- What holds where a program answers, and why it may end without an answer. -/
structure Yields (m : Run σ α) (s : σ) (answer : α → σ → Prop) (why : Interrupt → Prop) : Prop where
  meets : Meets m s answer fun _ => True
  stops : Stops m s why

section

variable {m : Run σ α} {s t : σ} {Q R : α → σ → Prop} {E D : σ → Prop} {why : Interrupt → Prop}

theorem Meets.of_ok {a : α} (h : Meets m s Q E) (hm : m s = .ok a t) : Q a t := by
  unfold Meets at h
  rw [hm] at h
  exact h

theorem Meets.of_failure {f : Failure} (h : Meets m s Q E) (hm : m s = .error (.failure f) t) : E t := by
  unfold Meets at h
  rw [hm] at h
  exact h

theorem meets_of_cases (hok : ∀ a t, m s = .ok a t → Q a t) (herr : ∀ f t, m s = .error (.failure f) t → E t) :
    Meets m s Q E := by
  unfold Meets
  split
  · exact hok _ _ ‹_›
  · exact herr _ _ ‹_›
  · trivial

theorem meets_any : Meets m s (fun _ _ => True) fun _ => True := meets_of_cases (fun _ _ _ => trivial) fun _ _ _ => trivial

/-- **A weaker claim is met where a stronger one is.** -/
theorem Meets.mono (h : Meets m s Q E) (hQ : ∀ a t, Q a t → R a t) (hE : ∀ t, E t → D t) : Meets m s R D :=
  meets_of_cases (fun _ _ hm => hQ _ _ (h.of_ok hm)) fun _ _ hm => hE _ (h.of_failure hm)

theorem Meets.and (h : Meets m s Q E) (h' : Meets m s R D) :
    Meets m s (fun a t => Q a t ∧ R a t) (fun t => E t ∧ D t) :=
  meets_of_cases (fun _ _ hm => ⟨h.of_ok hm, h'.of_ok hm⟩) fun _ _ hm => ⟨h.of_failure hm, h'.of_failure hm⟩

/-- **What answers meets what it answers**, and anything for failures. -/
theorem Answers.meets (h : Answers m s Q) : Meets m s Q E := by
  obtain ⟨a, t, hm, hQ⟩ := h
  unfold Meets
  rw [hm]
  exact hQ

theorem Answers.mono (h : Answers m s Q) (hQ : ∀ a t, Q a t → R a t) : Answers m s R := by
  obtain ⟨a, t, hm, ha⟩ := h
  exact ⟨a, t, hm, hQ a t ha⟩

theorem Answers.and (h : Answers m s Q) (h' : Meets m s R E) : Answers m s fun a t => Q a t ∧ R a t := by
  obtain ⟨a, t, hm, hq⟩ := h
  exact ⟨a, t, hm, hq, h'.of_ok hm⟩

/-- What never stops answers. -/
theorem Meets.answers_of_stops (h : Meets m s Q E) (hs : Stops m s fun _ => False) : Answers m s Q := by
  match hm : m s with
  | .ok a t => exact ⟨a, t, hm, h.of_ok hm⟩
  | .error e t => exact (hs e t hm).elim

theorem Answers.stops (h : Answers m s Q) : Stops m s why := by
  obtain ⟨a, t, hm, -⟩ := h
  intro e u he
  rw [hm] at he
  cases he

end

/-! ## Taking a program apart -/

section

variable {s : σ} {Q : α → σ → Prop} {E : σ → Prop}

/-- **A sequence meets a claim if its first part ends where its second part meets it.** -/
theorem meets_bind {m : Run σ β} {f : β → Run σ α} :
    Meets (m >>= f) s Q E ↔ Meets m s (fun b t => Meets (f b) t Q E) E := by
  unfold Meets
  cases h : m s with
  | ok b t => rw [bind_of_ok h]
  | error e t =>
    rw [bind_of_error h]
    cases e <;> rfl

/-- Whatever a part comes to, what is told of all that may follow holds. -/
theorem meets_bind_any {m : Run σ β} {f : β → Run σ α} (h : ∀ b t, Meets (f b) t Q fun _ => True) :
    Meets (m >>= f) s Q fun _ => True :=
  meets_bind.2 (meets_any.mono (fun b t _ => h b t) fun _ => id)

/-- Programs that go on alike from wherever another answers do so after it. -/
theorem bind_eq_of_meets {m : Run σ β} {f g : β → Run σ α} (h : Meets m s (fun b t => f b t = g b t) E) :
    (m >>= f) s = (m >>= g) s := by
  cases hm : m s with
  | ok b t => rw [bind_of_ok hm, bind_of_ok hm, h.of_ok hm]
  | error e t => rw [bind_of_error hm, bind_of_error hm]

theorem meets_pure {a : α} : Meets (pure a) s Q E ↔ Q a s := Iff.rfl

theorem meets_get {Q : σ → σ → Prop} : Meets get s Q E ↔ Q s s := Iff.rfl

theorem meets_modify {Q : PUnit → σ → Prop} {f : σ → σ} : Meets (modify f) s Q E ↔ Q ⟨⟩ (f s) := Iff.rfl

theorem meets_modifyGet {f : σ → α × σ} : Meets (modifyGet f) s Q E ↔ Q (f s).1 (f s).2 := Iff.rfl

theorem meets_fail {f : Failure} : Meets (fail f : Run σ α) s Q E ↔ E s := Iff.rfl

theorem meets_require {ok : Bool} {Q : Unit → σ → Prop} : Meets (require ok) s Q E ↔ (ok = true → Q () s) := by
  cases ok
  · exact ⟨fun _ => nofun, fun _ => trivial⟩
  · exact ⟨fun h _ => h, fun h => h rfl⟩

theorem meets_expect {x : Option α} : Meets (expect x) s Q E ↔ ∀ a, x = some a → Q a s := by
  cases x with
  | none => exact ⟨fun _ _ => nofun, fun _ => trivial⟩
  | some a => exact ⟨fun h _ e => Option.some.inj e ▸ h, fun h => h a rfl⟩

theorem meets_ofExcept {ε : Type} {wrap : ε → Failure} {x : Except ε α} :
    Meets (ofExcept wrap x) s Q E ↔ (∀ a, x = .ok a → Q a s) ∧ ∀ e, x = .error e → E s := by
  cases x with
  | ok a => exact ⟨fun h => ⟨fun _ e => Except.ok.inj e ▸ h, nofun⟩, fun h => h.1 a rfl⟩
  | error e => exact ⟨fun h => ⟨nofun, fun _ _ => h⟩, fun h => h.2 e rfl⟩

theorem meets_ite {p : Prop} [Decidable p] {m n : Run σ α} :
    Meets (if p then m else n) s Q E ↔ (p → Meets m s Q E) ∧ (¬p → Meets n s Q E) := by
  split <;> simp [*]

/-- An attempt turns the failures of a program into answers. -/
theorem meets_attempt {m : Run σ α} {Q : Except Failure α → σ → Prop}
    (h : Meets m s (fun a t => Q (.ok a) t) (fun t => ∀ f, Q (.error f) t)) : Meets (attempt m) s Q E := by
  unfold Meets attempt
  cases hm : m s with
  | ok a t => exact h.of_ok hm
  | error e t =>
    cases e with
    | failure f => exact h.of_failure hm f
    | _ => trivial

/-! ## Taking a program apart that answers -/

theorem answers_bind {m : Run σ β} {f : β → Run σ α} :
    Answers (m >>= f) s Q ↔ Answers m s fun b t => Answers (f b) t Q := by
  constructor
  · rintro ⟨a, u, hm, hQ⟩
    obtain ⟨b, t, hb, ha⟩ := bind_eq_ok_iff.1 hm
    exact ⟨b, t, hb, a, u, ha, hQ⟩
  · rintro ⟨b, t, hb, a, u, ha, hQ⟩
    exact ⟨a, u, bind_eq_ok_iff.2 ⟨b, t, hb, ha⟩, hQ⟩

theorem answers_pure {a : α} : Answers (pure a) s Q ↔ Q a s :=
  ⟨fun ⟨_, _, he, h⟩ => by cases he; exact h, fun h => ⟨a, s, rfl, h⟩⟩

theorem answers_get {Q : σ → σ → Prop} : Answers get s Q ↔ Q s s :=
  ⟨fun ⟨_, _, he, h⟩ => by cases he; exact h, fun h => ⟨s, s, rfl, h⟩⟩

theorem answers_modify {Q : PUnit → σ → Prop} {f : σ → σ} : Answers (modify f) s Q ↔ Q ⟨⟩ (f s) :=
  ⟨fun ⟨_, _, he, h⟩ => by cases he; exact h, fun h => ⟨⟨⟩, f s, rfl, h⟩⟩

theorem answers_modifyGet {f : σ → α × σ} : Answers (modifyGet f) s Q ↔ Q (f s).1 (f s).2 :=
  ⟨fun ⟨_, _, he, h⟩ => by cases he; exact h, fun h => ⟨_, _, rfl, h⟩⟩

theorem answers_require {ok : Bool} {Q : Unit → σ → Prop} : Answers (require ok) s Q ↔ ok = true ∧ Q () s := by
  constructor
  · rintro ⟨_, _, he, h⟩
    obtain ⟨hok, rfl⟩ := require_eq_ok_iff.1 he
    exact ⟨hok, h⟩
  · rintro ⟨hok, h⟩
    exact ⟨(), s, require_eq_ok_iff.2 ⟨hok, rfl⟩, h⟩

theorem answers_expect {x : Option α} : Answers (expect x) s Q ↔ ∃ a, x = some a ∧ Q a s := by
  constructor
  · rintro ⟨a, _, he, h⟩
    obtain ⟨hx, rfl⟩ := expect_eq_ok_iff.1 he
    exact ⟨a, hx, h⟩
  · rintro ⟨a, hx, h⟩
    exact ⟨a, s, expect_eq_ok_iff.2 ⟨hx, rfl⟩, h⟩

theorem answers_ite {p : Prop} [Decidable p] {m n : Run σ α} :
    Answers (if p then m else n) s Q ↔ (p → Answers m s Q) ∧ (¬p → Answers n s Q) := by
  split <;> simp [*]

/-! ## Taking a program apart that may stop -/

section

variable {why : Interrupt → Prop}

/-- **A sequence stops for what stops its parts**, the second where the first leads. -/
theorem Stops.bind {m : Run σ β} {f : β → Run σ α} {Q : β → σ → Prop} (h : Stops m s why) (hm : Meets m s Q E)
    (hf : ∀ b t, Q b t → Stops (f b) t why) : Stops (m >>= f) s why := by
  intro e t he
  rcases bind_eq_error_iff.1 he with he | ⟨b, u, hb, he⟩
  · exact h e t he
  · exact hf b u (hm.of_ok hb) e t he

theorem Stops.andThen {m : Run σ β} {f : β → Run σ α} (h : Stops m s why) (hf : ∀ b t, Stops (f b) t why) :
    Stops (m >>= f) s why :=
  h.bind (meets_of_cases (fun _ _ _ => trivial) fun _ _ _ => trivial : Meets m s (fun _ _ => True) fun _ => True)
    fun b t _ => hf b t

theorem Answers.stops_bind {m : Run σ β} {f : β → Run σ α} {Q : β → σ → Prop} (h : Answers m s Q)
    (hf : ∀ b t, Q b t → Stops (f b) t why) : Stops (m >>= f) s why := h.stops.bind (h.meets (E := fun _ => True)) hf

theorem stops_pure {a : α} : Stops (pure a) s why := nofun

theorem stops_modify {f : σ → σ} : Stops (modify f) s why := (answers_modify (Q := fun _ _ => True)).2 trivial |>.stops

theorem stops_fail {f : Failure} (h : why (.failure f)) : Stops (fail f : Run σ α) s why := fun _ _ he => by
  cases he
  exact h

theorem stops_bind_get {f : σ → Run σ α} : Stops (get >>= f) s why ↔ Stops (f s) s why := Iff.rfl

theorem stops_bind_modify {f : PUnit → Run σ α} {g : σ → σ} :
    Stops (modify g >>= f) s why ↔ Stops (f ⟨⟩) (g s) why := Iff.rfl

theorem stops_require {ok : Bool} (h : ok = true) : Stops (require ok : Run σ Unit) s why := by
  rw [h]
  nofun

theorem stops_ite {p : Prop} [Decidable p] {m n : Run σ α} (hm : p → Stops m s why) (hn : ¬p → Stops n s why) :
    Stops (if p then m else n) s why := by
  split
  · exact hm ‹_›
  · exact hn ‹_›

theorem Stops.attempt {m : Run σ α} (h : Stops m s why) : Stops (attempt m) s why := by
  intro e t he
  unfold Run.attempt at he
  split at he
  · cases he
  · cases he
  · cases he
    exact h _ _ ‹_›

/-- A failure that an attempt hands back is one of those that stop the program. -/
theorem Stops.meets_attempt {m : Run σ α} (h : Stops m s why) :
    Meets (Run.attempt m) s (fun x _ => ∀ f, x = .error f → why (.failure f)) E := by
  refine meets_of_cases (fun x t hx f hf => ?_) fun f t hf => ?_
  · rcases attempt_eq_ok_iff.1 hx with ⟨a, he, -⟩ | ⟨g, he, hg⟩
    · rw [hf] at he
      cases he
    · rw [hf] at he
      cases he
      exact h _ _ hg
  · unfold Run.attempt at hf
    split at hf
    · cases hf
    · cases hf
    · rename_i hne _
      cases hf
      exact absurd rfl (hne f)

end

/-! ## Taking a program apart that answers or stops -/

section

variable {R : α → σ → Prop} {why : Interrupt → Prop}

theorem Yields.mono {m : Run σ α} (h : Yields m s Q why) (hQ : ∀ a t, Q a t → R a t) : Yields m s R why :=
  ⟨h.meets.mono hQ fun _ => id, h.stops⟩

theorem Yields.and {m : Run σ α} (h : Yields m s Q why) (h' : Meets m s R E) : Yields m s (fun a t => Q a t ∧ R a t) why :=
  ⟨(h.meets.and h').mono (fun _ _ => id) fun _ _ => trivial, h.stops⟩

theorem Answers.yields {m : Run σ α} (h : Answers m s Q) : Yields m s Q why := ⟨h.meets, h.stops⟩

theorem yields_pure {a : α} (h : Q a s) : Yields (pure a) s Q why := ⟨h, stops_pure⟩

theorem yields_bind_get {f : σ → Run σ α} : Yields (get >>= f) s Q why ↔ Yields (f s) s Q why :=
  ⟨fun h => ⟨meets_bind.1 h.meets, stops_bind_get.1 h.stops⟩, fun h => ⟨meets_bind.2 h.meets, stops_bind_get.2 h.stops⟩⟩

/-- **A sequence yields what its second part does**, wherever its first part leads. -/
theorem Yields.bind {m : Run σ β} {f : β → Run σ α} {Q : β → σ → Prop} (h : Yields m s Q why)
    (hf : ∀ b t, Q b t → Yields (f b) t R why) : Yields (m >>= f) s R why :=
  ⟨meets_bind.2 (h.meets.mono (fun b t ht => (hf b t ht).meets) fun _ => id),
    h.stops.bind h.meets fun b t ht => (hf b t ht).stops⟩

theorem yields_ite {p : Prop} [Decidable p] {m n : Run σ α} (hm : p → Yields m s Q why) (hn : ¬p → Yields n s Q why) :
    Yields (if p then m else n) s Q why := by
  split
  · exact hm ‹_›
  · exact hn ‹_›

end

/-! ## Programs that check where they look -/

/-- A program comes to one answer and one state, unless it ends in a fault; where it is fit to be run it does not. -/
def Gives (m : Run σ α) (s : σ) (fit : Prop) (a : α) (t : σ) : Prop := m s = .ok a t ∨ ¬fit ∧ ∃ u, m s = .error .fault u

section

variable {m : Run σ α} {s t : σ} {fit : Prop} {a : α}

theorem Gives.eq_ok (h : Gives m s fit a t) (hfit : fit) : m s = .ok a t := h.resolve_right fun hn => hn.1 hfit

theorem Gives.mono {other : Prop} (h : Gives m s fit a t) (ho : other → fit) : Gives m s other a t :=
  h.imp_right fun hn => ⟨fun hother => hn.1 (ho hother), hn.2⟩

/-- **What is reached is met** if it holds there. -/
theorem Gives.meets {Q : α → σ → Prop} {E : σ → Prop} (h : Gives m s fit a t) (hQ : Q a t) : Meets m s Q E := by
  unfold Meets
  rcases h with h | ⟨-, u, h⟩ <;> rw [h]
  · exact hQ
  · trivial

theorem Gives.answers {Q : α → σ → Prop} (h : Gives m s fit a t) (hfit : fit) : Answers m s Q ↔ Q a t := by
  have hm := h.eq_ok hfit
  constructor
  · rintro ⟨b, u, hb, hQ⟩
    cases hm.symm.trans hb
    exact hQ
  · exact fun hQ => ⟨a, t, hm, hQ⟩

theorem Gives.stops {why : Interrupt → Prop} (h : Gives m s fit a t) (hfit : fit) : Stops m s why :=
  ((h.answers (Q := fun _ _ => True) hfit).2 trivial).stops

theorem Gives.of_ok {b : α} {u : σ} (h : Gives m s fit a t) (hm : m s = .ok b u) : b = a ∧ u = t := by
  rcases h with h | ⟨-, v, h⟩
  · cases h.symm.trans hm
    exact ⟨rfl, rfl⟩
  · cases h.symm.trans hm

theorem gives_pure : Gives (pure a) s fit a s := .inl rfl

theorem gives_modify {f : σ → σ} : Gives (modify f) s fit ⟨⟩ (f s) := .inl rfl

/-- **A sequence comes to what its second part comes to**, and is fit to be run if both parts are. -/
theorem Gives.bind {β : Type} {m : Run σ β} {f : β → Run σ α} {b : β} {u : σ} {fit₁ fit₂ : Prop}
    (h : Gives m s fit₁ b u) (hf : Gives (f b) u fit₂ a t) (h₁ : fit → fit₁) (h₂ : fit → fit₂) :
    Gives (m >>= f) s fit a t := by
  rcases h.mono h₁ with h | ⟨hn, v, h⟩
  · exact (hf.mono h₂).imp (bind_of_ok h).trans fun ⟨hn, v, hf⟩ => ⟨hn, v, (bind_of_ok h).trans hf⟩
  · exact .inr ⟨hn, v, bind_of_error h⟩

theorem gives_bind_get {f : σ → Run σ α} : Gives (get >>= f) s fit a t ↔ Gives (f s) s fit a t := Iff.rfl

theorem gives_bind_expect {β : Type} {x : Option β} {f : β → Run σ α} (hnone : fit → x ≠ none)
    (hsome : ∀ b, x = some b → Gives (f b) s fit a t) : Gives (expect x >>= f) s fit a t := by
  cases hx : x with
  | none => exact .inr ⟨fun hfit => hnone hfit hx, s, rfl⟩
  | some b => exact hsome b hx

theorem gives_bind_require {ok : Bool} {f : Unit → Run σ α} (hok : fit → ok = true)
    (hf : ok = true → Gives (f ()) s fit a t) : Gives (require ok >>= f) s fit a t := by
  cases hb : ok with
  | false => exact .inr ⟨fun hfit => Bool.noConfusion (hb.symm.trans (hok hfit)), s, rfl⟩
  | true => exact hf hb

theorem gives_ite {p : Prop} [Decidable p] {m n : Run σ α} (hm : p → Gives m s fit a t)
    (hn : ¬p → Gives n s fit a t) : Gives (if p then m else n) s fit a t := by
  split
  · exact hm ‹_›
  · exact hn ‹_›

end

/-! ## Loops -/

/-- **A loop over a list keeps what each of its steps keeps**, told by what is left of the list. -/
theorem meets_forM {f : β → Run σ PUnit} {I : List β → σ → Prop}
    (step : ∀ x rest t, I (x :: rest) t → Meets (f x) t (fun _ u => I rest u) E) :
    ∀ (l : List β) (s : σ), I l s → Meets (l.forM f) s (fun _ t => I [] t) E
  | [], _, h => h
  | x :: rest, s, h => by
    show Meets (f x >>= fun _ => rest.forM f) s _ E
    rw [meets_bind]
    exact (step x rest s h).mono (fun _ t ht => meets_forM step rest t ht) fun _ => id

end

theorem answers_forM {f : β → Run σ PUnit} {I : List β → σ → Prop}
    (step : ∀ x rest t, I (x :: rest) t → Answers (f x) t fun _ u => I rest u) :
    ∀ (l : List β) (s : σ), I l s → Answers (l.forM f) s fun _ t => I [] t
  | [], s, h => ⟨⟨⟩, s, rfl, h⟩
  | x :: rest, s, h => by
    show Answers (f x >>= fun _ => rest.forM f) s _
    rw [answers_bind]
    exact (step x rest s h).mono fun _ t ht => answers_forM step rest t ht

theorem stops_forM {f : β → Run σ PUnit} {I : List β → σ → Prop} {E : σ → Prop} {why : Interrupt → Prop}
    (step : ∀ x rest t, I (x :: rest) t → Stops (f x) t why ∧ Meets (f x) t (fun _ u => I rest u) E) :
    ∀ (l : List β) (s : σ), I l s → Stops (l.forM f) s why
  | [], _, _ => stops_pure
  | x :: rest, s, h => by
    show Stops (f x >>= fun _ => rest.forM f) s why
    obtain ⟨hstops, hmeets⟩ := step x rest s h
    exact hstops.bind hmeets fun _ t ht => stops_forM step rest t ht

end Run

/-! ## The calls of a context -/

namespace Solver

open Run

variable {α : Type} {c : Context} {Q : α → Context → Prop} {E : Context → Prop}

theorem meets_onAtoms {m : Run AtomTable α} :
    Meets (onAtoms m) c Q E ↔
      Meets m c.atoms (fun a t => Q a { c with atoms := t }) (fun t => E { c with atoms := t }) := by
  unfold Meets onAtoms
  dsimp only
  cases m c.atoms with
  | ok a t => rfl
  | error e t => cases e <;> rfl

theorem meets_onClauses {m : Run ClauseStore α} :
    Meets (onClauses m) c Q E ↔
      Meets m c.clauses (fun a t => Q a { c with clauses := t }) (fun t => E { c with clauses := t }) := by
  unfold Meets onClauses
  dsimp only
  cases m c.clauses with
  | ok a t => rfl
  | error e t => cases e <;> rfl

theorem meets_onWatches {m : Run Watches α} :
    Meets (onWatches m) c Q E ↔
      Meets m c.watches (fun a t => Q a { c with watches := t }) (fun t => E { c with watches := t }) := by
  unfold Meets onWatches
  dsimp only
  cases m c.watches with
  | ok a t => rfl
  | error e t => cases e <;> rfl

theorem answers_onClauses {m : Run ClauseStore α} :
    Answers (onClauses m) c Q ↔ Answers m c.clauses fun a t => Q a { c with clauses := t } := by
  simp only [Answers, onClauses_eq_ok_iff]
  exact ⟨fun ⟨a, _, ⟨t, ht, he⟩, h⟩ => ⟨a, t, ht, he ▸ h⟩, fun ⟨a, t, ht, h⟩ => ⟨a, _, ⟨t, ht, rfl⟩, h⟩⟩

theorem answers_onWatches {m : Run Watches α} :
    Answers (onWatches m) c Q ↔ Answers m c.watches fun a t => Q a { c with watches := t } := by
  simp only [Answers, onWatches_eq_ok_iff]
  exact ⟨fun ⟨a, _, ⟨t, ht, he⟩, h⟩ => ⟨a, t, ht, he ▸ h⟩, fun ⟨a, t, ht, h⟩ => ⟨a, _, ⟨t, ht, rfl⟩, h⟩⟩

theorem gives_onAtoms {m : Run AtomTable α} {fit : Prop} {a : α} {t : AtomTable} (h : Gives m c.atoms fit a t) :
    Gives (onAtoms m) c fit a { c with atoms := t } := by
  unfold Gives onAtoms
  dsimp only
  rcases h with h | ⟨hn, u, h⟩ <;> rw [h]
  · exact .inl rfl
  · exact .inr ⟨hn, { c with atoms := u }, rfl⟩

theorem gives_onWatches {m : Run Watches α} {fit : Prop} {a : α} {t : Watches} (h : Gives m c.watches fit a t) :
    Gives (onWatches m) c fit a { c with watches := t } := by
  unfold Gives onWatches
  dsimp only
  rcases h with h | ⟨hn, u, h⟩ <;> rw [h]
  · exact .inl rfl
  · exact .inr ⟨hn, { c with watches := u }, rfl⟩

theorem onAtoms_eq_error {m : Run AtomTable α} {e : Interrupt} {d : Context} (h : onAtoms m c = .error e d) :
    ∃ t, m c.atoms = .error e t ∧ d = { c with atoms := t } := by
  unfold onAtoms at h
  dsimp only at h
  split at h
  · cases h
  · cases h
    exact ⟨_, ‹_›, rfl⟩

theorem onClauses_eq_error {m : Run ClauseStore α} {e : Interrupt} {d : Context} (h : onClauses m c = .error e d) :
    ∃ t, m c.clauses = .error e t ∧ d = { c with clauses := t } := by
  unfold onClauses at h
  dsimp only at h
  split at h
  · cases h
  · cases h
    exact ⟨_, ‹_›, rfl⟩

theorem onWatches_eq_error {m : Run Watches α} {e : Interrupt} {d : Context} (h : onWatches m c = .error e d) :
    ∃ t, m c.watches = .error e t ∧ d = { c with watches := t } := by
  unfold onWatches at h
  dsimp only at h
  split at h
  · cases h
  · cases h
    exact ⟨_, ‹_›, rfl⟩

theorem stops_onAtoms {m : Run AtomTable α} {why : Interrupt → Prop} (h : Stops m c.atoms why) :
    Stops (onAtoms m) c why := fun e _ he =>
  have ⟨t, ht, _⟩ := onAtoms_eq_error he
  h e t ht

theorem stops_onClauses {m : Run ClauseStore α} {why : Interrupt → Prop} (h : Stops m c.clauses why) :
    Stops (onClauses m) c why := fun e _ he =>
  have ⟨t, ht, _⟩ := onClauses_eq_error he
  h e t ht

theorem stops_onWatches {m : Run Watches α} {why : Interrupt → Prop} (h : Stops m c.watches why) :
    Stops (onWatches m) c why := fun e _ he =>
  have ⟨t, ht, _⟩ := onWatches_eq_error he
  h e t ht

theorem meets_record {a : Nat} {Q : AtomRecord → Context → Prop} :
    Meets (record a) c Q E ↔ ∀ r, c.atoms.records[a]? = some r → Q r c := by
  unfold record
  rw [meets_bind, meets_get, meets_expect]

theorem meets_findClause {key : ClauseKey} {Q : StoredClause → Context → Prop} :
    Meets (findClause key) c Q E ↔
      (∀ stored, c.clauses.find key = .ok stored → Q stored c) ∧ ∀ e, c.clauses.find key = .error e → E c := by
  unfold findClause
  rw [meets_bind, meets_get, meets_ofExcept]

theorem meets_count {f : Counters → Counters} {Q : Unit → Context → Prop} :
    Meets (count f) c Q E ↔ Q () { c with counters := f c.counters } := Iff.rfl

theorem meets_setState {s : SolveState} {Q : Unit → Context → Prop} :
    Meets (setState s) c Q E ↔ Q () { c with state := s } := Iff.rfl

theorem answers_record {a : Nat} {Q : AtomRecord → Context → Prop} :
    Answers (record a) c Q ↔ ∃ r, c.atoms.records[a]? = some r ∧ Q r c := by
  unfold record
  rw [answers_bind, answers_get, answers_expect]

theorem gives_bind_record {β : Type} {a : Nat} {f : AtomRecord → Solver β} {fit : Prop} {x : β} {d : Context}
    (hfit : fit → a < c.atoms.count) (hf : ∀ r, c.atoms.records[a]? = some r → Gives (f r) c fit x d) :
    Gives (record a >>= f) c fit x d := by
  unfold record
  rw [bind_assoc, gives_bind_get]
  refine gives_bind_expect (fun ok => ?_) hf
  rw [Array.getElem?_eq_getElem (hfit ok)]
  nofun

theorem answers_findClause {key : ClauseKey} {Q : StoredClause → Context → Prop} :
    Answers (findClause key) c Q ↔ ∃ stored, c.clauses.find key = .ok stored ∧ Q stored c := by
  constructor
  · rintro ⟨stored, _, he, h⟩
    obtain ⟨hfind, rfl⟩ := findClause_eq_ok_iff.1 he
    exact ⟨stored, hfind, h⟩
  · rintro ⟨stored, hfind, h⟩
    exact ⟨stored, c, findClause_eq_ok_iff.2 ⟨hfind, rfl⟩, h⟩

theorem answers_count {f : Counters → Counters} {Q : Unit → Context → Prop} :
    Answers (count f) c Q ↔ Q () { c with counters := f c.counters } := answers_modify

/-- A draw moves the source of randomness on, and changes nothing else. -/
theorem meets_chance {p : Float} {Q : Bool → Context → Prop} (h : ∀ b random, Q b { c with random }) :
    Meets (chance p) c Q E := by
  unfold chance
  rw [meets_bind, meets_get, meets_bind, meets_expect]
  intro a _
  rw [meets_bind, meets_modify, meets_pure]
  exact h a.1 a.2

end Solver
end Cdcl
