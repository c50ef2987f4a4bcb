import Cdcl.Clause.Stored
import Cdcl.Proofs.ClauseChange
import Cdcl.Solver.Propagation
import Mathlib.Data.Multiset.Defs
/-!
# Propagation — what unit propagation keeps and what it reaches

Propagation always answers, keeps the invariant, and leaves all that was on the trail as it was (`answers_propagate`).
When it completes, every partner of a false watch is true at the current level, if this was so for the literals before
the head.  When it ends in a conflict, the clause it names follows from the formula and is false, by a literal that stood
at the head or after it.  It never finds a watch on a clause that is not stored.

While the long list of a literal is walked, the keys kept so far and the keys to come stand for the list (`Walk`).
-/
namespace Cdcl
namespace Context

/-- Every literal of a conflict is false, and a conflict follows from the formula. -/
def Refuted (f : Formula) (c : Context) : Conflict → Prop
  | .binary a b => f.Entails [a, b] ∧ a.negate ∈ c.trail.literals.toList ∧ b.negate ∈ c.trail.literals.toList
  | .long key => ∃ ls, c.clauses.literals? key = some ls ∧ ∀ l ∈ ls, l.negate ∈ c.trail.literals.toList

theorem Refuted.exists_clause {f : Formula} {c : Context} {conflict : Conflict} (h : Refuted f c conflict)
    (hd : Denotes f c) : ∃ ls : Clause, f.Entails ls ∧ ∀ l ∈ ls, l.negate ∈ c.trail.literals.toList := by
  cases conflict with
  | binary a b => exact ⟨[a, b], h.1, by simpa using h.2⟩
  | long key =>
    obtain ⟨ls, hk, hfalse⟩ := h
    exact ⟨ls, hd.long key ls hk, hfalse⟩

/-- A literal of a conflict, which is a live clause. -/
def Blames (c : Context) (l : Literal) : Conflict → Prop
  | .binary a b => b ∈ (c.watches.binaryOf a).toList ∧ (l = a ∨ l = b)
  | .long key => ∃ ls, c.clauses.literals? key = some ls ∧ l ∈ ls

/-- **A conflict at level zero shows that the formula has no model.** -/
theorem Refuted.unsatisfiable {f : Formula} {c : Context} {conflict : Conflict} (h : Refuted f c conflict)
    (ht : Trailed f c) (hd : Denotes f c) (hl : c.trail.level = 0) : ¬f.Satisfiable := by
  obtain ⟨ls, he, hfalse⟩ := h.exists_clause hd
  rw [← Formula.entails_nil_iff]
  refine ht.entails_without_zero hd he fun m hm => .inr ⟨hfalse m hm, ?_⟩
  have := ht.level_le_level (hfalse m hm)
  rw [Literal.atom_negate] at this
  omega

/-- What a result of propagation says of the context it is reached in. -/
def Verdict (f : Formula) (c : Context) (done : Prop) : Propagated → Prop
  | .complete => done
  | .conflict conflict => Refuted f c conflict
  | .corrupt => False

/-- The clauses stay, but for the order of their literals. -/
structure Reordered (c d : Context) : Prop where
  binary : ∀ l, d.watches.binaryOf l = c.watches.binaryOf l
  long : ∀ key, (d.clauses.literals? key).map Multiset.ofList = (c.clauses.literals? key).map Multiset.ofList

/-- Whatever has come to the trail has a reason, and is of a binary clause if that is its reason. -/
def Reasoned (c d : Context) : Prop :=
  ∀ l ∈ d.trail.literals.toList, l ∈ c.trail.literals.toList ∨
    ∃ r, d.atoms.reason l.atom = some r ∧ ∀ other, r = .binary other → l ∈ (d.watches.binaryOf other).toList

/-- Whatever has come to the trail goes back to a literal that was made false at an index or after it. -/
def Kindled (n : Nat) (c d : Context) : Prop :=
  ∀ l ∈ d.trail.literals.toList, l ∈ c.trail.literals.toList ∨
    ∃ (m : Literal) (i : Nat), n ≤ i ∧ d.trail.literals[i]? = some m.negate ∧ d.Antecedent l.atom m

/-- The invariant while propagation is at an index. -/
structure Ready (f : Formula) (settled : Nat → Prop) (n : Nat) (c : Context) : Prop where
  base : Base f settled c
  size : n ≤ c.trail.size
  current : settled c.trail.level → c.Current n

/-- What propagation at an index may make of a context. -/
structure Reached (f : Formula) (settled : Nat → Prop) (n : Nat) (c d : Context) : Prop extends Ready f settled n d where
  extended : Extends c d
  reordered : Reordered c d
  reasoned : Reasoned c d
  kindled : Kindled n c d
  head : d.trail.head = c.trail.head
  units : d.pendingUnits = c.pendingUnits
  marks : d.marks = c.marks

variable {f : Formula} {settled : Nat → Prop} {n : Nat} {c d e : Context} {falsified : Literal} {key : ClauseKey}

theorem Reasoned.of_literals (h : d.trail.literals = c.trail.literals) : Reasoned c d := fun _ hl => .inl (h ▸ hl)

theorem Reordered.of_eq (hw : ∀ l, d.watches.binaryOf l = c.watches.binaryOf l)
    (hc : d.clauses.literals? = c.clauses.literals?) : Reordered c d := ⟨hw, fun key => by rw [hc]⟩

theorem Reordered.trans (h : Reordered c d) (h' : Reordered d e) : Reordered c e :=
  ⟨fun l => (h'.binary l).trans (h.binary l), fun key => (h'.long key).trans (h.long key)⟩

theorem Reordered.symm (h : Reordered c d) : Reordered d c := ⟨fun l => (h.binary l).symm, fun key => (h.long key).symm⟩

theorem Relit.reordered {old new : Clause} (h : Relit c key new d) (hk : c.clauses.literals? key = some old)
    (hp : new.Perm old) : Reordered c d where
  binary := h.binary
  long k := by
    rw [h.literals]
    split
    · rename_i he
      rw [he, hk]
      exact congrArg some (Multiset.coe_eq_coe.2 hp)
    · rfl

theorem Reasoned.trans (h : Reasoned c d) (h' : Reasoned d e) (he : Extends d e) (hs : Reordered d e) :
    Reasoned c e := by
  intro l hl
  rcases h' l hl with hd | hr
  · refine (h l hd).imp id fun ⟨r, hr, hbinary⟩ => ⟨r, (he.reason l hd).trans hr, fun other ho => ?_⟩
    rw [hs.binary]
    exact hbinary other ho
  · exact .inr hr

theorem Kindled.of_literals (h : d.trail.literals = c.trail.literals) : Kindled n c d := fun _ hl => .inl (h ▸ hl)

theorem Kindled.mono {fewer : Nat} (h : Kindled n c d) (hle : fewer ≤ n) : Kindled fewer c d := fun l hl =>
  (h l hl).imp_right fun ⟨m, i, hi, hm, ha⟩ => ⟨m, i, Nat.le_trans hle hi, hm, ha⟩

theorem Reordered.literals_mem {ls : Clause} (h : Reordered c d) (hk : c.clauses.literals? key = some ls) :
    ∃ left, d.clauses.literals? key = some left ∧ ∀ m ∈ ls, m ∈ left := by
  have hlong := h.long key
  rw [hk, Option.map_some] at hlong
  obtain ⟨left, hleft, he⟩ := Option.map_eq_some_iff.1 hlong
  exact ⟨left, hleft, fun m => (Multiset.coe_eq_coe.1 he).mem_iff.2⟩

/-- Where clauses keep their literals, a literal of the trail goes back to what it did. -/
theorem Reordered.antecedent (h : Reordered c d) (hx : Extends c d) {l m : Literal} (hl : l ∈ c.trail.literals.toList)
    (ha : c.Antecedent l.atom m) : d.Antecedent l.atom m :=
  ha.keep (hx.reason l hl) fun _ _ _ => h.literals_mem

theorem Kindled.trans (h : Kindled n c d) (h' : Kindled n d e) (he : Extends d e) (hs : Reordered d e) :
    Kindled n c e := by
  intro l hl
  rcases h' l hl with hd | hk
  · exact (h l hd).imp_right fun ⟨m, i, hi, hm, ha⟩ => ⟨m, i, hi, he.getElem? hm, hs.antecedent he hd ha⟩
  · exact .inr hk

theorem Reached.refl (h : Ready f settled n c) : Reached f settled n c c :=
  ⟨h, .refl c, .of_eq (fun _ => rfl) rfl, .of_literals rfl, .of_literals rfl, rfl, rfl, rfl⟩

theorem Reached.trans (h : Reached f settled n c d) (h' : Reached f settled n d e) : Reached f settled n c e :=
  ⟨h'.toReady, h.extended.trans h'.extended, h.reordered.trans h'.reordered,
    h.reasoned.trans h'.reasoned h'.extended h'.reordered, h.kindled.trans h'.kindled h'.extended h'.reordered,
    h'.head.trans h.head, h'.units.trans h.units, h'.marks.trans h.marks⟩

theorem Ready.push {l : Literal} {r : Reason} (h : Ready f settled n c) (hp : Pushed c l c.trail.level (some r) d)
    (hu : d.pendingUnits = c.pendingUnits) (hv : c.atoms.value l.atom = none)
    (hc : Caused f d c.trail.size l (some r))
    (hb : ∀ other, r = .binary other → l ∈ (c.watches.binaryOf other).toList)
    (hn : c.trail.literals[n]? = some falsified.negate) (hl : d.Antecedent l.atom falsified) : Reached f settled n c d where
  base := h.base.push hp hv hc (hu ▸ h.base.denotes.units)
  size := by
    have := h.size
    rw [hp.trail, Trail.size_push]
    omega
  current hs := by
    rw [hp.trail, Trail.level_push] at hs
    exact hp.current h.size (h.current hs)
  extended := hp.toExtends h.base.trailed hv (.inl nofun)
  reordered := .of_eq (fun _ => by rw [hp.watches]) (by rw [hp.clauses])
  reasoned m hm := (hp.mem_iff.1 hm).imp id fun e => by
    rw [e, hp.watches]
    exact ⟨r, hp.reason_self, hb⟩
  kindled m hm := (hp.mem_iff.1 hm).imp id fun e => by
    rw [e]
    exact ⟨falsified, n, Nat.le_refl n, (hp.toExtends h.base.trailed hv (.inl nofun)).getElem? hn, hl⟩
  head := by rw [hp.trail]; rfl
  units := hu
  marks := hp.marks

theorem Blames.rewatch {conflict : Conflict} {l : Literal} (h : c.Blames l conflict) (hr : Rewatched c d) :
    d.Blames l conflict := by
  cases conflict with
  | binary a b =>
    refine ⟨?_, h.2⟩
    rw [hr.binary]
    exact h.1
  | long key =>
    obtain ⟨ls, hls, hl⟩ := h
    exact ⟨ls, by rw [hr.clauses, hls], hl⟩

/-- What changes the order of clauses only, and keeps the current level settled, leaves a context that is reached. -/
theorem Ready.reorder (h : Ready f settled n c) (ht : SameTrail c d) (hm : d.marks = c.marks) (hb : Base f settled d)
    (hcurrent : c.Current n → d.Current n) (hr : Reordered c d) : Reached f settled n c d where
  base := hb
  size := by
    rw [ht.trail]
    exact h.size
  current hs := by
    rw [ht.trail] at hs
    exact hcurrent (h.current hs)
  extended := ht.toExtends
  reordered := hr
  reasoned := .of_literals (congrArg Trail.literals ht.trail)
  kindled := .of_literals (congrArg Trail.literals ht.trail)
  head := by rw [ht.trail]
  units := ht.units
  marks := hm

theorem Ready.rewatch (h : Ready f settled n c) (hr : Rewatched c d) (hm : d.marks = c.marks) :
    Reached f settled n c d :=
  h.reorder hr.toSameTrail hm (h.base.rewatch hr) hr.current (.of_eq hr.binary (by rw [hr.clauses]))

end Context

namespace Solver

open Run Context

variable {f : Formula} {settled : Nat → Prop} {n : Nat} {c : Context} {falsified : Literal} {key : ClauseKey}
  {E : Context → Prop}

theorem answers_imply {l : Literal} {r : Reason} {Q : Unit → Context → Prop} (hl : l.atom < c.atoms.count)
    (h : ∀ d, Pushed c l c.trail.level (some r) d → d.pendingUnits = c.pendingUnits → Q () d) :
    Answers (imply l r) c Q := by
  unfold imply
  rw [answers_bind, answers_count]
  exact answers_assign hl fun d hp hu => h d hp.recount hu

/-- **Each visit of a binary clause makes its other literal true, or finds it false.** -/
theorem answers_visitBinary : ∀ (list : List Literal) (c : Context), Ready f settled n c →
    c.trail.literals[n]? = some falsified.negate → (∀ o ∈ list, o ∈ (c.watches.binaryOf falsified).toList) →
    Answers (visitBinary falsified list) c
      (fun r d => Reached f settled n c d ∧ d.watches = c.watches ∧ d.clauses = c.clauses ∧
        Verdict f d (∀ o ∈ list, o ∈ d.trail.literals.toList) r ∧
        ∀ conflict, r = .conflict conflict → d.Blames falsified conflict)
  | [], c, h, _, _ => answers_pure.2 ⟨.refl h, rfl, rfl, by simp [Verdict], nofun⟩
  | other :: rest, c, h, hn, hlist => by
    have hother := hlist other List.mem_cons_self
    have hrest : ∀ o ∈ rest, o ∈ (c.watches.binaryOf falsified).toList := fun o ho => hlist o (List.mem_cons_of_mem _ ho)
    have hknown := (h.base.shaped.binary _ _ hother).2.2
    unfold visitBinary
    rw [answers_bind, answers_get]
    cases hs : c.atoms.standing other with
    | unknown => exact absurd hknown (Nat.not_lt.2 (AtomTable.standing_eq_unknown_iff.1 hs))
    | holds =>
      have hmem := h.base.trailed.standing_holds_iff.1 hs
      refine (answers_visitBinary rest c h hn hrest).mono fun r d ⟨hr, hw, hc, hv, hb⟩ => ⟨hr, hw, hc, ?_, hb⟩
      cases r with
      | complete => exact List.forall_mem_cons.2 ⟨hr.extended.mem hmem, hv⟩
      | _ => exact hv
    | fails =>
      refine answers_pure.2 ⟨.refl h, rfl, rfl, ?_, fun conflict he => ?_⟩
      · exact ⟨h.base.denotes.binary _ _ hother, Trail.mem_of_getElem? hn, h.base.trailed.standing_fails_iff.1 hs⟩
      · cases he
        exact ⟨hother, .inl rfl⟩
    | free =>
      have hvalue := (AtomTable.standing_eq_free_iff.1 hs).2
      rw [answers_bind]
      refine answers_imply hknown fun d hp hu => ?_
      have he : f.Entails [other, falsified] := fun v hv =>
        (h.base.denotes.binary _ _ hother v hv).mono (by simp)
      have hd := h.push hp hu hvalue (hp.caused_binary h.base.trailed.layered (Trail.mem_of_getElem? hn) he)
        (fun _ ho => by
          cases ho
          exact hother) hn (.binary hp.reason_self)
      have hmem : other ∈ d.trail.literals.toList := hp.mem_iff.2 (.inr rfl)
      refine (answers_visitBinary rest d hd.toReady (hd.extended.getElem? hn) (hp.watches ▸ hrest)).mono
        fun r e ⟨hr, hw, hc, hv, hb⟩ => ⟨hd.trans hr, hw.trans hp.watches, hc.trans hp.clauses, ?_, hb⟩
      cases r with
      | complete => exact List.forall_mem_cons.2 ⟨hr.extended.mem hmem, hv⟩
      | _ => exact hv

end Solver

namespace Context

/-- A long list is walked: the keys kept and the keys to come stand for it. -/
structure Walk (f : Formula) (settled : Nat → Prop) (n : Nat) (falsified : Literal) (c : Context)
    (keys : List ClauseKey) : Prop extends Ready f settled n c where
  placed : c.trail.literals[n]? = some falsified.negate
  empty : c.watches.longOf falsified = #[]
  listed : Listed (fun l => if l = falsified then keys else (c.watches.longOf l).toList) c.clauses.literals?

/-- The clauses of some keys that watch a literal have their other watch true. -/
def Done (falsified : Literal) (c : Context) (keys : List ClauseKey) : Prop :=
  ∀ key ∈ keys, ∀ a b others, c.clauses.literals? key = some (a :: b :: others) →
    (a = falsified → b ∈ c.trail.literals.toList) ∧ (b = falsified → a ∈ c.trail.literals.toList)

theorem Ready.relit {old new : Clause} (h : Ready f settled n c) (hr : Relit c key new d) (hm : d.marks = c.marks)
    (hb : Base f settled d) (hn : c.Settling new) (hk : c.clauses.literals? key = some old) (hp : new.Perm old) :
    Reached f settled n c d :=
  h.reorder hr.toSameTrail hm hb (fun hs => hr.current hs hn) (hr.reordered hk hp)

theorem Done.relit {keys : List ClauseKey} {new : Clause} (h : Done falsified c keys) (hr : Relit c key new d)
    (hk : key ∉ keys) : Done falsified d keys := by
  intro k hkk a b others hls
  rw [hr.literals, if_neg fun e : k = key => hk (e ▸ hkk)] at hls
  rw [hr.trail]
  exact h k hkk a b others hls

theorem Done.push {keys : List ClauseKey} {l : Literal} {r : Option Reason} (h : Done falsified c keys)
    (hp : Pushed c l c.trail.level r d) : Done falsified d keys := by
  intro k hk a b others hls
  rw [hp.clauses] at hls
  have := h k hk a b others hls
  exact ⟨fun e => hp.mem_iff.2 (.inl (this.1 e)), fun e => hp.mem_iff.2 (.inl (this.2 e))⟩

theorem Done.snoc {keys : List ClauseKey} {first : Literal} {others : Clause} (h : Done falsified c keys)
    (hk : c.clauses.literals? key = some (first :: falsified :: others)) (hne : first ≠ falsified)
    (hm : first ∈ c.trail.literals.toList) : Done falsified c (keys ++ [key]) := by
  intro k hkk a b rest hls
  rcases List.mem_append.1 hkk with hkk | hkk
  · exact h k hkk a b rest hls
  · rw [List.mem_singleton.1 hkk, hk] at hls
    cases hls
    exact ⟨fun e => absurd e hne, fun _ => hm⟩

namespace Walk

variable {keys : List ClauseKey}

theorem negated (h : Walk f settled n falsified c keys) : falsified.negate ∈ c.trail.literals.toList :=
  Trail.mem_of_getElem? h.placed

theorem not_mem (h : Walk f settled n falsified c keys) : falsified ∉ c.trail.literals.toList := fun hm =>
  h.base.trailed.not_mem_negate hm h.negated

theorem nodup (h : Walk f settled n falsified c keys) : keys.Nodup := by
  have := h.listed.nodup falsified
  rwa [if_pos rfl] at this

theorem known (h : Walk f settled n falsified c keys) : falsified.atom < c.atoms.count := by
  have := h.base.trailed.mem_known h.negated
  rwa [Literal.atom_negate] at this

theorem literals? (h : Walk f settled n falsified c keys) (hk : key ∈ keys) :
    ∃ ls, c.clauses.literals? key = some ls ∧ falsified ∈ ls.take 2 := by
  refine (h.listed.mem_iff falsified key).1 ?_
  rwa [if_pos rfl]

theorem push {l : Literal} {r : Reason} (h : Walk f settled n falsified c keys)
    (hp : Pushed c l c.trail.level (some r) d) (hr : Reached f settled n c d) : Walk f settled n falsified d keys where
  toReady := hr.toReady
  placed := hr.extended.getElem? h.placed
  empty := by rw [hp.watches, h.empty]
  listed := by
    rw [hp.watches, hp.clauses]
    exact h.listed

theorem mem_keys {ls : Clause} (h : Walk f settled n falsified c keys) (hk : c.clauses.literals? key = some ls)
    (hl : falsified ∈ ls.take 2) : key ∈ keys := by
  have := (h.listed.mem_iff falsified key).2 ⟨ls, hk, hl⟩
  rwa [if_pos rfl] at this

/-- **Where all clauses are done the partners of the false literal are true**, if those in binary clauses are. -/
theorem partners (h : Walk f settled n falsified c keys) (hd : Done falsified c keys)
    (hb : ∀ b ∈ (c.watches.binaryOf falsified).toList, b ∈ c.trail.literals.toList) {b : Literal}
    (hp : c.Partners falsified b) : b ∈ c.trail.literals.toList := by
  cases hp with
  | binary hm => exact hb b hm
  | first hk => exact (hd _ (h.mem_keys hk (by simp)) _ _ _ hk).1 rfl
  | second hk => exact (hd _ (h.mem_keys hk (by simp)) _ _ _ hk).2 rfl

/-- **What stays is put back.** -/
theorem listed_restored {kept : Array ClauseKey} (h : Walk f settled n falsified c kept.toList) :
    Listed (fun l => ((c.watches.restoreLong falsified kept).longOf l).toList) c.clauses.literals? := by
  have hindex := (h.base.shaped.index_lt h.known).2
  have hlong : (fun l => ((c.watches.restoreLong falsified kept).longOf l).toList) =
      fun l => if l = falsified then kept.toList else (c.watches.longOf l).toList := by
    funext l
    rw [Watches.longOf_restoreLong c.watches kept hindex]
    split
    · rw [h.empty, Array.append_empty]
    · rfl
  rw [hlong]
  exact h.listed

end Walk

/-- **Taking a list out starts a walk of it.** -/
theorem Ready.taken (h : Ready f settled n c) (hl : Listed (fun l => (c.watches.longOf l).toList) c.clauses.literals?)
    (hn : c.trail.literals[n]? = some falsified.negate) :
    Reached f settled n c { c with watches := (c.watches.takeLong falsified).2 } ∧
    Walk f settled n falsified { c with watches := (c.watches.takeLong falsified).2 }
      (c.watches.longOf falsified).toList := by
  have htaken : Rewatched c { c with watches := (c.watches.takeLong falsified).2 } :=
    ⟨⟨rfl, rfl, rfl, rfl⟩, rfl, fun _ => rfl, rfl, by simp [Watches.takeLong]⟩
  have hr := h.rewatch htaken rfl
  refine ⟨hr, hr.toReady, hn, by rw [Watches.longOf_takeLong, if_pos rfl], ?_⟩
  have hsame : (fun l => if l = falsified then (c.watches.longOf falsified).toList
      else ((c.watches.takeLong falsified).2.longOf l).toList) = fun l => (c.watches.longOf l).toList := by
    funext l
    split
    · rename_i he
      rw [he]
    · rename_i hne
      rw [Watches.longOf_takeLong, if_neg hne]
  rw [hsame]
  exact hl

/-- The clause of a walk that is looked at next: it watches the false literal, and `first` besides. -/
structure Faced (f : Formula) (settled : Nat → Prop) (n : Nat) (falsified : Literal) (c : Context)
    (kept : List ClauseKey) (key : ClauseKey) (rest : List ClauseKey) (a b first : Literal) (others : Clause) : Prop
    extends Walk f settled n falsified c (kept ++ key :: rest) where
  done : Done falsified c kept
  clause : c.clauses.literals? key = some (a :: b :: others)
  sides : a = first ∧ b = falsified ∨ a = falsified ∧ b = first

theorem Walk.faced {kept rest : List ClauseKey} (h : Walk f settled n falsified c (kept ++ key :: rest))
    (hd : Done falsified c kept) : ∃ stored a b others first, c.clauses.find key = .ok stored ∧
      stored.literals = a :: b :: others ∧ (if a = falsified then (b, a) else (a, b)) = (first, falsified) ∧
      Faced f settled n falsified c kept key rest a b first others := by
  obtain ⟨ls, hls, hin⟩ := h.literals? (show key ∈ kept ++ key :: rest by simp)
  obtain ⟨stored, hfind, hlits⟩ := ClauseStore.literals?_eq_some_iff.1 hls
  match ls, hin, (h.base.shaped.long key ls hls).1 with
  | a :: b :: others, hin, _ =>
  by_cases ha : a = falsified
  · exact ⟨stored, a, b, others, b, hfind, hlits, by rw [if_pos ha, ha], h, hd, hls, .inr ⟨ha, rfl⟩⟩
  · have hb : b = falsified := by simpa [Ne.symm ha, eq_comm] using hin
    exact ⟨stored, a, b, others, a, hfind, hlits, by rw [if_neg ha, hb], h, hd, hls, .inl ⟨rfl, hb⟩⟩

namespace Faced

variable {kept rest : List ClauseKey} {a b first watch : Literal} {others left : Clause}

theorem atom_ne (h : Faced f settled n falsified c kept key rest a b first others) : first.atom ≠ falsified.atom := by
  obtain ⟨-, hnodup, -⟩ := h.base.shaped.long key _ h.clause
  intro he
  rcases h.sides with ⟨rfl, rfl⟩ | ⟨rfl, rfl⟩ <;> simp [he] at hnodup

theorem ne (h : Faced f settled n falsified c kept key rest a b first others) : first ≠ falsified := fun he =>
  h.atom_ne (congrArg Literal.atom he)

theorem first_known (h : Faced f settled n falsified c kept key rest a b first others) :
    first.atom < c.atoms.count := by
  obtain ⟨-, -, hknown⟩ := h.base.shaped.long key _ h.clause
  rcases h.sides with ⟨rfl, rfl⟩ | ⟨rfl, rfl⟩ <;> exact hknown _ (by simp)

theorem others_known (h : Faced f settled n falsified c kept key rest a b first others) :
    ∀ l ∈ others, l.atom < c.atoms.count := fun l hl =>
  (h.base.shaped.long key _ h.clause).2.2 l (by simp [hl])

theorem key_not_mem (h : Faced f settled n falsified c kept key rest a b first others) : key ∉ kept := fun hk => by
  have hnd := h.nodup
  rw [List.nodup_append] at hnd
  exact hnd.2.2 key hk key List.mem_cons_self rfl

theorem perm (h : Faced f settled n falsified c kept key rest a b first others) :
    (first :: falsified :: others).Perm (a :: b :: others) := by
  rcases h.sides with ⟨rfl, rfl⟩ | ⟨rfl, rfl⟩
  · exact .refl _
  · exact .swap ..

theorem mem_take (h : Faced f settled n falsified c kept key rest a b first others) {l : Literal} :
    l ∈ (a :: b :: others).take 2 ↔ l = first ∨ l = falsified := by
  rcases h.sides with ⟨rfl, rfl⟩ | ⟨rfl, rfl⟩
  · simp
  · simp [or_comm]

theorem watch_known (h : Faced f settled n falsified c kept key rest a b first others)
    (hp : (first :: watch :: left).Perm (first :: falsified :: others)) : watch.atom < c.atoms.count :=
  have ⟨_, _, hknown⟩ := h.base.shaped.long key _ h.clause
  hknown watch ((hp.trans h.perm).mem_iff.1 (by simp))

theorem index_lt (h : Faced f settled n falsified c kept key rest a b first others)
    (hp : (first :: watch :: left).Perm (first :: falsified :: others)) : watch.index < c.watches.long.size :=
  (h.base.shaped.index_lt (h.watch_known hp)).2

theorem first_partners (h : Faced f settled n falsified c kept key rest a b first others) :
    c.Partners first falsified := by
  rcases h.sides with ⟨rfl, rfl⟩ | ⟨rfl, rfl⟩
  · exact .first h.clause
  · exact .second h.clause

/-- Where the first literal is not the false one the clause has the false one second. -/
theorem same (h : Faced f settled n falsified c kept key rest a b first others) (ha : ¬a = falsified) :
    a :: b :: others = first :: falsified :: others := by
  rcases h.sides with ⟨rfl, rfl⟩ | ⟨rfl, rfl⟩
  · rfl
  · exact absurd rfl ha

/-- The literals may be put in another order, with the watch that is not false first. -/
theorem relit (h : Faced f settled n falsified c kept key rest a b first others)
    (hp : (first :: left).Perm (first :: falsified :: others)) (hs : c.Settling (first :: left))
    (hr : Relit c key (first :: left) d) (hm : d.marks = c.marks) : Reached f settled n c d := by
  have hperm := hp.trans h.perm
  obtain ⟨hlen, hnodup, -⟩ := h.base.shaped.long key _ h.clause
  refine h.toReady.relit hr hm (h.base.relit hr h.clause (hperm.length_eq ▸ hlen)
    ((hperm.map _).nodup_iff.2 hnodup) (fun l hl => hperm.mem_iff.1 hl) (fun v hv => ?_) (fun l rest he hl _ => ?_) hs)
    hs h.clause hperm
  · exact (h.base.denotes.long key _ h.clause v hv).mono fun l hl => hperm.mem_iff.2 hl
  -- a clause that is a reason has its true literal first, so that is the other watch
  rcases h.sides with ⟨rfl, rfl⟩ | ⟨rfl, rfl⟩
  · cases he
    exact ⟨left, rfl, fun m hm => hp.cons_inv.mem_iff.1 hm⟩
  · cases he
    exact absurd hl h.not_mem

/-- **The false literal may come second.** -/
theorem turn (h : Faced f settled n falsified c kept key rest a b first others)
    (hr : Relit c key (first :: falsified :: others) d) (hw : d.watches = c.watches) (hm : d.marks = c.marks) :
    Reached f settled n c d ∧ Faced f settled n falsified d kept key rest first falsified first others := by
  have hsettling : c.Settling (first :: falsified :: others) := by
    rcases h.sides with ⟨rfl, rfl⟩ | ⟨rfl, rfl⟩
    · exact .of_swap h.clause (.inl rfl)
    · exact .of_swap h.clause (.inr rfl)
  have hreached := h.relit (.refl _) hsettling hr hm
  refine ⟨hreached, ⟨hreached.toReady, hreached.extended.getElem? h.placed, by rw [hw, h.empty], ?_⟩,
    h.done.relit hr h.key_not_mem, by rw [hr.literals, if_pos rfl], .inl ⟨rfl, rfl⟩⟩
  rw [hw]
  refine h.listed.reorder h.clause hr.literals fun l => ?_
  rw [h.mem_take]
  simp

/-- Where another literal is watched instead of the false one the clause changes over to its list. -/
theorem listed_give (h : Faced f settled n falsified c kept key rest a b first others)
    (hp : (first :: watch :: left).Perm (first :: falsified :: others)) (hwatch : watch ≠ falsified)
    (hr : Relit c key (first :: watch :: left) d) (hw : d.watches = c.watches.watchLong watch key) :
    Listed (fun l => if l = falsified then kept ++ rest else (d.watches.longOf l).toList) d.clauses.literals? := by
  obtain ⟨-, hnodup, -⟩ := h.base.shaped.long key _ h.clause
  have hperm := hp.trans h.perm
  have hfirst : first ≠ watch := fun e => by
    have hnodup := (hperm.map Literal.atom).nodup_iff.2 hnodup
    simp [e] at hnodup
  have hindex := h.index_lt hp
  have hkey : key ∉ (c.watches.longOf watch).toList := fun hmem => by
    obtain ⟨ls, hls, hin⟩ := (h.listed.mem_iff watch key).1 (by rwa [if_neg hwatch])
    rw [h.clause, Option.some.injEq] at hls
    exact (h.mem_take.1 (hls ▸ hin)).elim (fun e => hfirst e.symm) hwatch
  have hnd := h.nodup
  rw [List.nodup_append, List.nodup_cons] at hnd
  refine h.listed.move watch falsified h.clause hr.literals (fun l => ?_) (fun l k => ?_) fun l => ?_
  · have hne := h.ne
    rw [h.mem_take]
    simp only [List.take_succ_cons, List.take_zero, List.mem_cons, List.not_mem_nil, or_false]
    grind
  · by_cases hl : l = falsified
    · rw [if_pos hl, if_pos hl, hl]
      simp only [hwatch.symm, false_and, true_and, false_or, List.mem_append, List.mem_cons]
      grind
    · rw [if_neg hl, if_neg hl, hw, Watches.longOf_watchLong _ _ hindex]
      split
      · rename_i he
        simp only [he, Array.toList_push, List.mem_append, List.mem_singleton, true_and]
        grind
      · rename_i he
        simp [he, hl]
  · by_cases hl : l = falsified
    · rw [if_pos hl, List.nodup_append]
      exact ⟨hnd.1, hnd.2.1.2, fun x hx y hy => hnd.2.2 x hx y (List.mem_cons_of_mem _ hy)⟩
    · have hlist := h.listed.nodup
      rw [if_neg hl, hw, Watches.longOf_watchLong _ _ hindex]
      split
      · rw [Array.toList_push, List.nodup_append]
        refine ⟨?_, List.pairwise_singleton .., fun x hx y hy e => ?_⟩
        · have := hlist watch
          rwa [if_neg hwatch] at this
        · rw [e, List.mem_singleton.1 hy] at hx
          exact hkey hx
      · have := hlist l
        rwa [if_neg hl] at this

/-- **Another literal that is not false may be watched instead.** -/
theorem give (h : Faced f settled n falsified c kept key rest a b first others)
    (hp : (first :: watch :: left).Perm (first :: falsified :: others)) (hn : watch.negate ∉ c.trail.literals.toList)
    (hr : Relit c key (first :: watch :: left) d) (hw : d.watches = c.watches.watchLong watch key)
    (hm : d.marks = c.marks) :
    Reached f settled n c d ∧ Walk f settled n falsified d (kept ++ rest) ∧ Done falsified d kept := by
  have hwatch : watch ≠ falsified := fun e => hn (e ▸ h.negated)
  have hsettling : c.Settling (first :: watch :: left) := by
    rintro p q hpt hqt hs x y other hxy hx
    rcases hxy with e | e <;> cases e
    · exact absurd (hqt (hs _ _ h.first_partners hx)) h.not_mem
    · exact absurd (hpt hx) hn
  have hreached := h.relit hp hsettling hr hm
  refine ⟨hreached, ⟨hreached.toReady, hreached.extended.getElem? h.placed, ?_, h.listed_give hp hwatch hr hw⟩,
    h.done.relit hr h.key_not_mem⟩
  rw [hw, Watches.longOf_watchLong _ _ (h.index_lt hp), if_neg hwatch.symm, h.empty]

/-- **A clause with its other watch true is done.** -/
theorem settle (h : Faced f settled n falsified c kept key rest first falsified first others)
    (hm : first ∈ c.trail.literals.toList) :
    Walk f settled n falsified c (kept ++ [key] ++ rest) ∧ Done falsified c (kept ++ [key]) :=
  ⟨by rw [List.append_assoc]; exact h.toWalk, h.done.snoc h.clause h.ne hm⟩

/-- **The other watch of a clause is implied** where the rest of it is false. -/
theorem push (h : Faced f settled n falsified c kept key rest first falsified first others)
    (hp : Pushed c first c.trail.level (some (.long key)) d) (hu : d.pendingUnits = c.pendingUnits)
    (hv : c.atoms.value first.atom = none) (hfalse : ∀ l ∈ others, l.negate ∈ c.trail.literals.toList) :
    Reached f settled n c d ∧ Faced f settled n falsified d kept key rest first falsified first others := by
  have hreached := h.toReady.push hp hu hv
    (hp.caused_long h.base.trailed.layered h.clause (List.forall_mem_cons.2 ⟨h.negated, hfalse⟩)) nofun h.placed
    (.long key _ hp.reason_self (hp.clauses ▸ h.clause) (by simp) h.atom_ne.symm)
  exact ⟨hreached, h.toWalk.push hp hreached, h.done.push hp, hp.clauses ▸ h.clause, h.sides⟩

end Faced

/-- What looking at the clauses of a list comes to: the keys that stay in it, and whether one of the clauses is false. -/
structure Visited (f : Formula) (settled : Nat → Prop) (n : Nat) (falsified : Literal) (c : Context)
    (r : Propagated × Array ClauseKey) (d : Context) : Prop where
  reached : Reached f settled n c d
  binary : ∀ l, d.watches.binaryOf l = c.watches.binaryOf l
  walk : Walk f settled n falsified d r.2.toList
  verdict : Verdict f d (Done falsified d r.2.toList) r.1
  blames : ∀ conflict, r.1 = .conflict conflict → d.Blames falsified conflict

theorem Visited.after {r : Propagated × Array ClauseKey} {e : Context} (h : Visited f settled n falsified d r e)
    (hr : Reached f settled n c d) (hb : ∀ l, d.watches.binaryOf l = c.watches.binaryOf l) :
    Visited f settled n falsified c r e :=
  ⟨hr.trans h.reached, fun l => (h.binary l).trans (hb l), h.walk, h.verdict, h.blames⟩

/-- **A clause with all its literals false ends the walk.** -/
theorem Faced.conflict {kept : Array ClauseKey} {rest : List ClauseKey} {first : Literal} {others : Clause}
    (h : Faced f settled n falsified c kept.toList key rest first falsified first others)
    (hfirst : first.negate ∈ c.trail.literals.toList) (hfalse : ∀ l ∈ others, l.negate ∈ c.trail.literals.toList) :
    Visited f settled n falsified c (.conflict (.long key), kept.push key ++ rest) c where
  reached := .refl h.toReady
  binary _ := rfl
  walk := by
    have hall : (kept.push key ++ rest).toList = kept.toList ++ key :: rest := by simp
    show Walk f settled n falsified c (kept.push key ++ rest).toList
    rw [hall]
    exact h.toWalk
  verdict := ⟨_, h.clause, List.forall_mem_cons.2 ⟨hfirst, List.forall_mem_cons.2 ⟨h.negated, hfalse⟩⟩⟩
  blames _ he := by
    cases he
    exact ⟨_, h.clause, by simp⟩

end Context

namespace Solver

open Run Context

variable {f : Formula} {settled : Nat → Prop} {n : Nat} {c : Context} {falsified : Literal} {key : ClauseKey}

theorem relit_setLiterals {old new : Clause} (hs : c.clauses.Slotted) (hk : c.clauses.literals? key = some old)
    {w : Watches} (hb : ∀ l, w.binaryOf l = c.watches.binaryOf l)
    (hz : w.binary.size = c.watches.binary.size ∧ w.long.size = c.watches.long.size) :
    Relit c key new { c with clauses := c.clauses.setLiterals key new, watches := w } :=
  ⟨⟨rfl, rfl, rfl, rfl⟩, ClauseStore.literals?_setLiterals hk new, ClauseStore.slotted_setLiterals hs key new, hb, hz⟩

theorem relit_self {ls : Clause} (hs : c.clauses.Slotted) (hk : c.clauses.literals? key = some ls) : Relit c key ls c :=
  ⟨⟨rfl, rfl, rfl, rfl⟩, fun k => by
    by_cases he : k = key
    · rw [if_pos he, he, hk]
    · rw [if_neg he], hs, fun _ => rfl, rfl, rfl⟩

theorem answers_turn {β : Type} {kept rest : List ClauseKey} {a b first : Literal} {others : Clause}
    {m : Unit → Solver β} {Q : β → Context → Prop} (hf : Faced f settled n falsified c kept key rest a b first others)
    (h : ∀ d, Relit c key (first :: falsified :: others) d → Reached f settled n c d →
      Faced f settled n falsified d kept key rest first falsified first others → Answers (m ()) d Q) :
    Answers (if a = falsified then do
        let u ← modify fun c => { c with clauses := c.clauses.setLiterals key (first :: falsified :: others) }
        m u
      else m ()) c Q := by
  rw [answers_ite]
  constructor
  · intro _
    rw [answers_bind, answers_modify]
    have hr := (relit_setLiterals hf.base.slotted hf.clause (w := c.watches) (fun _ => rfl) ⟨rfl, rfl⟩ :
      Relit c key (first :: falsified :: others) _)
    obtain ⟨hreached, hfaced⟩ := hf.turn hr rfl rfl
    exact h _ hr hreached hfaced
  · intro ha
    have hr := relit_self hf.base.slotted (hf.same ha ▸ hf.clause)
    obtain ⟨hreached, hfaced⟩ := hf.turn hr rfl rfl
    exact h c hr hreached hfaced

/-- The search for another watch finds one that is not false, or all the literals it looks at are false. -/
theorem answers_replaceSecond {β : Type} {first second : Literal} {others : Clause}
    {found : Literal → Clause → Solver β} {none : Solver β} {Q : β → Context → Prop} (ht : Trailed f c)
    (hknown : ∀ l ∈ others, l.atom < c.atoms.count)
    (hfound : ∀ watch left, (first :: watch :: left).Perm (first :: second :: others) →
      watch.negate ∉ c.trail.literals.toList → Answers (found watch (first :: watch :: left)) c Q)
    (hnone : (∀ l ∈ others, l.negate ∈ c.trail.literals.toList) → Answers none c Q) :
    Answers (match Clause.replaceSecond c.atoms.standing (first :: second :: others) with
      | .stray => fault
      | .found watch literals => found watch literals
      | .none => none) c Q := by
  cases hr : Clause.replaceSecond c.atoms.standing (first :: second :: others) with
  | stray =>
    refine absurd hr (Clause.replaceSecond_ne_stray fun l hl hu => ?_)
    exact Nat.not_lt.2 (AtomTable.standing_eq_unknown_iff.1 hu) (hknown l hl)
  | none =>
    exact hnone fun l hl => ht.standing_fails_iff.1 (Clause.replaceSecond_eq_none_iff.1 hr l hl)
  | found watch ls =>
    obtain ⟨hp, hwatch, hfirst, hs⟩ := Clause.of_replaceSecond hr
    match ls, hp, hwatch, hfirst with
    | _ :: _ :: left, hp, hwatch, hfirst =>
      cases hwatch
      cases hfirst
      refine hfound _ _ hp fun hn => ?_
      rw [ht.standing_fails_iff.2 hn] at hs
      simp at hs

/-- **Each visit of a long clause makes its other watch true, moves its watch on, or finds it false.** -/
theorem answers_visitLong : ∀ (rest : List ClauseKey) (kept : Array ClauseKey) (c : Context),
    Walk f settled n falsified c (kept.toList ++ rest) → Done falsified c kept.toList →
    Answers (visitLong falsified rest kept) c (Visited f settled n falsified c)
  | [], kept, c, h, hdone => by
    rw [List.append_nil] at h
    exact answers_pure.2 ⟨.refl h.toReady, fun _ => rfl, h, hdone, nofun⟩
  | key :: rest, kept, c, h, hdone => by
    obtain ⟨stored, a, b, others, first, hfind, hliterals, hfirst, hf⟩ := h.faced hdone
    have hfound : ∀ watch left, (first :: watch :: left).Perm (first :: falsified :: others) →
        watch.negate ∉ c.trail.literals.toList → Answers (do
          modify fun c => { c with clauses := c.clauses.setLiterals key (first :: watch :: left) }
          onWatches (Watches.Call.watchLong watch key)
          visitLong falsified rest kept) c (Visited f settled n falsified c) := by
      intro watch left hp hn
      rw [answers_bind, answers_modify, answers_bind]
      refine ((gives_onWatches Watches.Call.gives_watchLong).answers ?_).2 ?_
      · exact h.base.shaped.knows (hf.watch_known hp)
      have hr := (relit_setLiterals hf.base.slotted hf.clause (w := c.watches.watchLong watch key) (fun _ => rfl)
        ⟨rfl, Watches.long_watchLong_size ..⟩ : Relit c key (first :: watch :: left) _)
      obtain ⟨hreached, hwalk, hdone⟩ := hf.give hp hn hr rfl rfl
      exact (answers_visitLong rest kept _ hwalk hdone).mono fun r d hd => hd.after hreached hr.binary
    unfold visitLong
    rw [answers_bind, answers_get, hfind]
    dsimp only
    rw [hliterals]
    dsimp only
    rw [hfirst]
    dsimp only
    cases hst : c.atoms.standing first with
    | unknown => exact absurd hf.first_known (Nat.not_lt.2 (AtomTable.standing_eq_unknown_iff.1 hst))
    | holds =>
      refine answers_turn hf fun d hr hd hfd => ?_
      obtain ⟨hwalk, hdone⟩ := hfd.settle (hd.extended.mem (h.base.trailed.standing_holds_iff.1 hst))
      rw [← Array.toList_push] at hwalk hdone
      exact (answers_visitLong rest (kept.push key) d hwalk hdone).mono fun r e he => he.after hd hr.binary
    | fails =>
      refine answers_replaceSecond h.base.trailed hf.others_known hfound fun hothers => ?_
      refine answers_turn hf fun d hr hd hfd => ?_
      rw [if_pos rfl, answers_pure]
      have hfalse := hd.extended.mem (h.base.trailed.standing_fails_iff.1 hst)
      exact (hfd.conflict hfalse fun l hl => hd.extended.mem (hothers l hl)).after hd hr.binary
    | free =>
      refine answers_replaceSecond h.base.trailed hf.others_known hfound fun hothers => ?_
      refine answers_turn hf fun d hr hd hfd => ?_
      rw [if_neg (by simp), answers_bind]
      refine answers_imply hfd.first_known fun e hp hu => ?_
      obtain ⟨he, hfe⟩ := hfd.push hp hu (hr.atoms ▸ (AtomTable.standing_eq_free_iff.1 hst).2)
        fun l hl => hd.extended.mem (hothers l hl)
      obtain ⟨hwalk, hdone⟩ := hfe.settle (hp.mem_iff.2 (.inr rfl))
      rw [← Array.toList_push] at hwalk hdone
      exact (answers_visitLong rest (kept.push key) e hwalk hdone).mono fun r u hu =>
        hu.after (hd.trans he) fun l => by rw [hp.watches, hr.binary]

/-! ## One literal -/

/-- **Looking at the clauses that watch a false literal settles them**, or finds one of them false. -/
theorem answers_propagateFalse (h : Sound f settled c) (hn : n ≤ c.trail.size)
    (hc : settled c.trail.level → c.Current n) (hneg : c.trail.literals[n]? = some falsified.negate) :
    Answers (propagateFalse falsified) c
      (fun r d => Sound f settled d ∧ Reached f settled n c d ∧
        Verdict f d (∀ b, d.Partners falsified b → b ∈ d.trail.literals.toList) r ∧
        ∀ conflict, r = .conflict conflict → d.Blames falsified conflict) := by
  have hready : Ready f settled n c := ⟨h.toBase, hn, hc⟩
  have hknown := h.trailed.mem_known (Trail.mem_of_getElem? hneg)
  rw [Literal.atom_negate] at hknown
  unfold propagateFalse
  rw [answers_bind, (gives_onWatches Watches.Call.gives_binary).answers (h.shaped.knows hknown), answers_bind]
  refine (answers_visitBinary _ c hready hneg fun _ => id).mono fun r d hvisited => ?_
  obtain ⟨hd, hw, hcl, hv, hb⟩ := hvisited
  have hsd : Sound f settled d :=
    ⟨hd.base, by rw [hw, hcl]; exact h.listed, by rw [hd.marks, hd.extended.count, h.marks]⟩
  cases r with
  | corrupt => exact hv.elim
  | conflict conflict => exact answers_pure.2 ⟨hsd, hd, hv, hb⟩
  | complete =>
    dsimp only
    have hknownd : d.watches.knows falsified = true := hd.base.shaped.knows (hd.extended.count.symm ▸ hknown)
    rw [answers_bind, (gives_onWatches Watches.Call.gives_takeLong).answers hknownd, answers_bind]
    obtain ⟨ht, hwalk⟩ := hd.toReady.taken hsd.listed (hd.extended.getElem? hneg)
    refine (answers_visitLong _ #[] _ hwalk (by simp [Done])).mono fun reply u hu => ?_
    obtain ⟨r, kept⟩ := reply
    have hknownu : u.watches.knows falsified = true := hu.reached.base.shaped.knows hu.walk.known
    rw [answers_bind, (gives_onWatches Watches.Call.gives_restoreLong).answers hknownu, answers_pure]
    have hrestored : Rewatched u { u with watches := u.watches.restoreLong falsified kept } :=
      ⟨⟨rfl, rfl, rfl, rfl⟩, rfl, fun _ => rfl, rfl, by simp [Watches.restoreLong]⟩
    have hru := hu.reached.toReady.rewatch hrestored rfl
    have hreached := ((hd.trans ht).trans hu.reached).trans hru
    refine ⟨⟨hru.base, hu.walk.listed_restored, ?_⟩, hreached, ?_, fun conflict he => (hu.blames _ he).rewatch hrestored⟩
    · rw [hreached.marks, hreached.extended.count, h.marks]
    have hverdict := hu.verdict
    cases r with
    | corrupt => exact hverdict
    | conflict conflict => cases conflict <;> exact hverdict
    | complete =>
      refine fun b hb => hu.walk.partners hverdict (fun m hm => ?_) (hrestored.partners hb)
      have hm : m ∈ (d.watches.binaryOf falsified).toList := hu.binary falsified ▸ hm
      exact (ht.trans hu.reached).extended.mem (hv m (hw ▸ hm))

end Solver

namespace Context

theorem alike_head {c d : Context} {i : Nat} (hi : i ≤ c.trail.size) (ht : d.trail = { c.trail with head := i })
    (ha : d.atoms = c.atoms) (hc : d.clauses = c.clauses) (hw : d.watches = c.watches)
    (hu : d.pendingUnits = c.pendingUnits) : Alike c d where
  literals := by rw [ht]
  starts := by rw [ht]
  layered h := by
    rw [ht]
    exact ⟨h.sorted, h.bounded, hi⟩
  records := by rw [ha]
  stocked := ha ▸ id
  clauses := hc ▸ .refl _
  watches := hw
  units := hu

theorem Refuted.alike {f : Formula} {c d : Context} {conflict : Conflict} (h : Refuted f c conflict) (ha : Alike c d) :
    Refuted f d conflict := by
  cases conflict with
  | binary a b =>
    refine ⟨h.1, ?_⟩
    rw [ha.literals]
    exact h.2
  | long key =>
    obtain ⟨ls, hls, hfalse⟩ := h
    refine ⟨ls, by rw [ha.literals?, hls], ?_⟩
    rw [ha.literals]
    exact hfalse

theorem Alike.reordered {c d : Context} (h : Alike c d) : Reordered c d := .of_eq (fun _ => by rw [h.watches]) h.literals?

theorem Blames.alike {c d : Context} {l : Literal} {conflict : Conflict} (h : c.Blames l conflict) (ha : Alike c d) :
    d.Blames l conflict := by
  cases conflict with
  | binary a b => exact ⟨ha.watches ▸ h.1, h.2⟩
  | long key =>
    obtain ⟨ls, hls, hl⟩ := h
    exact ⟨ls, by rw [ha.literals?, hls], hl⟩

/-- What propagation reaches: the whole trail is behind the head.  A conflict is one of a literal that was made false when
the head was passed on. -/
structure Propagates (f : Formula) (settled : Nat → Prop) (c : Context) (r : Propagated) (d : Context) : Prop where
  sound : Sound f settled d
  extended : Extends c d
  reordered : Reordered c d
  reasoned : Reasoned c d
  kindled : Kindled c.trail.head c d
  head : d.trail.head = d.trail.size
  units : d.pendingUnits = c.pendingUnits
  verdict : Verdict f d (settled d.trail.level → d.Current d.trail.size) r
  late : ∀ conflict, r = .conflict conflict →
    ∃ (i : Nat) (l : Literal), c.trail.head ≤ i ∧ d.trail.literals[i]? = some l ∧ d.Blames l.negate conflict

theorem Propagates.refl {f : Formula} {settled : Nat → Prop} {c : Context} (h : Sound f settled c)
    (hh : c.trail.head = c.trail.size) (hc : settled c.trail.level → c.Current c.trail.head) :
    Propagates f settled c .complete c where
  sound := h
  extended := .refl c
  reordered := .of_eq (fun _ => rfl) rfl
  reasoned := .of_literals rfl
  kindled := .of_literals rfl
  head := hh
  units := rfl
  verdict hs := hh ▸ hc hs
  late _ he := by cases he

theorem Propagates.after {f : Formula} {settled : Nat → Prop} {c d e : Context} {r : Propagated}
    (h : Propagates f settled d r e) (hx : Extends c d) (ho : Reordered c d) (hr : Reasoned c d)
    (hk : Kindled c.trail.head c d) (hh : c.trail.head ≤ d.trail.head) (hu : d.pendingUnits = c.pendingUnits) :
    Propagates f settled c r e where
  sound := h.sound
  extended := hx.trans h.extended
  reordered := ho.trans h.reordered
  reasoned := hr.trans h.reasoned h.extended h.reordered
  kindled := hk.trans (h.kindled.mono hh) h.extended h.reordered
  head := h.head
  units := h.units.trans hu
  verdict := h.verdict
  late conflict he := by
    obtain ⟨i, l, hi, hl, hb⟩ := h.late conflict he
    exact ⟨i, l, Nat.le_trans hh hi, hl, hb⟩

/-- The literals behind the head are those that were, and the one propagated. -/
theorem Current.succ {c : Context} {i : Nat} {l : Literal} (h : c.Current i) (hl : c.trail.literals[i]? = some l)
    (hp : ∀ b, c.Partners l.negate b → b ∈ c.trail.literals.toList) : c.Current (i + 1) := by
  intro a b hab hm
  obtain ⟨j, hj, hja⟩ := Trail.mem_before.1 hm
  rcases Nat.lt_succ_iff_lt_or_eq.1 hj with hj | rfl
  · exact h a b hab (Trail.mem_before.2 ⟨j, hj, hja⟩)
  · have he : a = l.negate := by rw [← Option.some.inj (hja.symm.trans hl), Literal.negate_negate]
    exact hp b (he ▸ hab)

end Context

namespace Solver

open Run Context

variable {f : Formula} {settled : Nat → Prop} {c : Context}

/-- The fuel has to do for the atoms that could still come before the head. -/
theorem answers_propagateFor : ∀ (fuel : Nat) (c : Context), Sound f settled c →
    (settled c.trail.level → c.Current c.trail.head) → c.atoms.count ≤ fuel + c.trail.head →
    Answers (propagateFor fuel) c (Propagates f settled c)
  | 0, c, h, hc, hfuel => by
    have hhead : c.trail.head = c.trail.size := by
      have := h.trailed.size_le
      have := h.trailed.layered.head
      omega
    unfold propagateFor
    rw [answers_bind, answers_get, if_pos (by simp [Trail.propagated, hhead, Trail.size]), answers_pure]
    exact .refl h hhead hc
  | fuel + 1, c, h, hc, hfuel => by
    unfold propagateFor
    rw [answers_bind, answers_get]
    cases hl : c.trail.literals[c.trail.head]? with
    | none =>
      have hhead : c.trail.head = c.trail.size :=
        Nat.le_antisymm h.trailed.layered.head (Array.getElem?_eq_none_iff.1 hl)
      exact answers_pure.2 (.refl h hhead hc)
    | some l =>
      have hlt : c.trail.head < c.trail.size := Trail.lt_size_of_getElem? hl
      dsimp only
      rw [answers_bind, answers_modify, answers_bind]
      have ha : Alike c { c with
          trail := { c.trail with head := c.trail.head + 1 }
          schedule := { c.schedule with simplifyIn := c.schedule.simplifyIn - 1 } } :=
        alike_head hlt rfl rfl rfl rfl rfl
      have hneg : c.trail.literals[c.trail.head]? = some l.negate.negate := by rw [Literal.negate_negate, hl]
      refine (answers_propagateFalse (n := c.trail.head) (ha.sound h rfl) (Nat.le_of_lt hlt)
        (fun hs => ha.current (hc hs)) hneg).mono fun r d hpassed => ?_
      obtain ⟨hsd, hd, hv, hb⟩ := hpassed
      have hext := (ha.toExtends rfl).trans hd.extended
      have hreordered := ha.reordered.trans hd.reordered
      have hreasoned : Reasoned c d := fun m hm => hd.reasoned m hm
      have hkindled : Kindled c.trail.head c d := fun m hm => hd.kindled m hm
      have hhead : d.trail.head = c.trail.head + 1 := hd.head
      have hld : d.trail.literals[c.trail.head]? = some l := hext.getElem? hl
      cases r with
      | corrupt => exact hv.elim
      | complete =>
        have hcurrent : settled d.trail.level → d.Current d.trail.head := fun hs =>
          hhead ▸ (hd.current hs).succ hld hv
        refine (answers_propagateFor fuel d hsd hcurrent ?_).mono fun r e he =>
          he.after hext hreordered hreasoned hkindled (by omega) hd.units
        have := hext.count
        omega
      | conflict conflict =>
        rw [answers_bind, answers_modify, answers_pure]
        have he : Alike d { d with trail := { d.trail with head := d.trail.literals.size } } :=
          alike_head (Nat.le_refl _) rfl rfl rfl rfl rfl
        refine ⟨he.sound hsd rfl, hext.trans (he.toExtends rfl), hreordered.trans he.reordered,
          hreasoned.trans (.of_literals rfl) (he.toExtends rfl) he.reordered,
          hkindled.trans (.of_literals rfl) (he.toExtends rfl) he.reordered, rfl, hd.units, Refuted.alike hv he,
          fun other ho => ⟨c.trail.head, l, Nat.le_refl _, hld, ?_⟩⟩
        cases ho
        exact (hb conflict rfl).alike he

/-- **Propagation answers and keeps the invariant**, settles the current level where its literals were settled so far, and
ends in a conflict only where a clause that follows from the formula is false. -/
theorem answers_propagate (h : Sound f settled c) (hc : settled c.trail.level → c.Current c.trail.head) :
    Answers propagate c (Propagates f settled c) := by
  unfold propagate
  rw [answers_bind, answers_get]
  refine answers_propagateFor _ c h hc ?_
  have := h.trailed.layered.head
  unfold Trail.size at this
  omega

theorem meets_propagate {E : Context → Prop} (h : Sound f settled c)
    (hc : settled c.trail.level → c.Current c.trail.head) : Meets propagate c (Propagates f settled c) E :=
  (answers_propagate h hc).meets

end Solver
end Cdcl
