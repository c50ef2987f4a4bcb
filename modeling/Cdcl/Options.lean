import Cdcl.Options.Bounded
import Cdcl.Options.Minimization
/-!
# Options — what may be set about a solve

The options of a context, in three groups.  The tables of atoms and of clauses each work with their own copy of their
group, taken when the context is made; what a solve itself reads, it reads from the options of the context.

A `Setting` is an option together with a value of the option's type.
-/
namespace Cdcl

/-- The least positive normal double. -/
def leastPositive : Float := Float.ofBits 0x0010000000000000

/-- The greatest finite double. -/
def greatestFinite : Float := Float.ofBits 0x7fefffffffffffff

/-- The greatest count a word of 64 bits holds. -/
def countMax : Nat := 18446744073709551615

/-- Activity of atoms: the bump, the factor of a decay, and how many decisions lie between decays. -/
structure AtomOptions where
  bump : Bounded Float := ⟨"atom_bump", leastPositive, 1e100, 1.0⟩
  decay : Bounded Float := ⟨"atom_decay", leastPositive, 1.0, 0.25⟩
  decayInterval : Bounded Nat := ⟨"atom_decay_interval", 1, countMax, 256⟩

/-- Activity of learnt clauses, and how many of them are kept.  The bump grows as it decays; at its greatest value all
activities are rescaled. -/
structure ClauseOptions where
  bump : Bounded Float := ⟨"clause_bump", leastPositive, 1e20, 1.0⟩
  decay : Bounded Float := ⟨"clause_decay", leastPositive, 1.0, 0.999⟩
  learntFactor : Bounded Float := ⟨"learntsize_factor", 0.0, greatestFinite, 1.0 / 3.0⟩
  learntGrowth : Bounded Float := ⟨"learntsize_inc", 1.0, greatestFinite, 1.1⟩
  adjustStart : Bounded Float := ⟨"learntsize_adjust_start", 1.0, greatestFinite, 100.0⟩
  adjustGrowth : Bounded Float := ⟨"learntsize_adjust_inc", 1.0, greatestFinite, 1.5⟩

structure Options where
  atoms : AtomOptions := {}
  clauses : ClauseOptions := {}
  conflictLimit : Bounded Nat := ⟨"conflict_limit", 0, countMax, 0⟩
  minimization : Bounded Minimization := ⟨"minimization", .least, .greatest, .recursive⟩
  phaseSaving : Bounded Bool := ⟨"phase_saving", false, true, true⟩
  positiveChance : Bounded Float := ⟨"polarity_lean", 0.0, 1.0, 1.0⟩
  randomChance : Bounded Float := ⟨"random_decision_bias", 0.0, 1.0, 0.0⟩
  restart : Bounded Bool := ⟨"restart", false, true, true⟩
  restartFirst : Bounded Nat := ⟨"restart_first", 1, 4294967295, 100⟩
  restartBase : Bounded Float := ⟨"restart_inc", 1.0, greatestFinite, 2.0⟩
  simplify : Bounded Bool := ⟨"simplify", false, true, true⟩

instance : Inhabited AtomOptions := ⟨{}⟩

instance : Inhabited ClauseOptions := ⟨{}⟩

instance : Inhabited Options := ⟨{}⟩

inductive AtomSetting
  | bump (v : Float)
  | decay (v : Float)
  | decayInterval (v : Nat)

inductive ClauseSetting
  | bump (v : Float)
  | decay (v : Float)
  | learntFactor (v : Float)
  | learntGrowth (v : Float)
  | adjustStart (v : Float)
  | adjustGrowth (v : Float)

inductive Setting
  | atoms (s : AtomSetting)
  | clauses (s : ClauseSetting)
  | conflictLimit (v : Nat)
  | minimization (v : Minimization)
  | phaseSaving (v : Bool)
  | positiveChance (v : Float)
  | randomChance (v : Float)
  | restart (v : Bool)
  | restartFirst (v : Nat)
  | restartBase (v : Float)
  | simplify (v : Bool)

/-! ## Within the bounds -/

def AtomOptions.set? (o : AtomOptions) : AtomSetting → Option AtomOptions
  | .bump v => (o.bump.set? v).map ({ o with bump := · })
  | .decay v => (o.decay.set? v).map ({ o with decay := · })
  | .decayInterval v => (o.decayInterval.set? v).map ({ o with decayInterval := · })

def ClauseOptions.set? (o : ClauseOptions) : ClauseSetting → Option ClauseOptions
  | .bump v => (o.bump.set? v).map ({ o with bump := · })
  | .decay v => (o.decay.set? v).map ({ o with decay := · })
  | .learntFactor v => (o.learntFactor.set? v).map ({ o with learntFactor := · })
  | .learntGrowth v => (o.learntGrowth.set? v).map ({ o with learntGrowth := · })
  | .adjustStart v => (o.adjustStart.set? v).map ({ o with adjustStart := · })
  | .adjustGrowth v => (o.adjustGrowth.set? v).map ({ o with adjustGrowth := · })

def Options.set? (o : Options) : Setting → Option Options
  | .atoms s => (o.atoms.set? s).map ({ o with atoms := · })
  | .clauses s => (o.clauses.set? s).map ({ o with clauses := · })
  | .conflictLimit v => (o.conflictLimit.set? v).map ({ o with conflictLimit := · })
  | .minimization v => (o.minimization.set? v).map ({ o with minimization := · })
  | .phaseSaving v => (o.phaseSaving.set? v).map ({ o with phaseSaving := · })
  | .positiveChance v => (o.positiveChance.set? v).map ({ o with positiveChance := · })
  | .randomChance v => (o.randomChance.set? v).map ({ o with randomChance := · })
  | .restart v => (o.restart.set? v).map ({ o with restart := · })
  | .restartFirst v => (o.restartFirst.set? v).map ({ o with restartFirst := · })
  | .restartBase v => (o.restartBase.set? v).map ({ o with restartBase := · })
  | .simplify v => (o.simplify.set? v).map ({ o with simplify := · })

/-- The options with a setting, or the options as they are where the bounds refuse it. -/
def Options.setD (o : Options) (s : Setting) : Options := (o.set? s).getD o

/-! ## Whatever the bounds -/

def AtomOptions.put (o : AtomOptions) : AtomSetting → AtomOptions
  | .bump v => { o with bump := o.bump.put v }
  | .decay v => { o with decay := o.decay.put v }
  | .decayInterval v => { o with decayInterval := o.decayInterval.put v }

def ClauseOptions.put (o : ClauseOptions) : ClauseSetting → ClauseOptions
  | .bump v => { o with bump := o.bump.put v }
  | .decay v => { o with decay := o.decay.put v }
  | .learntFactor v => { o with learntFactor := o.learntFactor.put v }
  | .learntGrowth v => { o with learntGrowth := o.learntGrowth.put v }
  | .adjustStart v => { o with adjustStart := o.adjustStart.put v }
  | .adjustGrowth v => { o with adjustGrowth := o.adjustGrowth.put v }

def Options.put (o : Options) : Setting → Options
  | .atoms s => { o with atoms := o.atoms.put s }
  | .clauses s => { o with clauses := o.clauses.put s }
  | .conflictLimit v => { o with conflictLimit := o.conflictLimit.put v }
  | .minimization v => { o with minimization := o.minimization.put v }
  | .phaseSaving v => { o with phaseSaving := o.phaseSaving.put v }
  | .positiveChance v => { o with positiveChance := o.positiveChance.put v }
  | .randomChance v => { o with randomChance := o.randomChance.put v }
  | .restart v => { o with restart := o.restart.put v }
  | .restartFirst v => { o with restartFirst := o.restartFirst.put v }
  | .restartBase v => { o with restartBase := o.restartBase.put v }
  | .simplify v => { o with simplify := o.simplify.put v }

/-! ## Sequences of settings -/

/-- Makes settings one after another, each within the bounds or not at all, and answers which were made. -/
def Options.setAll (o : Options) (settings : List Setting) : Options × List Bool :=
  settings.foldl
    (fun (o, made) s => match o.set? s with
      | some o' => (o', made ++ [true])
      | none => (o, made ++ [false]))
    (o, [])

def Options.putAll (o : Options) (settings : List Setting) : Options := settings.foldl Options.put o

end Cdcl
