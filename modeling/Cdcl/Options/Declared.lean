import Cdcl.Options
/-!
# Options.Declared — values within the bounds they were declared with

Each option is declared with its bounds and a value, which is what the options are at first.  The bounds are met at first
(`declared_default`), and by whatever is set within them (`Declared.set?`).
-/
namespace Cdcl

namespace Bounded

variable {α : Type} [LE α]

/-- An option has the bounds it was declared with, and its value is within them. -/
structure Declared (declared o : Bounded α) : Prop where
  min : o.min = declared.min
  max : o.max = declared.max
  le_value : declared.min ≤ o.value
  value_le : o.value ≤ declared.max

theorem Declared.set? [DecidableLE α] {declared o o' : Bounded α} {v : α} (h : Declared declared o)
    (hs : o.set? v = some o') : Declared declared o' := by
  obtain ⟨⟨hmin, hmax⟩, rfl⟩ := set?_eq_some_iff.1 hs
  exact ⟨h.min, h.max, h.min ▸ hmin, h.max ▸ hmax⟩

end Bounded

structure AtomOptions.Declared (o : AtomOptions) : Prop where
  bump : ({} : AtomOptions).bump.Declared o.bump
  decay : ({} : AtomOptions).decay.Declared o.decay
  decayInterval : ({} : AtomOptions).decayInterval.Declared o.decayInterval

structure ClauseOptions.Declared (o : ClauseOptions) : Prop where
  bump : ({} : ClauseOptions).bump.Declared o.bump
  decay : ({} : ClauseOptions).decay.Declared o.decay
  learntFactor : ({} : ClauseOptions).learntFactor.Declared o.learntFactor
  learntGrowth : ({} : ClauseOptions).learntGrowth.Declared o.learntGrowth
  adjustStart : ({} : ClauseOptions).adjustStart.Declared o.adjustStart
  adjustGrowth : ({} : ClauseOptions).adjustGrowth.Declared o.adjustGrowth

/-- Every option has its declared bounds, and a value within them. -/
structure Options.Declared (o : Options) : Prop where
  atoms : o.atoms.Declared
  clauses : o.clauses.Declared
  conflictLimit : ({} : Options).conflictLimit.Declared o.conflictLimit
  minimization : ({} : Options).minimization.Declared o.minimization
  phaseSaving : ({} : Options).phaseSaving.Declared o.phaseSaving
  positiveChance : ({} : Options).positiveChance.Declared o.positiveChance
  randomChance : ({} : Options).randomChance.Declared o.randomChance
  restart : ({} : Options).restart.Declared o.restart
  restartFirst : ({} : Options).restartFirst.Declared o.restartFirst
  restartBase : ({} : Options).restartBase.Declared o.restartBase
  simplify : ({} : Options).simplify.Declared o.simplify

namespace AtomOptions

theorem declared_default : Declared {} := by
  constructor <;> exact ⟨rfl, rfl, by decide +kernel, by decide +kernel⟩

theorem Declared.set? {o o' : AtomOptions} {s : AtomSetting} (h : o.Declared) (hs : o.set? s = some o') : o'.Declared := by
  cases s <;> obtain ⟨b, hb, rfl⟩ := Option.map_eq_some_iff.1 hs
  · exact { h with bump := h.bump.set? hb }
  · exact { h with decay := h.decay.set? hb }
  · exact { h with decayInterval := h.decayInterval.set? hb }

end AtomOptions

namespace ClauseOptions

theorem declared_default : Declared {} := by
  constructor <;> exact ⟨rfl, rfl, by decide +kernel, by decide +kernel⟩

theorem Declared.set? {o o' : ClauseOptions} {s : ClauseSetting} (h : o.Declared) (hs : o.set? s = some o') :
    o'.Declared := by
  cases s <;> obtain ⟨b, hb, rfl⟩ := Option.map_eq_some_iff.1 hs
  · exact { h with bump := h.bump.set? hb }
  · exact { h with decay := h.decay.set? hb }
  · exact { h with learntFactor := h.learntFactor.set? hb }
  · exact { h with learntGrowth := h.learntGrowth.set? hb }
  · exact { h with adjustStart := h.adjustStart.set? hb }
  · exact { h with adjustGrowth := h.adjustGrowth.set? hb }

end ClauseOptions

namespace Options

/-- **The options are within their bounds at first.** -/
theorem declared_default : Declared {} where
  atoms := AtomOptions.declared_default
  clauses := ClauseOptions.declared_default
  conflictLimit := ⟨rfl, rfl, by decide +kernel, by decide +kernel⟩
  minimization := ⟨rfl, rfl, by decide +kernel, by decide +kernel⟩
  phaseSaving := ⟨rfl, rfl, by decide +kernel, by decide +kernel⟩
  positiveChance := ⟨rfl, rfl, by decide +kernel, by decide +kernel⟩
  randomChance := ⟨rfl, rfl, by decide +kernel, by decide +kernel⟩
  restart := ⟨rfl, rfl, by decide +kernel, by decide +kernel⟩
  restartFirst := ⟨rfl, rfl, by decide +kernel, by decide +kernel⟩
  restartBase := ⟨rfl, rfl, by decide +kernel, by decide +kernel⟩
  simplify := ⟨rfl, rfl, by decide +kernel, by decide +kernel⟩

/-- **What is set within the bounds leaves the options within them.** -/
theorem Declared.set? {o o' : Options} {s : Setting} (h : o.Declared) (hs : o.set? s = some o') : o'.Declared := by
  cases s <;> obtain ⟨b, hb, rfl⟩ := Option.map_eq_some_iff.1 hs
  · exact { h with atoms := h.atoms.set? hb }
  · exact { h with clauses := h.clauses.set? hb }
  · exact { h with conflictLimit := h.conflictLimit.set? hb }
  · exact { h with minimization := h.minimization.set? hb }
  · exact { h with phaseSaving := h.phaseSaving.set? hb }
  · exact { h with positiveChance := h.positiveChance.set? hb }
  · exact { h with randomChance := h.randomChance.set? hb }
  · exact { h with restart := h.restart.set? hb }
  · exact { h with restartFirst := h.restartFirst.set? hb }
  · exact { h with restartBase := h.restartBase.set? hb }
  · exact { h with simplify := h.simplify.set? hb }

theorem Declared.setD {o : Options} (h : o.Declared) (s : Setting) : (o.setD s).Declared := by
  unfold Options.setD
  cases hs : o.set? s with
  | none => exact h
  | some o' => exact h.set? hs

end Options

end Cdcl
