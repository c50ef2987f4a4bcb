import Cdcl.Literal.Signed
import Cdcl.Clause
import Cdcl.Formula
import Cdcl.UnitClosure
import Cdcl.Consequence
import Cdcl.Run
import Cdcl.Options
import Cdcl.Luby
import Cdcl.Pcg32
import Cdcl.FloatOrder
import Cdcl.Chance
import Cdcl.IndexHeap
import Cdcl.IndexHeap.Sifting
import Cdcl.AtomTable
import Cdcl.AtomTable.Values
import Cdcl.Clause.Store
import Cdcl.Clause.Store.Lookup
import Cdcl.Watches
import Cdcl.Watches.Lists
import Cdcl.Trail
import Cdcl.Subsumption
import Cdcl.Context
import Cdcl.Context.Meaning
import Cdcl.Solver.Exhaustive
import Cdcl.Text.Numeral
import Cdcl.Text.Bytes
import Cdcl.Dimacs
import Cdcl.Dimacs.Grammar
import Cdcl.Dimacs.Written
import Cdcl.CommandLine
import Cdcl.Main
import Cdcl.Proofs.Outcome
import Cdcl.Proofs.HeapMembers
import Cdcl.Proofs.Admission
import Cdcl.Proofs.HeapAccess
import Cdcl.Proofs.HeapOrder
import Cdcl.Proofs.TrailLevels
import Cdcl.Proofs.StoreKeys
import Cdcl.Proofs.ActivityHeap
import Cdcl.Proofs.Invariant
import Cdcl.Proofs.Assignment
import Cdcl.Proofs.WatchLists
import Cdcl.Proofs.ClauseChange
import Cdcl.Proofs.Propagation
import Cdcl.Proofs.Backjump
import Cdcl.Proofs.Minimization
import Cdcl.Proofs.Analysis
import Cdcl.Proofs.FailedAssumptions
import Cdcl.Proofs.Storing
import Cdcl.Proofs.Simplification
import Cdcl.Proofs.Reduction
import Cdcl.Proofs.Learning
import Cdcl.Proofs.Building
import Cdcl.Proofs.Decision
import Cdcl.Proofs.Assumptions
import Cdcl.Proofs.Search
import Cdcl.Proofs.Solve
import Cdcl.Proofs.Branching
import Cdcl.Proofs.Reading
import Cdcl.Proofs.Session
import Cdcl.Proofs.Permanence
import Cdcl.Proofs.Soundness
import Cdcl.Proofs.Steps
import Cdcl.Proofs.Readiness
import Cdcl.Proofs.LearntClauses
import Cdcl.Proofs.Consistency
import Cdcl.Proofs.Closure
import Cdcl.Proofs.Ascent
import Cdcl.Proofs.Uninterrupted
import Cdcl.Proofs.Reliability
import Cdcl.Proofs.Termination
import Cdcl.Proofs.Levels
import Cdcl.Proofs.UnitPropagation
import Cdcl.Proofs.AssertionGuard
import Cdcl.Proofs.Overtaking
import Cdcl.Proofs.Frame
import Cdcl.Proofs.StoreCounts
import Cdcl.Proofs.StoredModel
import Cdcl.Proofs.Stopping
import Cdcl.Proofs.Tolerance
import Cdcl.Proofs.Passage
import Cdcl.Proofs.Clearing
import Cdcl.Proofs.Novelty
import Cdcl.Proofs.ImplicationPoints
import Cdcl.Proofs.Redundancy
import Cdcl.Options.Declared
import Cdcl.Proofs.FloatSigns
import Cdcl.Proofs.Undoing
import Cdcl.Proofs.ModelCounting
import Cdcl.Proofs.ModelSearch
import Cdcl.Proofs.Gathering
import Cdcl.Proofs.Tracking
import Cdcl.Proofs.Nesting
import Cdcl.Proofs.Availability
import Cdcl.Proofs.ReadOff
import Cdcl.Proofs.Scanning
import Cdcl.Proofs.Accepting
import Cdcl.Proofs.Writing
import Cdcl.Proofs.PriorityQueue
import Cdcl.Proofs.StoreHistory
import Cdcl.Proofs.Retention
import Cdcl.Proofs.LubyRecursion
import Cdcl.Proofs.FullPeriod
import Cdcl.Proofs.Responsibility
import Cdcl.Proofs.CleanMarks
import Cdcl.Proofs.LiteralForms
