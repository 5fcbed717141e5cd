import CnfSimplifier.Arena
import CnfSimplifier.Ascending
import CnfSimplifier.Bag
import CnfSimplifier.BatchElimination
import CnfSimplifier.Blocked
import CnfSimplifier.Budget
import CnfSimplifier.Clause
import CnfSimplifier.ClauseStream
import CnfSimplifier.Component
import CnfSimplifier.Dimensions
import CnfSimplifier.Elimination
import CnfSimplifier.Engine
import CnfSimplifier.Equivalence
import CnfSimplifier.Error
import CnfSimplifier.Event
import CnfSimplifier.Flags
import CnfSimplifier.Gate
import CnfSimplifier.Handle
import CnfSimplifier.Implication
import CnfSimplifier.Least
import CnfSimplifier.Literal
import CnfSimplifier.Literal.Lemmas
import CnfSimplifier.Notice
import CnfSimplifier.Numbering
import CnfSimplifier.Occurrences
import CnfSimplifier.Outcome
import CnfSimplifier.Probing
import CnfSimplifier.Proof
import CnfSimplifier.Random
import CnfSimplifier.Reconstruction
import CnfSimplifier.RefusingSolver
import CnfSimplifier.Resolution
import CnfSimplifier.Satisfaction
import CnfSimplifier.SearchSolver
import CnfSimplifier.Settings
import CnfSimplifier.Simplifier
import CnfSimplifier.Solver
import CnfSimplifier.Subsumption
import CnfSimplifier.Technique
import CnfSimplifier.Tool
import CnfSimplifier.Toolbox
import CnfSimplifier.Trail
import CnfSimplifier.TwoSat
import CnfSimplifier.Units
import CnfSimplifier.VarHeap
import CnfSimplifier.Word
import CnfSimplifier.Proofs.Compaction
import CnfSimplifier.Proofs.Component
import CnfSimplifier.Proofs.Conclusion
import CnfSimplifier.Proofs.Derivation
import CnfSimplifier.Proofs.Equivalence
import CnfSimplifier.Proofs.Gate
import CnfSimplifier.Proofs.Probing
import CnfSimplifier.Proofs.Subsumption
import CnfSimplifier.Proofs.SubsumptionFixpoint
import CnfSimplifier.Proofs.SubsumptionSearch
import CnfSimplifier.Proofs.TwoSat
import CnfSimplifier.Proofs.BatchElimination
import CnfSimplifier.Proofs.Calls
import CnfSimplifier.Proofs.ExportedFormula
import CnfSimplifier.Proofs.Consistency
import CnfSimplifier.Proofs.ExactRenaming
import CnfSimplifier.Proofs.KeptEquivalence
import CnfSimplifier.Proofs.KeptModels
import CnfSimplifier.Proofs.KeptProof
import CnfSimplifier.Proofs.MirroredProof
import CnfSimplifier.Proofs.ReachableEngines
import CnfSimplifier.Proofs.SolverExchange
import CnfSimplifier.Proofs.HandleHistory
import CnfSimplifier.Proofs.SearchSolver
import CnfSimplifier.Proofs.Exchanges
import CnfSimplifier.Proofs.Dealings
import CnfSimplifier.Proofs.TakeOver
import CnfSimplifier.Proofs.ExchangedFormula
import CnfSimplifier.Proofs.Sessions
import CnfSimplifier.Proofs.Emptying
import CnfSimplifier.Proofs.IdleTools
import CnfSimplifier.Proofs.Refilling
import CnfSimplifier.Proofs.Reimport
import CnfSimplifier.Proofs.Unnumbered
import CnfSimplifier.Proofs.UnnumberedRuns
import CnfSimplifier.Proofs.NumberedRun
import CnfSimplifier.Proofs.ChangeCounter
import CnfSimplifier.Proofs.CountedTechniques
import CnfSimplifier.Proofs.CountedRuns
import CnfSimplifier.Proofs.AppliedUnits
import CnfSimplifier.Proofs.AppliedTechniques
import CnfSimplifier.Proofs.AppliedRuns
import CnfSimplifier.Proofs.Quantification
import CnfSimplifier.Proofs.ExactElimination
import CnfSimplifier.Proofs.Representatives
import CnfSimplifier.Proofs.ExactSubstitution
import CnfSimplifier.Proofs.Safety
import CnfSimplifier.Proofs.BlockedFixpoint
import CnfSimplifier.Proofs.GraphSearch
import CnfSimplifier.Proofs.Tracking
import CnfSimplifier.Proofs.Composition
import CnfSimplifier.Proofs.ComposedTechniques
import CnfSimplifier.Proofs.Phases
import CnfSimplifier.Proofs.Growth
import CnfSimplifier.Proofs.GrowthBound
import CnfSimplifier.Proofs.BoundedRuns
import CnfSimplifier.Proofs.BatchGrowth
import CnfSimplifier.Proofs.TwoSatSolution
import CnfSimplifier.Proofs.UnitClosure
import CnfSimplifier.Proofs.CompletePropagation
import CnfSimplifier.Proofs.RootLevels
import CnfSimplifier.Proofs.ExactProbing
import CnfSimplifier.Proofs.BlockedSides
import CnfSimplifier.Proofs.ReportedVariables
import CnfSimplifier.Proofs.ExactBound
import CnfSimplifier.Proofs.DecidedPropagation
import CnfSimplifier.Proofs.Intervals
import CnfSimplifier.Proofs.ComponentPartition
import CnfSimplifier.Proofs.SubstitutionSafety
import CnfSimplifier.Proofs.EliminationEnds
import CnfSimplifier.Proofs.BatchSafety
import CnfSimplifier.Proofs.ProbingSafety
import CnfSimplifier.Proofs.ClausePairs
import CnfSimplifier.Proofs.LazyRemoval
import CnfSimplifier.Proofs.Backtracking
import CnfSimplifier.Proofs.ToolSafety
import CnfSimplifier.Proofs.RunSafety
import CnfSimplifier.Proofs.CallSafety
import CnfSimplifier.Proofs.ExchangeSafety
import CnfSimplifier.Proofs.Unfailing
import CnfSimplifier.Proofs.GateSearch
import CnfSimplifier.Proofs.HeapHistory
import CnfSimplifier.Proofs.RecordStack
import CnfSimplifier.Proofs.Renumbering
import CnfSimplifier.Proofs.ProofText
