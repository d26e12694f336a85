import ElementTensor.Integral.Program
import ElementTensor.Parameters.Reader
import ElementTensor.Proofs.ExactScalar
import ElementTensor.Proofs.Outcome
import ElementTensor.Proofs.SortedMap
import ElementTensor.Proofs.Evaluation
import ElementTensor.Proofs.RuleAnalysis
import ElementTensor.Proofs.Contribution
import ElementTensor.Proofs.Merge
import ElementTensor.Proofs.BlockGrowth
import ElementTensor.Proofs.RuleOutcome
import ElementTensor.Proofs.Routing
import ElementTensor.Proofs.GeneratedTables
import ElementTensor.Proofs.SharedPart
import ElementTensor.Proofs.TableSource
import ElementTensor.Proofs.Dependency
import ElementTensor.Proofs.TableConflicts
import ElementTensor.Proofs.Variability
import ElementTensor.Proofs.Terminals
import ElementTensor.Proofs.SharedVertices
import ElementTensor.Proofs.Denotation
import ElementTensor.Proofs.Shape
import ElementTensor.Proofs.StackExpansion
import ElementTensor.Proofs.Expansion
import ElementTensor.Proofs.ExpansionOutcome
import ElementTensor.Proofs.Substitution
import ElementTensor.Proofs.MonomialForm
import ElementTensor.Proofs.Factorization
import ElementTensor.Proofs.Decomposition
import ElementTensor.Proofs.TableTolerance
import ElementTensor.Proofs.TablePreparation
import ElementTensor.Proofs.TableProducts
import ElementTensor.Proofs.Reading
import ElementTensor.Proofs.Filing
import ElementTensor.Proofs.ArgumentReading
import ElementTensor.Proofs.ContributionValue
import ElementTensor.Proofs.Installation
import ElementTensor.Proofs.TerminalReading
import ElementTensor.Proofs.SingleRule
import ElementTensor.Proofs.TabulatedReading
import ElementTensor.Proofs.Alike
import ElementTensor.Proofs.SharedCopy
import ElementTensor.Proofs.SharedNumbering
import ElementTensor.Proofs.RemainingTerminals
import ElementTensor.Proofs.Faults
import ElementTensor.Proofs.Elimination
import ElementTensor.Proofs.TableClosure
import ElementTensor.Proofs.InternalFaults
import ElementTensor.Proofs.RuleSteps
import ElementTensor.Proofs.TableExtents
import ElementTensor.Proofs.RuleIndependence
import ElementTensor.Proofs.Walk
import ElementTensor.Proofs.Reduced
import ElementTensor.Proofs.Compaction
import ElementTensor.Proofs.Reconstruction
import ElementTensor.Proofs.Assembly
import ElementTensor.Proofs.SettledExpansion
import ElementTensor.Proofs.Rebuild
import ElementTensor.Proofs.BlockModes
import ElementTensor.Proofs.Weights
import ElementTensor.Proofs.CommutedExpansion
import ElementTensor.Proofs.VaryingVertices
import ElementTensor.Proofs.Balancing
import ElementTensor.Proofs.ModifierReading
import ElementTensor.Proofs.TerminalComponents
import ElementTensor.Proofs.SharedTables
import ElementTensor.Proofs.EntityCounts
import ElementTensor.Proofs.SymmetricComponents
import ElementTensor.Proofs.BlockRank
import ElementTensor.Proofs.GraphTerminals
import ElementTensor.Proofs.IndexRanges
import ElementTensor.Proofs.CompactedKinds
import ElementTensor.Proofs.ProvidedTables
import ElementTensor.Proofs.ArgumentNumbering
import ElementTensor.Proofs.VertexStore
import ElementTensor.Proofs.InverseLists
