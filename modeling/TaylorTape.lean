import TaylorTape.Value.Document
import TaylorTape.Session.Closure
import TaylorTape.Evaluator.Batch
import TaylorTape.Evaluator.Sparsity
import TaylorTape.Proofs.Identities
import TaylorTape.Proofs.Partials
import TaylorTape.Proofs.Transposition
import TaylorTape.Proofs.History
import TaylorTape.Proofs.OrderShift
import TaylorTape.Proofs.Hessian
import TaylorTape.Proofs.ScalarWeights
import TaylorTape.Proofs.Directions
import TaylorTape.Proofs.WellShaped
import TaylorTape.Proofs.ScalarSeeds
import TaylorTape.Proofs.Pruned
import TaylorTape.Proofs.Independence
import TaylorTape.Proofs.Scripts
import TaylorTape.Proofs.Lanewise
import TaylorTape.Proofs.Schedules
import TaylorTape.Proofs.Failures
import TaylorTape.Proofs.Integrity
import TaylorTape.Proofs.Operations
import TaylorTape.Proofs.Twins
import TaylorTape.Proofs.Replaced
import TaylorTape.Proofs.Exchange
import TaylorTape.Proofs.Interchange
import TaylorTape.Proofs.Idle
import TaylorTape.Proofs.Misfits
import TaylorTape.Proofs.Rejections
import TaylorTape.Proofs.Ranged
import TaylorTape.Proofs.Blocks
import TaylorTape.Proofs.Accesses
import TaylorTape.Proofs.Readings
import TaylorTape.Proofs.SeriesReading
import TaylorTape.Proofs.Irregular
import TaylorTape.Proofs.Composed
import TaylorTape.Proofs.Composition
import TaylorTape.Proofs.OrderByOrder
import TaylorTape.Proofs.Pairing
import TaylorTape.Proofs.Interleavings
import TaylorTape.Proofs.VectorPrograms
import TaylorTape.Proofs.Uniform
import TaylorTape.Proofs.Multiples
import TaylorTape.Proofs.RoundTrips
import TaylorTape.Proofs.RuleAdjoints
import TaylorTape.Proofs.Cells
import TaylorTape.Proofs.SizedNames
