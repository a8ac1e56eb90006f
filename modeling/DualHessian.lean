import DualHessian.Arithmetic
import DualHessian.Decimal.Digits
import DualHessian.Decimal.Double
import DualHessian.Decimal.Scientific
import DualHessian.Differences.FirstOrder
import DualHessian.Differences.SecondOrder
import DualHessian.Differences.Stencil
import DualHessian.Distributed.Matrix
import DualHessian.Distributed.Vector
import DualHessian.Dofs.DofSet
import DualHessian.Dofs.Partition
import DualHessian.Dump.Disk
import DualHessian.Dump.Table
import DualHessian.Failure
import DualHessian.Hessian.Assembly
import DualHessian.Hessian.PointService
import DualHessian.Hessian.Sampling
import DualHessian.Physics.Columns
import DualHessian.Physics.Equation
import DualHessian.Physics.Gas
import DualHessian.Physics.Linear
import DualHessian.Physics.Manufactured
import DualHessian.Physics.Model
import DualHessian.Physics.Parameters
import DualHessian.Physics.ParametersText
import DualHessian.Physics.ViscousGas
import DualHessian.Rank.Collective
import DualHessian.Rank.Group
import DualHessian.Rank.Program
import DualHessian.Sparse.Compressed
import DualHessian.Sparse.Entry
import DualHessian.Sparse.Matrix
import DualHessian.Sparse.Pattern
import DualHessian.System.Closures
import DualHessian.System.Description
import DualHessian.System.Discretization
import DualHessian.System.Expression
import DualHessian.System.ExpressionText
import DualHessian.System.FiniteVolume
import DualHessian.System.Rules
import DualHessian.System.Summary
import DualHessian.Text.Json
import DualHessian.Text.JsonReader
import DualHessian.Text.JsonWriter
import DualHessian.Verify.Comparison
import DualHessian.Verify.Console
import DualHessian.Verify.Event
import DualHessian.Verify.Run
import DualHessian.Verify.Settings
import DualHessian.Verify.SettingsText
import DualHessian.Verify.Suite
import DualHessian.Proofs.Rank.Attainment
import DualHessian.Proofs.Rank.Success
import DualHessian.Proofs.Rank.Transcript
import DualHessian.Proofs.Rank.Service
import DualHessian.Proofs.Hessian.Lockstep
import DualHessian.Proofs.Rank.Threads
import DualHessian.Proofs.Rank.Interleaving
import DualHessian.Proofs.Distributed.Norms
import DualHessian.Proofs.Verify.Comparison
import DualHessian.Proofs.Numbers.Doubles
import DualHessian.Proofs.Verify.Soundness
import DualHessian.Proofs.Dofs.Blocks
import DualHessian.Proofs.Dofs.Balance
import DualHessian.Proofs.Distributed.Values
import DualHessian.Proofs.System.Closures
import DualHessian.Proofs.Differences.Exactness
import DualHessian.Proofs.Hessian.Content
import DualHessian.Proofs.Numbers.Exact
import DualHessian.Proofs.Verify.Matrices
import DualHessian.Proofs.Verify.Outcome
import DualHessian.Proofs.Distributed.Sums
import DualHessian.Proofs.Verify.Polynomial
import DualHessian.Proofs.Numbers.Rounding
import DualHessian.Proofs.Numbers.Storage
import DualHessian.Proofs.Distributed.Dense
import DualHessian.Proofs.Distributed.Entrywise
import DualHessian.Proofs.Differences.Pointwise
import DualHessian.Proofs.Hessian.Placement
import DualHessian.Proofs.Rank.Endings
import DualHessian.Proofs.Verify.Independence
import DualHessian.Proofs.Verify.Direct
import DualHessian.Proofs.Verify.Restoration
import DualHessian.Proofs.Numbers.Binary64
import DualHessian.Proofs.System.Perturbation
import DualHessian.Proofs.Sparse.Entries
import DualHessian.Proofs.Distributed.Accumulation
import DualHessian.Proofs.Hessian.Halting
import DualHessian.Proofs.System.Watching
import DualHessian.Proofs.System.Consistency
import DualHessian.Proofs.System.Views
import DualHessian.Proofs.Verify.Storage
import DualHessian.Proofs.Verify.Verdict
import DualHessian.Proofs.Distributed.Faithful
import DualHessian.Proofs.Distributed.Workspace
import DualHessian.Proofs.Distributed.Addition
import DualHessian.Proofs.Distributed.Ghosts
import DualHessian.Proofs.Distributed.Products
import DualHessian.Proofs.Distributed.DenseNorms
import DualHessian.Proofs.Rank.Barrier
import DualHessian.Proofs.Rank.Mismatch
import DualHessian.Proofs.Sparse.Compressed
import DualHessian.Proofs.System.Building
import DualHessian.Proofs.System.History
import DualHessian.Proofs.Rank.Runs
import DualHessian.Proofs.Verify.Suite
import DualHessian.Proofs.Differences.FirstOrder
import DualHessian.Proofs.Physics.Source
import DualHessian.Proofs.Decimal.Double
import DualHessian.Proofs.Dump.Columns
import DualHessian.Proofs.Dump.Tokens
import DualHessian.Proofs.Decimal.Scientific
import DualHessian.Proofs.Physics.GasState
import DualHessian.Proofs.Numbers.Dual
import DualHessian.Proofs.Numbers.Derivative
import DualHessian.Proofs.Physics.Primitive
import DualHessian.Proofs.Physics.Dissipation
import DualHessian.Proofs.Physics.Rotation
import DualHessian.Proofs.Physics.Jacobian
import DualHessian.Proofs.Physics.Spectrum
import DualHessian.Proofs.Physics.Speeds
import DualHessian.Proofs.Physics.Manufactured
import DualHessian.Proofs.Physics.Moments
import DualHessian.Proofs.Physics.Superposition
import DualHessian.Proofs.Dofs.Canonical
import DualHessian.Proofs.Dofs.Coupling
import DualHessian.Proofs.Distributed.Slots
import DualHessian.Proofs.Differences.Readings
