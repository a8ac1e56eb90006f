/-!
# Ways to stop

A computation stops early for one of two reasons. A `Violation` is a broken precondition: a mistake
of the caller. A `Failure` is a reported condition: a chain of causes, the outermost first. Each has
its wording in one function.
-/

namespace DualHessian

/-- A precondition that the caller has broken. -/
inductive Violation where
  /-- An index does not belong to the index space. -/
  | indexOutside (size : Nat)
  /-- Two index sets belong to index spaces of different sizes. -/
  | differentSpaces
  /-- The index sets of a partition do not belong to its degrees of freedom. -/
  | spaceOfPartition
  /-- An owned degree of freedom is not relevant. -/
  | ownedNotRelevant
  /-- A rank is not below the size of its group. -/
  | rankOutside (rank size : Nat)
  /-- A group has no rank. -/
  | emptyGroup
  /-- A sparsity pattern does not have one row per degree of freedom. -/
  | rowPerDof
  /-- A global vector does not have one entry per degree of freedom. -/
  | entryPerDof
  /-- Two vectors are distributed differently. -/
  | differentPartitions
  /-- An entry deposited for a matrix lies outside the matrix. -/
  | entryOutside (row column : Nat)
  /-- The step of a difference formula is not a positive finite number. -/
  | stepNotPositive
  /-- The ranks of a group called collectives that do not match. -/
  | desynchronized
  /-- The ranks of a group passed lists of different lengths to one reduction. -/
  | bufferLengths
  /-- The first offset lies outside the sampling grid. -/
  | firstOffsetOutside
  /-- The second offset lies outside the sampling grid. -/
  | secondOffsetOutside
  /-- A vector or a matrix has no entry at the place asked for. -/
  | noSuchEntry
  /-- A number is asked for with more digits than can be written. -/
  | tooManyDigits
  /-- A sum of machine words is larger than every word. -/
  | sumTooLarge
deriving DecidableEq, Repr

namespace Violation

/-- The wording of a broken precondition; some have none. -/
def message? : Violation → Option String
  | indexOutside size => some s!"Index out of bounds for index set of size {size}"
  | differentSpaces => some "Index sets must share the index space"
  | spaceOfPartition => none
  | ownedNotRelevant => some "Locally owned dofs must be locally relevant"
  | rankOutside rank size => some s!"Rank {rank} out of bounds for group of size {size}"
  | emptyGroup => some "A communicator group needs at least one rank"
  | rowPerDof => some "Pattern must have one row per dof"
  | entryPerDof => some "Global vector must have one entry per dof"
  | differentPartitions => some "Vectors must share their partition"
  | entryOutside row column => some s!"Entry ({row}, {column}) out of bounds"
  | stepNotPositive => some "Finite difference step must be positive"
  | desynchronized =>
    some "Collective desynchronization: ranks called different collectives"
  | bufferLengths => some "Reduction buffers must have equal length"
  | firstOffsetOutside =>
    some "assertion failed: di >= -GRID_RADIUS && di <= GRID_RADIUS"
  | secondOffsetOutside =>
    some "assertion failed: dj >= -GRID_RADIUS && dj <= GRID_RADIUS"
  | noSuchEntry => none
  | tooManyDigits => none
  | sumTooLarge => some "attempt to add with overflow"

end Violation

/-- Two matrices that cannot be combined. -/
inductive MatrixConflict where
  /-- The shapes differ. -/
  | shape (expected actual : Nat × Nat)
  /-- The rows are distributed differently. -/
  | partition
deriving DecidableEq, Repr

namespace MatrixConflict

/-- The wording of a conflict. -/
def message : MatrixConflict → String
  | shape (rows, columns) (r, c) =>
    s!"Dimension mismatch: expected {rows}x{columns} matrix, got {r}x{c}."
  | partition => "Matrices are partitioned differently across ranks."

end MatrixConflict

/-- What keeps offsets and columns from being those of a sparsity pattern. -/
inductive PatternDefect where
  /-- There is not one offset more than there are rows. -/
  | offsetCount
  /-- The first offset is not zero, or the last one is not the number of columns listed. -/
  | offsetEnds
  /-- A row ends before it starts. -/
  | offsetsDescend
  /-- A column does not belong to the matrix. -/
  | columnOutside
  /-- A column is listed twice for a row. -/
  | columnRepeated
  /-- A column is listed behind a larger one. -/
  | columnsDescend
deriving DecidableEq, Repr

/-- The wording of a defect. -/
def PatternDefect.message : PatternDefect → String
  | offsetCount => "Length of offset array is not equal to (major_dim + 1)."
  | offsetEnds => "First or last offset is incompatible with format."
  | offsetsDescend => "Offsets are not monotonically increasing."
  | columnOutside => "A minor index is out of bounds."
  | columnRepeated => "Input data contains duplicate entries."
  | columnsDescend => "Minor indices are not monotonically increasing within each lane."

/-- One link of a chain of causes. -/
inductive Cause where
  /-- A system was described without a residual. -/
  | missingResidual
  /-- A system was described without a sparsity pattern. -/
  | missingPattern
  /-- The sparsity pattern of a system is not square. -/
  | patternNotSquare (rows columns : Nat)
  /-- The initial solution has the wrong length. -/
  | solutionLength (actual expected : Nat)
  /-- The initial dual has the wrong length. -/
  | dualLength (actual expected : Nat)
  /-- The rows that a rank owns do not make up a sparsity pattern. -/
  | ownedRows
  /-- Offsets and columns are not those of a sparsity pattern. -/
  | patternDefect (defect : PatternDefect)
  /-- A system without Jacobians was asked for one. -/
  | noJacobian
  /-- A system without a Hessian was asked for one. -/
  | noHessianGiven
  /-- The Hessian of a system is not acceptable. -/
  | invalidHessian
  /-- Two matrices cannot be combined. -/
  | conflict (conflict : MatrixConflict)
  /-- A sample of a residual failed. -/
  | sample (call rank : Nat)
  /-- An assembly of a residual failed. -/
  | assembly (call : Nat)
  /-- A sparsity pattern does not fit the number of degrees of freedom. -/
  | patternShape (rows columns dofs : Nat)
  /-- An entry could not be evaluated on this rank. -/
  | entry (row column : Nat)
  /-- An entry could not be evaluated on some other rank. -/
  | entryElsewhere (row column : Nat)
  /-- The reference Hessian could not be assembled. -/
  | reference
  /-- The Hessian by differences could not be assembled. -/
  | differences
  /-- An assembly left no Hessian behind. -/
  | noHessianAssembled
  /-- A directory could not be created. -/
  | directory (path : String)
  /-- A file could not be created. -/
  | file (path : String)
  /-- A file could not be filled. -/
  | contents (path : String)
  /-- The file system refused. -/
  | disk
  /-- A case of a suite could not be run. -/
  | case (label : String)
  /-- A condition described by its text alone. -/
  | text (text : String)
deriving DecidableEq, Repr

namespace Cause

/-- The wording of a cause. -/
def message : Cause → String
  | missingResidual => "Missing residual"
  | missingPattern => "Missing sparsity pattern"
  | patternNotSquare r c => s!"Hessian sparsity pattern must be square, got {r}x{c}"
  | solutionLength k n => s!"Solution has length {k}, expected {n}"
  | dualLength k n => s!"Dual has length {k}, expected {n}"
  | ownedRows => "Failed to restrict sparsity pattern to owned rows"
  | patternDefect defect => defect.message
  | noJacobian => "Jacobian assembly is not supported by closure-defined systems"
  | noHessianGiven => "Hessian requested, but no Hessian was provided"
  | invalidHessian => "Invalid Hessian"
  | conflict c => c.message
  | sample call rank => s!"sample {call} failed on rank {rank}"
  | assembly call => s!"assembly {call} failed"
  | patternShape r c n => s!"Sparsity pattern is {r}x{c}, but the system has {n} dofs"
  | entry i j => s!"Failed to evaluate entry ({i}, {j})"
  | entryElsewhere i j => s!"Evaluation of entry ({i}, {j}) failed on another rank"
  | reference => "Failed to assemble reference Hessian"
  | differences => "Failed to assemble finite-difference Hessian"
  | noHessianAssembled => "System assembled no Hessian"
  | directory path => s!"Failed to create directory {path}"
  | file path => s!"Failed to create {path}"
  | contents path => s!"Failed to write {path}"
  | disk => "io error"
  | case label => s!"Case {label} failed to run"
  | text t => t

end Cause

/-- A reported condition: a cause with the chain of causes behind it. -/
structure Failure where
  /-- The outermost cause. -/
  outer : Cause
  /-- The causes behind it, the nearest first. -/
  inner : List Cause
deriving DecidableEq, Repr

namespace Failure

/-- A failure with a single cause. -/
def of (cause : Cause) : Failure := ⟨cause, []⟩

/-- The same failure, seen from outside. -/
def wrap (cause : Cause) (f : Failure) : Failure := ⟨cause, f.outer :: f.inner⟩

/-- All causes, the outermost first. -/
def causes (f : Failure) : List Cause := f.outer :: f.inner

@[simp] theorem causes_of (cause : Cause) : (of cause).causes = [cause] := rfl

@[simp] theorem causes_wrap (cause : Cause) (f : Failure) :
    (f.wrap cause).causes = cause :: f.causes := rfl

/-- The wording of a failure: that of its causes, joined by colons. -/
def message (f : Failure) : String := ": ".intercalate (f.causes.map Cause.message)

end Failure

/-- Why a computation stopped early. -/
inductive Stop where
  /-- A condition was reported. -/
  | failed (failure : Failure)
  /-- A precondition was broken. -/
  | violated (violation : Violation)
deriving DecidableEq, Repr

end DualHessian
