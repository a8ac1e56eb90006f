import DualHessian.Decimal.Double
import DualHessian.Distributed.Matrix

/-!
# Comparing two matrices

`compare` measures how far a matrix obtained by differences is from a reference matrix, and decides
whether the reference passes: it does if the largest sum of magnitudes in a column of the
difference, relative to the larger Frobenius norm of both matrices, does not exceed the tolerance. A
reference that is nearly zero is compared in absolute terms.
-/

namespace DualHessian

/-- The outcome of a comparison. -/
inductive Verdict where
  /-- The matrices agree. -/
  | pass
  /-- The matrices differ. -/
  | fail
deriving DecidableEq, Repr

/-- The word for an outcome. -/
def Verdict.word : Verdict → String
  | pass => "Pass"
  | fail => "Fail"

/-- The thresholds of a comparison. -/
structure Tolerances (α : Type) where
  /-- The largest accepted relative discrepancy. -/
  tolerance : α
  /-- Reference matrices of smaller norm count as zero. -/
  degenerateNorm : α
deriving DecidableEq, Repr

/-- What a comparison has found. -/
structure Report (α : Type) where
  /-- The Frobenius norm of the matrix obtained by differences. -/
  differencesNorm : α
  /-- The Frobenius norm of the reference. -/
  referenceNorm : α
  /-- The norm that discrepancies are relative to. -/
  scale : α
  /-- The largest sum of magnitudes in a column of the difference. -/
  columnDiscrepancy : α
  /-- The largest sum of magnitudes in a row of the difference. -/
  rowDiscrepancy : α
  /-- The discrepancy of columns relative to the scale. -/
  relativeColumn : α
  /-- The discrepancy of rows relative to the scale. -/
  relativeRow : α
  /-- The largest accepted relative discrepancy. -/
  tolerance : α
  /-- The outcome. -/
  verdict : Verdict
deriving DecidableEq, Repr

namespace Report

variable {α : Type}

/-- Whether the reference passes. -/
def passed (r : Report α) : Bool := r.verdict == .pass

/-- The exit status of a program that reports the outcome: zero for a pass. -/
def status (r : Report α) : Nat :=
  match r.verdict with
  | .pass => 0
  | .fail => 1

/-- The report in one line. -/
def text (r : Report Float) : String :=
  let number := Double.shortestText
  s!"FD-AD: L1 = {number r.relativeColumn}, Linf = {number r.relativeRow} " ++
    s!"(relative to {number r.scale}; |FD| = {number r.differencesNorm}, " ++
    s!"|AD| = {number r.referenceNorm}) -> {r.verdict.word}"

end Report

namespace Tolerances

variable {α : Type} [Arithmetic α] [Magnitude α] (t : Tolerances α)

/-- The norm that discrepancies are relative to. -/
def scale (referenceNorm differencesNorm : α) : α :=
  if Magnitude.less referenceNorm t.degenerateNorm then 1
  else Magnitude.larger referenceNorm differencesNorm

/-- The outcome for a relative discrepancy. -/
def verdict (relative : α) : Verdict := if Magnitude.less t.tolerance relative then .fail else .pass

/-- The report for the norms of the reference, of the matrix obtained by differences, and of their
difference. -/
def report (referenceNorm differencesNorm columnDiscrepancy rowDiscrepancy : α) : Report α :=
  let scale := t.scale referenceNorm differencesNorm
  { differencesNorm := differencesNorm
    referenceNorm := referenceNorm
    scale := scale
    columnDiscrepancy := columnDiscrepancy
    rowDiscrepancy := rowDiscrepancy
    relativeColumn := columnDiscrepancy / scale
    relativeRow := rowDiscrepancy / scale
    tolerance := t.tolerance
    verdict := t.verdict (columnDiscrepancy / scale) }

end Tolerances

/-- Compares a matrix obtained by differences with a reference. The result holds the report and the
difference of the matrices. -/
def compare {α : Type} [Arithmetic α] [Magnitude α] [SquareRoot α] {P : Interface} {n m : Nat}
    {p : Partition n} {q : Partition m} (t : Tolerances α) (differences : RowMatrix α p)
    (reference : RowMatrix α q) :
    Task α P (Except MatrixConflict (Report α × RowMatrix α p)) := do
  let referenceNorm ← reference.frobenius
  let differencesNorm ← differences.frobenius
  match differences.addMultiple (-1) reference with
  | .error conflict => return .error conflict
  | .ok discrepancy =>
    let columnDiscrepancy ← discrepancy.columnNorm
    let rowDiscrepancy ← discrepancy.rowNorm
    return .ok
      (t.report referenceNorm differencesNorm columnDiscrepancy rowDiscrepancy, discrepancy)

end DualHessian
