import DualHessian.Proofs.Distributed.Addition
import DualHessian.Proofs.Distributed.Norms
import DualHessian.Verify.Comparison

/-!
# What a comparison reports

All ranks of a group that compare two matrices of one shape, distributed in the same way, obtain the
same report. It is a function of the parts that the ranks hold, `GroupMatrix.report`.
-/

namespace DualHessian

variable {α : Type} [Arithmetic α] [Magnitude α] [SquareRoot α] {P : Interface} {n size : Nat}
  {p : Fin size → Partition n} {R : Replies P size}

/-- The difference of two matrices. -/
def GroupMatrix.minus (A B : GroupMatrix α p) : GroupMatrix α p := fun r => (A r).plus (-1) (B r)

/-- The report of a comparison of matrices with the given number of columns. -/
def GroupMatrix.report (t : Tolerances α) (columns : Nat)
    (differences reference : GroupMatrix α p) : Report α :=
  let discrepancy := differences.minus reference
  t.report reference.frobenius differences.frobenius (discrepancy.columnNorm columns)
    discrepancy.rowNorm

/-- All ranks obtain the report and the difference. -/
theorem Group.achieves_compare (t : Tolerances α) {columns : Nat}
    {differences reference : GroupMatrix α p}
    (hdifferences : ∀ r, (differences r).columns = columns)
    (hreference : ∀ r, (reference r).columns = columns) :
    Achieves R
      (fun out => out = fun r =>
        .ok (differences.report t columns reference, differences.minus reference r))
      fun r => (compare t (differences r) (reference r) :
        Task α P (Except MatrixConflict (Report α × RowMatrix α (p r)))) := by
  have hminus : ∀ r, (differences r).addMultiple (-1) (reference r) =
      .ok (differences.minus reference r) := fun r =>
    RowMatrix.addMultiple_eq ((hdifferences r).trans (hreference r).symm) (-1)
  have hcolumns : ∀ r, (differences.minus reference r).columns = columns := hdifferences
  -- Every reduction gives all ranks the same number, so they go through the same steps.
  unfold compare
  refine (achieves_frobenius reference).andThen _ ?_
  rintro _ rfl
  refine (achieves_frobenius differences).andThen _ ?_
  rintro _ rfl
  simp only [hminus]
  refine (achieves_columnNorm _ hcolumns).andThen _ ?_
  rintro _ rfl
  refine (achieves_rowNorm _).andThen _ ?_
  rintro _ rfl
  exact .pure rfl

/-- Ranks that only compare return the report and the difference. -/
theorem Group.returns_compare (t : Tolerances α) {columns : Nat}
    (differences reference : GroupMatrix α p)
    (hdifferences : ∀ r, (differences r).columns = columns)
    (hreference : ∀ r, (reference r).columns = columns) :
    Returns
      (fun r => (compare t (differences r) (reference r) :
        Task α .closed (Except MatrixConflict (Report α × RowMatrix α (p r)))).run)
      (fun r => .ok (.ok
        (differences.report t columns reference, differences.minus reference r))) :=
  (achieves_compare t hdifferences hreference).returns_ok

end DualHessian
