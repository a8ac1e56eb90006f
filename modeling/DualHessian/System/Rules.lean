import DualHessian.Differences.SecondOrder
import DualHessian.System.Closures
import DualHessian.System.Expression

/-!
# Rules for residuals and Hessians

Residuals and Hessians written as formulas, and the Hessian obtained by differences of the
dual-weighted residual.
-/

namespace DualHessian

variable {α : Type} [Arithmetic α]

/-- The residual whose components are formulas in the state. -/
def formulaResidual [SquareRoot α] (rows : List (Expression α)) : ResidualRule α :=
  fun n state => Expression.evalRows n state.toList [] rows

/-- The Hessian whose entries are formulas in state and dual. Its shape is that of the system unless
another one is given. -/
def formulaHessian [SquareRoot α] (shape? : Option (Nat × Nat))
    (entries : List (Entry (Expression α))) : HessianRule α := fun n state dual => do
  let (rows, columns) := shape?.getD (n, n)
  let values ← entries.mapM fun e => do
    let value ← e.value.eval state.toList dual.toList
    return (⟨e.row, e.column, value⟩ : Entry α)
  SparseMatrix.ofEntries? rows columns values

/-- The inner product of a dual and a residual, added from the first component to the last. -/
def dualWeighted {n : Nat} (dual residual : Vector α n) : α :=
  sumOf (dual.zipWith (· * ·) residual).toList

/-- The Hessian of the dual-weighted residual by differences with a fixed step. Entries that come
out as zero are not stored. -/
def differenceHessian [Magnitude α] (residual : ResidualRule α) (h : α) : HessianRule α :=
  fun n state dual => do
    let f (w : Vector α n) : Except Violation α := do
      return dualWeighted dual (← residual n w)
    let (H, _) ← hessian f state h
    return Dense.toSparse ⟨n, (H.map Vector.toList).toList⟩

end DualHessian
