import DualHessian.Arithmetic

/-!
# Columns of numbers

Small vectors of fixed length, added and subtracted componentwise, with inner products and norms.
A `Flux` has one row per state and one column per direction of space; gradients have that shape too.
-/

namespace DualHessian

variable {α : Type} [Arithmetic α] {n : Nat}

/-- One row per state, one column per direction of space. -/
abbrev Flux (α : Type) (dim states : Nat) := Vector (Vector α dim) states

namespace Column

/-- The inner product, added from the first component to the last. -/
def dot (a b : Vector α n) : α := sumOf (a.zipWith (· * ·) b).toList

/-- The inner product of a column with itself. -/
def normSquared (a : Vector α n) : α := dot a a

/-- The Euclidean length. -/
def norm [SquareRoot α] (a : Vector α n) : α := sqrt (normSquared a)

/-- Every component times a number. -/
def times (a : Vector α n) (s : α) : Vector α n := a.map (· * s)

/-- Every component divided by a number. -/
def dividedBy (a : Vector α n) (s : α) : Vector α n := a.map (· / s)

/-- The product of all components, from the first to the last. -/
def product (a : Vector α n) : α := a.toList.foldl (· * ·) 1

omit [Arithmetic α] in
/-- The components of a column given by a function. -/
@[simp] theorem get_ofFn (f : Fin n → α) (i : Fin n) : (Vector.ofFn f).get i = f i :=
  Vector.getElem_ofFn i.isLt

@[simp] theorem getElem_times (a : Vector α n) (s : α) (i : Nat) (h : i < n) :
    (times a s)[i] = a[i] * s := by
  simp [times]

@[simp] theorem getElem_dividedBy (a : Vector α n) (s : α) (i : Nat) (h : i < n) :
    (dividedBy a s)[i] = a[i] / s := by
  simp [dividedBy]

end Column

namespace Flux

variable {dim states : Nat}

/-- The flux that vanishes. -/
def zero : Flux α dim states := .replicate states (.replicate dim 0)

/-- The flux with an entry for each state and direction. -/
def build (entry : Fin states → Fin dim → α) : Flux α dim states :=
  .ofFn fun s => .ofFn fun d => entry s d

omit [Arithmetic α] in
@[simp] theorem get_build (entry : Fin states → Fin dim → α) (s : Fin states) (d : Fin dim) :
    ((build entry).get s).get d = entry s d := by
  simp [build]

/-- Products of a component of a column and a component of a row. -/
def outer (a : Vector α states) (b : Vector α dim) : Flux α dim states :=
  build fun s d => a.get s * b.get d

/-- Every entry times a number. -/
def times (f : Flux α dim states) (s : α) : Flux α dim states := f.map (Column.times · s)

/-- The fluxes of all states in one direction. -/
def column (f : Flux α dim states) (d : Fin dim) : Vector α states := f.map (·.get d)

/-- The flux along a line that has the given column. -/
def ofColumn (a : Vector α states) : Flux α 1 states := a.map fun x => .replicate 1 x

/-- The column of a flux along a line. -/
def onlyColumn (f : Flux α 1 states) : Vector α states := f.column 0

end Flux

end DualHessian
