import DualHessian.Arithmetic

/-!
# First derivatives by differences

`jacobian` is the matrix of the first derivatives of a vector of functions, by central differences;
`jacobianInto` is the same for a function that writes its values to an output.
`derivative` differentiates a matrix that depends on one number, by central differences of fourth
order.
-/

namespace DualHessian

variable {α : Type} [Arithmetic α] {m : Type → Type} [Monad m]

section Jacobian

variable {n k : Nat}

/-- A point at which a function is sampled, and the two outputs that it writes its values to. All
directions share them. -/
structure Bench (α : Type) (n k : Nat) where
  /-- The point. -/
  point : Vector α n
  /-- The output for values at points moved up. -/
  above : Vector α k
  /-- The output for values at points moved down. -/
  below : Vector α k

/-- The derivatives in one direction. The function is given what its output holds, and it may keep
some of that. The coordinate is put back. -/
def jacobianColumn (f : Vector α n → Vector α k → m (Vector α k)) (h : α) (s : Bench α n k)
    (i : Fin n) : m (Vector α k × Bench α n k) := do
  let xi := s.point.get i
  let x := s.point.set i (xi + h) i.isLt
  let above ← f x s.above
  let x := x.set i (xi - h) i.isLt
  let below ← f x s.below
  let x := x.set i xi i.isLt
  return (above.zipWith (fun a b => (a - b) / (whole 2 * h)) below, ⟨x, above, below⟩)

/-- The derivatives in a list of directions, one after the other. -/
def jacobianColumns (f : Vector α n → Vector α k → m (Vector α k)) (h : α) :
    List (Fin n) → Bench α n k → m (List (Vector α k) × Bench α n k)
  | [], s => return ([], s)
  | i :: is, s => do
    let (column, s) ← jacobianColumn f h s i
    let (columns, s) ← jacobianColumns f h is s
    return (column :: columns, s)

/-- The matrix with the given columns; zero where there are too few. -/
def ofColumns (n : Nat) (columns : List (Vector α k)) : Vector (Vector α n) k :=
  .ofFn fun i => .ofFn fun j => (columns.getD j (.replicate k 0)).get i

/-- The matrix of the derivatives of each component in each direction, and the point after taking
the samples. The function writes its values to an output that is zero at first. -/
def jacobianInto (f : Vector α n → Vector α k → m (Vector α k)) (x : Vector α n) (h : α) :
    m (Vector (Vector α n) k × Vector α n) := do
  let blank := Vector.replicate k 0
  let (columns, s) ← jacobianColumns f h (List.finRange n) ⟨x, blank, blank⟩
  return (ofColumns n columns, s.point)

/-- The matrix of the derivatives of a function that gives all its values at once. -/
def jacobian (f : Vector α n → m (Vector α k)) (x : Vector α n) (h : α) :
    m (Vector (Vector α n) k × Vector α n) :=
  jacobianInto (fun y _ => f y) x h

end Jacobian

/-- The combination of four values around a point whose error is of fourth order in the step. -/
def fourPoint (farAbove above below farBelow h : α) : α :=
  (farAbove * -(ratio 1 4) + above * whole 2 - below * whole 2 + farBelow * ratio 1 4)
    / (whole 3 * h)

/-- The derivative at `x` of a matrix that depends on one number. -/
def derivative {r c : Nat} (f : α → m (Vector (Vector α c) r)) (x h : α) :
    m (Vector (Vector α c) r) := do
  let farAbove ← f (x + whole 2 * h)
  let above ← f (x + h)
  let below ← f (x - h)
  let farBelow ← f (x - whole 2 * h)
  return .ofFn fun i => .ofFn fun j =>
    fourPoint ((farAbove.get i).get j) ((above.get i).get j) ((below.get i).get j)
      ((farBelow.get i).get j) h

end DualHessian
