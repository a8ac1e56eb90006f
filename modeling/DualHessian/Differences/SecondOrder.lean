import DualHessian.Differences.Stencil

/-!
# Second derivatives by differences

`mixedPartial` estimates one mixed second derivative of a function of `n` variables from its values
on the sampling grid, `hessian` all of them. Both move a point from one perturbation to the next and
back, and return it at the end. The function may be any computation, for instance one that counts
its calls or that may stop early.
-/

namespace DualHessian

variable {α : Type} [Arithmetic α] {n : Nat} {m : Type → Type} [Monad m]

/-- The point perturbed by multiples of the step in two directions. If they are the same, the
multiples add up. -/
def perturbed (x : Vector α n) (i j : Fin n) (h : α) (d : Int × Int) : Vector α n :=
  let moved := x.set i (x.get i + whole d.1 * h) i.isLt
  moved.set j ((if i = j then moved.get j else x.get j) + whole d.2 * h) j.isLt

/-- The entries of a perturbed point. Where both directions are the same, the second multiple is
added behind the first one. -/
theorem get_perturbed (x : Vector α n) (i j : Fin n) (h : α) (d : Int × Int) (k : Fin n) :
    (perturbed x i j h d).get k =
      let y := if k = i then x.get k + whole d.1 * h else x.get k
      if k = j then y + whole d.2 * h else y := by
  have hget : ∀ (y : Vector α n) (l : Fin n), y.get l = y[l.val] := fun _ _ => rfl
  simp only [perturbed, hget, Vector.getElem_set, Fin.val_inj]
  by_cases hj : k = j
  · subst hj
    by_cases hi : k = i
    · subst hi
      simp
    · simp [hi, Ne.symm hi]
  · by_cases hi : k = i
    · subst hi
      simp [hj, Ne.symm hj]
    · simp [hi, hj, Ne.symm hi, Ne.symm hj]

/-- The value of a function at a perturbed point, and the point with both coordinates put back. -/
def sampleAt (f : Vector α n → m α) (i j : Fin n) (h : α) (x : Vector α n) (d : Int × Int) :
    m (α × Vector α n) := do
  let moved := perturbed x i j h d
  let value ← f moved
  return (value, (moved.set i (x.get i) i.isLt).set j (x.get j) j.isLt)

/-- The values of a function at a list of perturbations, taken one after the other. -/
def samplesAt (f : Vector α n → m α) (i j : Fin n) (h : α) :
    List (Int × Int) → Vector α n → m (List α × Vector α n)
  | [], x => return ([], x)
  | d :: ds, x => do
    let (value, x) ← sampleAt f i j h x d
    let (values, x) ← samplesAt f i j h ds x
    return (value :: values, x)

/-- Values on the grid, given as a list; zero where there are too few. -/
def onGridOf (values : List α) : Vector α gridSize := .ofFn fun k => values.getD k 0

/-- The mixed second derivative in two directions, and the point after taking the samples. -/
def mixedPartial (f : Vector α n → m α) (x : Vector α n) (i j : Fin n) (h : α) :
    m (α × Vector α n) := do
  let (values, x) ← samplesAt f i j h grid x
  return (Stencil.fourthOrder.combine (onGridOf values) h, x)

/-- The pairs `i ≤ j` of indices below `n`, row by row. -/
def upperPairs (n : Nat) : List (Fin n × Fin n) :=
  (List.finRange n).flatMap fun i =>
    ((List.finRange n).filter fun j => decide (i ≤ j)).map fun j => (i, j)

/-- A matrix with `value` at a position and at the transposed position. -/
def setSymmetric (H : Vector (Vector α n) n) (i j : Fin n) (value : α) : Vector (Vector α n) n :=
  let H := H.set i ((H.get i).set j value j.isLt) i.isLt
  H.set j ((H.get j).set i value i.isLt) j.isLt

/-- The matrix of all second derivatives, and the point after taking the samples. Each pair of
directions is sampled once, so the matrix is symmetric. -/
def hessian (f : Vector α n → m α) (x : Vector α n) (h : α) :
    m (Vector (Vector α n) n × Vector α n) :=
  (upperPairs n).foldlM (fun (H, x) (i, j) => do
    let (value, x) ← mixedPartial f x i j h
    return (setSymmetric H i j value, x)) (.replicate n (.replicate n 0), x)

end DualHessian
