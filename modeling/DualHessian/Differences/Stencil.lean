import DualHessian.Arithmetic
import DualHessian.Failure

/-!
# Stencils on the sampling grid

A mixed second derivative of a function is estimated from its values on a grid of `5 × 5`
perturbations: multiples `-2, …, 2` of a step in each of two directions. A `Stencil` says how the
values are combined.

* `grid` lists the perturbations row by row, `gridPlaceOf` is the place of one of them.
* `Stencil.combine` adds the signed values of each group and weights the sums.
* `Stencil.coefficients` lists the factor of every value that takes part.
* `Stencil.fourthOrder` is the stencil used throughout, of fourth order in the step.
-/

namespace DualHessian

/-- The perturbations, where the second direction varies fastest. -/
def grid : List (Int × Int) :=
  [-2, -1, 0, 1, 2].flatMap fun di => [-2, -1, 0, 1, 2].map fun dj => (di, dj)

/-- The number of perturbations. -/
def gridSize : Nat := 25

/-- Whether a multiple of the step belongs to the grid. -/
def onGrid (d : Int) : Bool := decide (-2 ≤ d) && decide (d ≤ 2)

/-- The place of a perturbation on the grid. -/
def gridPlace (di dj : Int) : Nat := ((di + 2) * 5 + (dj + 2)).toNat

/-- Why a perturbation does not belong to the grid. -/
def gridViolation? (di dj : Int) : Option Violation :=
  if !onGrid di then some .firstOffsetOutside
  else if !onGrid dj then some .secondOffsetOutside
  else none

/-- The place of a perturbation, if it belongs to the grid. -/
def gridPlaceOf (di dj : Int) : Except Violation Nat :=
  match gridViolation? di dj with
  | some violation => .error violation
  | none => .ok (gridPlace di dj)

/-- A perturbation on the grid is found at its place. -/
theorem grid_gridPlace : ∀ d ∈ grid, grid[gridPlace d.1 d.2]? = some d := by decide

/-- A value that takes part in a stencil, with its sign. -/
structure Tap where
  /-- The multiple of the step in the first direction. -/
  di : Int
  /-- The multiple of the step in the second direction. -/
  dj : Int
  /-- The sign: the value is added if it is positive and subtracted otherwise. -/
  sign : Int
deriving DecidableEq, Repr

/-- Signed values with a common weight. -/
structure TapGroup (α : Type) where
  /-- The weight of the group. -/
  weight : α
  /-- The values in the group. -/
  taps : List Tap
deriving DecidableEq, Repr

/-- A weighted combination of values on the grid, divided by a constant and the squared step. -/
structure Stencil (α : Type) where
  /-- The constant. -/
  denominator : α
  /-- The groups of values. -/
  groups : List (TapGroup α)
deriving DecidableEq, Repr

namespace Stencil

variable {α : Type} [Arithmetic α]

/-- The signed values of a group, added from the first to the last. -/
def groupSum (taps : List Tap) (samples : Vector α gridSize) : α :=
  taps.foldl (fun sum tap =>
    let sample := samples.getD (gridPlace tap.di tap.dj) 0
    if 0 < tap.sign then sum + sample else sum - sample) 0

/-- The estimate from the values on the grid with the given step. -/
def combine (s : Stencil α) (samples : Vector α gridSize) (h : α) : α :=
  s.groups.foldl (fun total g => total + groupSum g.taps samples * g.weight) 0
    / (s.denominator * h * h)

/-- The estimate, if the stencil stays on the grid. -/
def combineOnGrid (s : Stencil α) (samples : Vector α gridSize) (h : α) : Except Violation α :=
  match (s.groups.flatMap (·.taps)).findSome? fun tap => gridViolation? tap.di tap.dj with
  | some violation => .error violation
  | none => .ok (s.combine samples h)

/-- Every perturbation that takes part, with the factor of its value. -/
def coefficients (s : Stencil α) : List (Int × Int × α) :=
  s.groups.flatMap fun g => g.taps.map fun tap =>
    (tap.di, tap.dj, g.weight * whole tap.sign)

/-- Sixteen values of the grid with weights that leave an error of fourth order in the step. -/
def fourthOrder : Stencil α where
  denominator := whole 600
  groups := [
    ⟨whole (-63), [⟨1, -2, 1⟩, ⟨2, -1, 1⟩, ⟨-2, 1, 1⟩, ⟨-1, 2, 1⟩]⟩,
    ⟨whole 63, [⟨-1, -2, 1⟩, ⟨-2, -1, 1⟩, ⟨2, 1, 1⟩, ⟨1, 2, 1⟩]⟩,
    ⟨whole 44, [⟨2, -2, 1⟩, ⟨-2, 2, 1⟩, ⟨-2, -2, -1⟩, ⟨2, 2, -1⟩]⟩,
    ⟨whole 74, [⟨-1, -1, 1⟩, ⟨1, 1, 1⟩, ⟨1, -1, -1⟩, ⟨-1, 1, -1⟩]⟩]

end Stencil

end DualHessian
