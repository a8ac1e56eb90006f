import DualHessian.Arithmetic
import Mathlib.Algebra.BigOperators.Group.List.Basic
import Mathlib.Algebra.Order.Field.Rat
import Mathlib.Data.Rat.Sqrt

/-!
# Exact numbers

The elements of an ordered field, as numbers without rounding. Sums do not depend on the order in
which they are added, and a sum of nothing is zero.

* `ExactOrder` says that numbers are compared as elements of an ordered field.
* `ExactRoots` says that square roots of numbers that are not negative are exact.
* The rational numbers are exact; their square roots are exact where they are rational.
-/

namespace DualHessian

/-- Comparison and magnitude are those of an ordered field, and every number is finite. -/
class ExactOrder (K : Type) [Field K] [LinearOrder K] [Magnitude K] : Prop where
  /-- The comparison of the order. -/
  less_iff : ∀ {x y : K}, Magnitude.less x y = true ↔ x < y
  /-- Equality. -/
  same_iff : ∀ {x y : K}, Magnitude.same x y = true ↔ x = y
  /-- The absolute value. -/
  abs_eq : ∀ x : K, Magnitude.abs x = |x|
  /-- The maximum. -/
  larger_eq : ∀ x y : K, Magnitude.larger x y = max x y
  /-- There are no infinities. -/
  finite_eq : ∀ x : K, Magnitude.finite x = true

/-- Numbers that are not negative have exact square roots. Nothing is said of other numbers. -/
class ExactRoots (K : Type) [Field K] [LinearOrder K] [SquareRoot K] : Prop where
  /-- A root is not negative. -/
  sqrt_nonneg : ∀ {x : K}, 0 ≤ x → 0 ≤ sqrt x
  /-- Its square is the number. -/
  sqrt_mul_sqrt : ∀ {x : K}, 0 ≤ x → sqrt x * sqrt x = x

section Sums

variable {K : Type} [Field K]

theorem sumOf_eq_sum (xs : List K) : sumOf xs = xs.sum :=
  List.sum_eq_foldl.symm

theorem signedSumOf_eq_sum (xs : List K) : signedSumOf xs = xs.sum := by
  rw [signedSumOf, neg_zero, List.sum_eq_foldl]

variable [LinearOrder K] [Magnitude K] [ExactOrder K]

/-- The largest of zeros is zero. -/
theorem largestOf_eq_zero {xs : List K} (h : ∀ x ∈ xs, x = 0) : largestOf xs = 0 := by
  unfold largestOf
  induction xs with
  | nil => rfl
  | cons x xs ih =>
    rw [List.foldl_cons, h x List.mem_cons_self, ExactOrder.larger_eq, max_self]
    exact ih fun y hy => h y (List.mem_cons_of_mem x hy)

theorem less_eq_false_iff {x y : K} : Magnitude.less x y = false ↔ y ≤ x := by
  rw [← not_lt, ← ExactOrder.less_iff, Bool.not_eq_true]

end Sums

/-! ## Rational numbers -/

/-- Maxima are those of magnitudes, so they may start below zero anywhere. -/
instance : Magnitude Rat where
  less x y := decide (x < y)
  same x y := decide (x = y)
  abs x := |x|
  larger := max
  lowest := -1
  finite _ := true

instance : SquareRoot Rat := ⟨Rat.sqrt⟩

instance : ExactOrder Rat where
  less_iff := decide_eq_true_iff
  same_iff := decide_eq_true_iff
  abs_eq _ := rfl
  larger_eq _ _ := rfl
  finite_eq _ := rfl

end DualHessian
