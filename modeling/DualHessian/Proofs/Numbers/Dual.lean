import Mathlib.Algebra.DualNumber
import Mathlib.Tactic.Ring
import DualHessian.Physics.Columns

/-!
# Dual numbers

Numbers `a + b ε` with `ε ^ 2 = 0`. A formula that is evaluated at `x + h ε` gives its value at `x`
and, in front of `ε`, its derivative along `h`. Since every formula of this library is written for
any type of numbers, it can be evaluated at dual numbers as it stands.

* `Tangent.div_mul_cancel` says that dividing undoes multiplying, wherever the value of the divisor
  does not vanish.
* `Tangent.along` is a column that moves in a direction, `Tangent.constant` one that does not move.
* `Tangent.moving_mul` is the product rule and `Tangent.snd_div` the quotient rule.
-/

namespace DualHessian

namespace Tangent

open TrivSqZeroExt DualNumber

variable {K : Type} [Field K]

/-- Division of dual numbers. -/
instance instDiv : Div (DualNumber K) := ⟨fun x y => x * y⁻¹⟩

/-- Dividing is multiplying by the inverse. -/
theorem div_def (x y : DualNumber K) : x / y = x * y⁻¹ := rfl

/-- It undoes multiplication by every number whose value does not vanish. -/
protected theorem div_mul_cancel {x y : DualNumber K} (hy : y.fst ≠ 0) : x / y * y = x := by
  rw [div_def, mul_assoc, TrivSqZeroExt.inv_mul_cancel hy, mul_one]

/-- The value of a quotient. -/
@[simp] theorem fst_div (x y : DualNumber K) : (x / y).fst = x.fst / y.fst := by
  simp [div_def, div_eq_mul_inv]

/-- The quotient rule. -/
@[simp] theorem snd_div (x y : DualNumber K) :
    (x / y).snd = (x.snd - x.fst / y.fst * y.snd) / y.fst := by
  simp [div_def, div_eq_mul_inv]
  ring

/-- The sum rule. -/
theorem moving_add (a b c d : K) :
    (inl a + b • ε) + (inl c + d • ε) = (inl (a + c) + (b + d) • ε : DualNumber K) := by
  ext <;> simp

/-- The product rule. -/
theorem moving_mul (a b c d : K) :
    (inl a + b • ε) * (inl c + d • ε) = (inl (a * c) + (a * d + b * c) • ε : DualNumber K) := by
  ext <;> simp

/-- A constant factor. -/
theorem moving_mul_inl (a b c : K) :
    (inl a + b • ε) * inl c = (inl (a * c) + (b * c) • ε : DualNumber K) := by
  ext <;> simp

/-- Fractions of integers do not vary. -/
@[simp] theorem ratio_eq_inl (k m : Int) : (ratio k m : DualNumber K) = inl (ratio k m) := by
  ext <;> simp [ratio, whole]

variable {n : Nat}

/-- A column that moves in a direction. -/
def along (x h : Vector K n) : Vector (DualNumber K) n := x.zipWith (fun a b => inl a + b • ε) h

/-- A column that does not move. -/
def constant (x : Vector K n) : Vector (DualNumber K) n := x.map inl

/-- The entries of a moving column move with the entries of the direction. -/
@[simp] theorem get_along (x h : Vector K n) (i : Fin n) :
    (along x h).get i = inl (x.get i) + h.get i • ε :=
  Vector.getElem_zipWith i.isLt

/-- The entries of a column at rest do not vary. -/
@[simp] theorem get_constant (x : Vector K n) (i : Fin n) : (constant x).get i = inl (x.get i) :=
  Vector.getElem_map _ i.isLt

end Tangent

end DualHessian
