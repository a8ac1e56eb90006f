import Mathlib.Analysis.Calculus.Deriv.Inv
import Mathlib.Analysis.InnerProductSpace.Basic
import Mathlib.Analysis.Real.Sqrt
import DualHessian.Proofs.Numbers.Dual

/-!
# Derivatives of formulas

Dual numbers compute derivatives of real functions. A formula is built from coordinates and
constants by arithmetic; each operation, done with dual numbers instead of real ones, carries the
derivative of its arguments to the derivative of its result, as long as nothing is divided by zero.

* `Tangent.Lifts` says that a function on directions has the values and the derivative of a real
  function, as dual numbers.
* It holds of coordinates and constants, and is kept by sums, differences, products and quotients.
-/

namespace DualHessian

/-- Square roots of real numbers. -/
noncomputable instance : SquareRoot ℝ := ⟨Real.sqrt⟩

namespace Tangent

open TrivSqZeroExt DualNumber

variable {E : Type} [NormedAddCommGroup E] [NormedSpace ℝ E] {x : E}

/-- `F h` is the value of `f` at `x` and, in front of `ε`, the derivative of `f` along `h`. -/
def Lifts (f : E → ℝ) (F : E → DualNumber ℝ) (x : E) : Prop :=
  ∃ L : E →L[ℝ] ℝ, HasFDerivAt f L x ∧ ∀ h, F h = inl (f x) + L h • ε

namespace Lifts

/-- Constants do not vary. -/
theorem constant (c : ℝ) : Lifts (fun _ => c) (fun _ => inl c) x :=
  ⟨0, hasFDerivAt_const c x, fun h => by simp⟩

/-- Coordinates vary with their own entry of the direction. -/
theorem coordinate {n : Nat} (x : Fin n → ℝ) (i : Fin n) :
    Lifts (fun w => w i) (fun h => inl (x i) + h i • ε) x :=
  ⟨.proj i, hasFDerivAt_apply i x, fun _ => rfl⟩

variable {f g : E → ℝ} {F G : E → DualNumber ℝ} (hf : Lifts f F x) (hg : Lifts g G x)

include hf hg

/-- The sum rule. -/
theorem add : Lifts (fun w => f w + g w) (fun h => F h + G h) x := by
  obtain ⟨L, hL, hF⟩ := hf
  obtain ⟨M, hM, hG⟩ := hg
  refine ⟨L + M, hL.fun_add hM, fun h => ?_⟩
  ext <;> simp [hF, hG]

/-- The same of differences. -/
theorem sub : Lifts (fun w => f w - g w) (fun h => F h - G h) x := by
  obtain ⟨L, hL, hF⟩ := hf
  obtain ⟨M, hM, hG⟩ := hg
  refine ⟨L - M, hL.fun_sub hM, fun h => ?_⟩
  ext <;> simp [hF, hG]

/-- The product rule. -/
theorem mul : Lifts (fun w => f w * g w) (fun h => F h * G h) x := by
  obtain ⟨L, hL, hF⟩ := hf
  obtain ⟨M, hM, hG⟩ := hg
  refine ⟨f x • M + g x • L, hL.fun_mul hM, fun h => ?_⟩
  ext <;> simp [hF, hG, mul_comm]

/-- The quotient rule, where the divisor does not vanish. -/
theorem div (hx : g x ≠ 0) : Lifts (fun w => f w / g w) (fun h => F h / G h) x := by
  obtain ⟨L, hL, hF⟩ := hf
  obtain ⟨M, hM, hG⟩ := hg
  have hinv := (hasDerivAt_inv hx).comp_hasFDerivAt x hM
  refine ⟨f x • (-(g x ^ 2)⁻¹ • M) + (g x)⁻¹ • L, ?_, fun h => ?_⟩
  · simp only [div_eq_mul_inv]
    exact hL.fun_mul hinv
  · ext
    · simp [hF, hG]
    · simp [hF, hG]
      field_simp
      ring

omit hf hg in
/-- The sum rule for finitely many summands. -/
theorem sum {ι : Type} [Fintype ι] {f : ι → E → ℝ} {F : ι → E → DualNumber ℝ}
    (hf : ∀ i, Lifts (f i) (F i) x) : Lifts (fun w => ∑ i, f i w) (fun h => ∑ i, F i h) x := by
  choose L hL hF using hf
  refine ⟨∑ i, L i, .fun_sum fun i _ => hL i, fun h => ?_⟩
  ext <;> simp [hF, fst_sum, snd_sum]

end Lifts

end Tangent

end DualHessian
