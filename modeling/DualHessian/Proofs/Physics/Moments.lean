import Mathlib.Analysis.SpecialFunctions.Integrals.Basic
import Mathlib.MeasureTheory.Integral.Pi
import DualHessian.Proofs.Physics.Manufactured

/-!
# Integrals of manufactured solutions

The integral over the unit cube of a manufactured solution, or of its square, is computed in closed
form from the first two moments of the product of sines. With the true sine and cosine, and
frequencies that do not vanish, this is the integral.

* `IntegratesTo` says that a function is integrable over the unit cube and what its integral is.
* `setIntegral_cube_prod` is the integral of a product of functions of one coordinate each.
* `Manufactured.setIntegral_sineProduct` and `Manufactured.setIntegral_sineProduct_sq` are the
  moments.
* `Manufactured.integral_exact` says that the closed form is the integral, and that it exists.
-/

namespace DualHessian

open MeasureTheory Real

/-- Sine and cosine of real numbers. -/
noncomputable instance : Trigonometry ℝ := ⟨Real.sin, Real.cos⟩

/-- The integral of a function over the unit cube exists and is `a`. -/
def IntegratesTo {n : Nat} (f : (Fin n → ℝ) → ℝ) (a : ℝ) : Prop :=
  IntegrableOn f (Set.Icc 0 1) ∧ ∫ x in Set.Icc 0 1, f x = a

/-! ## One coordinate at a time -/

/-- A product of functions of one coordinate each is integrated in one direction at a time. -/
theorem setIntegral_cube_prod {n : Nat} (f : Fin n → ℝ → ℝ) :
    ∫ x in Set.Icc (0 : Fin n → ℝ) 1, ∏ d, f d (x d) = ∏ d, ∫ t in (0 : ℝ)..1, f d t := by
  -- The cube is a product of intervals, so its measure is a product of theirs.
  have hcube : (volume : Measure (Fin n → ℝ)).restrict (Set.Icc 0 1) =
      .pi fun _ => volume.restrict (Set.Icc 0 1) := by
    rw [volume_pi, ← Measure.restrict_pi_pi, Set.pi_univ_Icc]
    rfl
  rw [hcube, integral_fintype_prod_eq_prod]
  refine Finset.prod_congr rfl fun d _ => ?_
  rw [integral_Icc_eq_integral_Ioc, intervalIntegral.integral_of_le zero_le_one]

/-- The integral of a sine over the unit interval. -/
theorem integral_sine {a : ℝ} (ha : a ≠ 0) (b : ℝ) :
    ∫ t in (0 : ℝ)..1, Real.sin (a * t + b) = (Real.cos b - Real.cos (a + b)) / a := by
  rw [intervalIntegral.integral_comp_mul_add _ ha, integral_sin, mul_zero, zero_add, mul_one,
    smul_eq_mul, div_eq_inv_mul]

/-- The integral of its square, by doubling the angle. -/
theorem integral_sine_sq {a : ℝ} (ha : a ≠ 0) (b : ℝ) :
    ∫ t in (0 : ℝ)..1, Real.sin (a * t + b) ^ 2 =
      1 / 2 - (Real.sin (2 * (a + b)) - Real.sin (2 * b)) / (4 * a) := by
  rw [intervalIntegral.integral_comp_mul_add (fun t => Real.sin t ^ 2) ha, integral_sin_sq,
    mul_zero, zero_add, mul_one, smul_eq_mul, sin_two_mul, sin_two_mul]
  -- Both sides speak of the angles at the two ends only.
  field_simp
  ring

/-! ## Moments -/

namespace Manufactured

variable {dim states : Nat} (u : Manufactured ℝ dim states)

/-- The product of sines at a point of the cube. -/
theorem sineProduct_ofFn (x : Fin dim → ℝ) : u.sineProduct (.ofFn x) =
    ∏ d, Real.sin (u.frequencies.get d * x d + u.offsets.get d) := by
  simp only [sineProduct_eq, get_phases, Column.get_ofFn]
  rfl

/-- The product of sines is continuous. -/
theorem continuous_sineProduct : Continuous fun x : Fin dim → ℝ => u.sineProduct (.ofFn x) := by
  simp only [sineProduct_ofFn]
  fun_prop

/-- The sum of the states as a function of the product of sines. -/
theorem sum_value (x : Vector ℝ dim) : ∑ s, (u.value x).get s =
    ∑ s, u.base.get s + (∑ s, u.amplitude.get s) * u.sineProduct x := by
  simp only [get_value, Finset.sum_add_distrib, Finset.sum_mul]

/-- The sum of the squared states as a function of the product of sines. -/
theorem sum_value_sq (x : Vector ℝ dim) : ∑ s, (u.value x).get s ^ 2 =
    ∑ s, u.base.get s ^ 2 + (∑ s, 2 * u.base.get s * u.amplitude.get s) * u.sineProduct x +
      (∑ s, u.amplitude.get s ^ 2) * u.sineProduct x ^ 2 := by
  simp only [Finset.sum_mul, ← Finset.sum_add_distrib, get_value]
  exact Finset.sum_congr rfl fun s _ => by ring

/-- The closed form adds up over the states what they contribute. -/
theorem integral_eq_sum (linear : Bool) : u.integral linear = ∑ s,
    if linear then u.base.get s + u.amplitude.get s * u.firstMoment
    else u.base.get s * u.base.get s + 2 * u.base.get s * u.amplitude.get s * u.firstMoment +
      u.amplitude.get s * u.amplitude.get s * u.secondMoment := by
  have hfold : ∀ f : Fin states → ℝ,
      (List.finRange states).foldl (fun total s => total + f s) 0 = ∑ s, f s := by
    intro f
    rw [← List.foldl_map, ← List.sum_eq_foldl, ← Fin.sum_univ_def]
  rw [integral, hfold]
  simp [whole]

/-- The linear functional needs the first moment only. -/
theorem integral_true :
    u.integral true = ∑ s, u.base.get s + (∑ s, u.amplitude.get s) * u.firstMoment := by
  simp only [integral_eq_sum, if_true, Finset.sum_add_distrib, Finset.sum_mul]

/-- The quadratic functional needs both moments. -/
theorem integral_false : u.integral false =
    ∑ s, u.base.get s ^ 2 + (∑ s, 2 * u.base.get s * u.amplitude.get s) * u.firstMoment +
      (∑ s, u.amplitude.get s ^ 2) * u.secondMoment := by
  simp [integral_eq_sum, Finset.sum_add_distrib, Finset.sum_mul, sq]

/-- The first moment is a product of integrals of sines. -/
theorem firstMoment_eq_prod : u.firstMoment = ∏ d,
    (Real.cos (u.offsets.get d) - Real.cos (u.frequencies.get d + u.offsets.get d)) /
      u.frequencies.get d := by
  rw [firstMoment, foldl_mul_eq, one_mul, ← Fin.prod_univ_def]
  rfl

/-- The second moment is a product of integrals of squared sines. -/
theorem secondMoment_eq_prod : u.secondMoment = ∏ d,
    (1 / 2 - (Real.sin (2 * (u.frequencies.get d + u.offsets.get d)) -
      Real.sin (2 * u.offsets.get d)) / (4 * u.frequencies.get d)) := by
  rw [secondMoment, foldl_mul_eq, one_mul, ← Fin.prod_univ_def]
  simp [ratio, whole]
  rfl

variable {u} (hfrequencies : ∀ d, u.frequencies.get d ≠ 0)

include hfrequencies

/-- The first moment is the integral of the product of sines over the cube. -/
theorem setIntegral_sineProduct :
    ∫ x in Set.Icc (0 : Fin dim → ℝ) 1, u.sineProduct (.ofFn x) = u.firstMoment := by
  simp only [sineProduct_ofFn]
  rw [setIntegral_cube_prod (fun d t => Real.sin (u.frequencies.get d * t + u.offsets.get d)),
    firstMoment_eq_prod]
  exact Finset.prod_congr rfl fun d _ => integral_sine (hfrequencies d) _

/-- The second moment is the integral of its square. -/
theorem setIntegral_sineProduct_sq :
    ∫ x in Set.Icc (0 : Fin dim → ℝ) 1, u.sineProduct (.ofFn x) ^ 2 = u.secondMoment := by
  simp only [sineProduct_ofFn, ← Finset.prod_pow]
  rw [setIntegral_cube_prod (fun d t => Real.sin (u.frequencies.get d * t + u.offsets.get d) ^ 2),
    secondMoment_eq_prod]
  exact Finset.prod_congr rfl fun d _ => integral_sine_sq (hfrequencies d) _

/-- A quadratic function of the product of sines is integrated by its moments. -/
theorem integratesTo_quadratic (c b a : ℝ) :
    IntegratesTo (fun x : Fin dim → ℝ =>
        c + b * u.sineProduct (.ofFn x) + a * u.sineProduct (.ofFn x) ^ 2)
      (c + b * u.firstMoment + a * u.secondMoment) := by
  have hcontinuous := u.continuous_sineProduct
  have hlinear : IntegrableOn (fun x : Fin dim → ℝ => b * u.sineProduct (.ofFn x))
      (Set.Icc 0 1) := (continuous_const.mul hcontinuous).integrableOn_Icc
  have hsum : IntegrableOn (fun x : Fin dim → ℝ => c + b * u.sineProduct (.ofFn x))
      (Set.Icc 0 1) := (continuous_const.add (continuous_const.mul hcontinuous)).integrableOn_Icc
  have hquadratic : IntegrableOn (fun x : Fin dim → ℝ => a * u.sineProduct (.ofFn x) ^ 2)
      (Set.Icc 0 1) := (continuous_const.mul (hcontinuous.pow 2)).integrableOn_Icc
  have hvolume : volume.real (Set.Icc (0 : Fin dim → ℝ) 1) = 1 := by
    simp [measureReal_def, Real.volume_Icc_pi]
  refine ⟨hsum.add hquadratic, ?_⟩
  rw [integral_add hsum hquadratic, integral_add continuous_const.integrableOn_Icc hlinear,
    setIntegral_const, hvolume, one_smul, integral_const_mul, integral_const_mul,
    setIntegral_sineProduct hfrequencies, setIntegral_sineProduct_sq hfrequencies]

/-- The closed form is the integral over the unit cube of the sum of the states, and that of the sum
of their squares. -/
theorem integral_exact :
    IntegratesTo (fun x => ∑ s, (u.value (.ofFn x)).get s) (u.integral true) ∧
      IntegratesTo (fun x => ∑ s, (u.value (.ofFn x)).get s ^ 2) (u.integral false) := by
  -- The sum of the states is the case in which nothing is quadratic.
  have hlinear := integratesTo_quadratic hfrequencies (∑ s, u.base.get s)
    (∑ s, u.amplitude.get s) 0
  have hsquares := integratesTo_quadratic hfrequencies (∑ s, u.base.get s ^ 2)
    (∑ s, 2 * u.base.get s * u.amplitude.get s) (∑ s, u.amplitude.get s ^ 2)
  simp only [zero_mul, add_zero] at hlinear
  simp only [sum_value, sum_value_sq, integral_true, integral_false]
  exact ⟨hlinear, hsquares⟩

end Manufactured

/-- Half a wave in each of two directions, on top of one. -/
noncomputable def bump : Manufactured ℝ 2 1 := ⟨#v[π, π], #v[0, 0], #v[1], #v[1]⟩

/-- The product of sines has mean `(2 / π) ^ 2`, and its square has mean `1 / 4`. -/
theorem Manufactured.integral_exact_bump : (∀ d, bump.frequencies.get d ≠ 0) ∧
    IntegratesTo (fun x => ∑ s, (bump.value (.ofFn x)).get s) (1 + (2 / π) ^ 2) ∧
    IntegratesTo (fun x => ∑ s, (bump.value (.ofFn x)).get s ^ 2)
      (1 + 2 * (2 / π) ^ 2 + (1 / 2) ^ 2) := by
  have hfrequency : ∀ d, bump.frequencies.get d = π := by
    intro d
    fin_cases d <;> rfl
  have hoffset : ∀ d, bump.offsets.get d = 0 := by
    intro d
    fin_cases d <;> rfl
  have hbase : ∀ s, bump.base.get s = 1 := by
    intro s
    fin_cases s
    rfl
  have hamplitude : ∀ s, bump.amplitude.get s = 1 := by
    intro s
    fin_cases s
    rfl
  have hne : ∀ d, bump.frequencies.get d ≠ 0 := fun d => hfrequency d ▸ pi_ne_zero
  have hfirst : bump.firstMoment = (2 / π) ^ 2 := by
    have hfactor : (Real.cos 0 - Real.cos (π + 0)) / π = 2 / π := by
      rw [add_zero, cos_zero, cos_pi]
      norm_num
    simp only [firstMoment_eq_prod, hfrequency, hoffset, hfactor, Finset.prod_const,
      Finset.card_univ, Fintype.card_fin]
  have hsecond : bump.secondMoment = (1 / 2) ^ 2 := by
    have hfactor : 1 / 2 - (Real.sin (2 * (π + 0)) - Real.sin (2 * 0)) / (4 * π) = 1 / 2 := by
      rw [add_zero, sin_two_pi, mul_zero, sin_zero, sub_zero, zero_div, sub_zero]
    simp only [secondMoment_eq_prod, hfrequency, hoffset, hfactor, Finset.prod_const,
      Finset.card_univ, Fintype.card_fin]
  have hlinear : bump.integral true = 1 + (2 / π) ^ 2 := by
    simp [integral_true, hbase, hamplitude, hfirst]
  have hsquares : bump.integral false = 1 + 2 * (2 / π) ^ 2 + (1 / 2) ^ 2 := by
    simp [integral_false, hbase, hamplitude, hfirst, hsecond]
  obtain ⟨hsum, hsumSquares⟩ := Manufactured.integral_exact hne
  exact ⟨hne, hlinear ▸ hsum, hsquares ▸ hsumSquares⟩

end DualHessian
