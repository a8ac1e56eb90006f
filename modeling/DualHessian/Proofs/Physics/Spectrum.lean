import Mathlib.LinearAlgebra.Matrix.Charpoly.Coeff
import DualHessian.Proofs.Physics.Jacobian

/-!
# The spectrum of the convective flux

The eigenvalues of inviscid gas dynamics along a normal are the roots of the characteristic
polynomial of the derivative of the flux: the normal velocity, once for each direction of space, and
two acoustic ones. The derivative is a multiple of the identity up to two matrices of rank one, so
only a determinant with two rows is left to compute.

* `charpoly_scalar_add_vecMulVec` is the characteristic polynomial of such a matrix.
* `Gas.charpoly_normalJacobian` is that of the derivative, over any field.
* `Gas.charpoly_eq_prod_eigenvalues` compares its roots with the eigenvalues over the real numbers.
-/

namespace DualHessian

open GasState TrivSqZeroExt DualNumber Tangent Matrix Polynomial

/-! ## The characteristic polynomial -/

/-- A multiple of the identity and two matrices of rank one that square to zero. What is left of
them is how the row of each acts on the column of the other. -/
theorem charpoly_scalar_add_vecMulVec {R : Type} [CommRing R] [Nontrivial R] {n : Nat} (a : R)
    {x y z w : Fin (n + 2) → R} (hxy : y ⬝ᵥ x = 0) (hzw : w ⬝ᵥ z = 0) :
    (scalar (Fin (n + 2)) a + (vecMulVec x y + vecMulVec z w)).charpoly =
      (X - C a) ^ n * ((X - C a) ^ 2 - C ((y ⬝ᵥ z) * (w ⬝ᵥ x))) := by
  have hproduct : vecMulVec x y + vecMulVec z w = (of ![x, z])ᵀ * of ![y, w] := by
    ext i j
    simp [mul_apply, vecMulVec_apply, Fin.sum_univ_two]
  have hswapped : of ![y, w] * (of ![x, z])ᵀ = !![0, y ⬝ᵥ z; w ⬝ᵥ x, 0] := by
    ext i j
    rw [mul_apply']
    fin_cases i <;> fin_cases j
    · exact hxy
    · rfl
    · rfl
    · exact hzw
  -- The two factors in the other order make a matrix with two rows, whatever their size was.
  have hshift : scalar (Fin (n + 2)) a + (vecMulVec x y + vecMulVec z w) =
      (of ![x, z])ᵀ * of ![y, w] - scalar (Fin (n + 2)) (-a) := by
    rw [hproduct, map_neg, sub_neg_eq_add, add_comm (scalar (Fin (n + 2)) a)]
  rw [hshift, charpoly_sub_scalar, charpoly_mul_comm_of_le _ _ (by simp), hswapped,
    charpoly_fin_two]
  simp [det_fin_two, sub_eq_add_neg]

section Field

variable {K : Type} [Field K] {dim : Nat} (gas : Gas K) (u : Vector K (dim + 2))
  (normal : Vector K dim)

/-- Mass that is carried along does not change the velocity. -/
theorem Gas.normalVelocityRow_carried : normalVelocityRow u normal ⬝ᵥ gas.carried u = 0 := by
  simp [dotProduct, sum_entries, normalVelocityRow, Gas.carried, Column.dot_eq_sum, mul_comm]

/-- What the pressure pushes does not change the pressure. -/
theorem Gas.pressureRow_pushed : gas.pressureRow u ⬝ᵥ pushed u normal = 0 := by
  simp [dotProduct, sum_entries, Gas.pressureRow, pushed, Column.dot_eq_sum, Finset.mul_sum,
    mul_assoc]

theorem GasState.normalVelocityRow_pushed :
    normalVelocityRow u normal ⬝ᵥ pushed u normal = Column.normSquared normal := by
  simp [dotProduct, sum_entries, normalVelocityRow, pushed, Column.normSquared_eq_sum]

/-- The pressure grows with the mass that is carried along by the squared speed of sound. -/
theorem Gas.pressureRow_carried (hchar : ringChar K ≠ 2) (hdensity : density u ≠ 0) :
    gas.pressureRow u ⬝ᵥ gas.carried u = gas.gamma * gas.pressure u / density u := by
  have hwork : ∑ k, (gas.gamma - 1) * -(velocity u).get k * (velocity u).get k =
      -(gas.gamma - 1) * Column.normSquared (velocity u) := by
    simp only [Column.normSquared_eq_sum, Finset.mul_sum]
    exact Finset.sum_congr rfl fun k _ => by ring
  have hpressure : gas.pressure u = (gas.gamma - 1) *
      (totalEnergy u - ratio 1 2 * density u * Column.normSquared (velocity u)) := rfl
  simp only [dotProduct, sum_entries, Gas.pressureRow, Gas.carried, get_build_density,
    get_build_momentum, get_build_energy, hwork]
  field_simp
  linear_combination -hpressure +
    (gas.gamma - 1) * Column.normSquared (velocity u) * density u * two_mul_half hchar

/-- The characteristic polynomial of the derivative of the flux along a normal. -/
theorem Gas.charpoly_normalJacobian (hchar : ringChar K ≠ 2) (hdensity : density u ≠ 0) :
    (gas.normalJacobian u normal).charpoly = (X - C (Column.dot (velocity u) normal)) ^ dim *
      ((X - C (Column.dot (velocity u) normal)) ^ 2 -
        C (Column.normSquared normal * (gas.gamma * gas.pressure u / density u))) := by
  rw [gas.normalJacobian_eq normal hchar hdensity,
    charpoly_scalar_add_vecMulVec _ (gas.normalVelocityRow_carried u normal)
      (gas.pressureRow_pushed u normal),
    normalVelocityRow_pushed, gas.pressureRow_carried u hchar hdensity]

/-- The polynomial whose roots are the eigenvalues. -/
theorem Gas.prod_eigenvalues [SquareRoot K] :
    ∏ s, (X - C ((gas.eigenvalues u normal).get s)) =
      (X - C (Column.dot (velocity u) normal)) ^ dim *
        (X - C (Column.dot (velocity u) normal) + C (gas.sound u * Column.norm normal)) *
        (X - C (Column.dot (velocity u) normal) - C (gas.sound u * Column.norm normal)) := by
  rw [prod_entries]
  simp only [Gas.eigenvalues, get_build_density, get_build_momentum, get_build_energy,
    Finset.prod_const, Finset.card_univ, Fintype.card_fin, C_sub, C_add]
  ring

end Field

/-! ## The eigenvalues -/

theorem Column.normSquared_nonneg {K : Type} [Field K] [LinearOrder K] [IsStrictOrderedRing K]
    {n : Nat} (a : Vector K n) : 0 ≤ normSquared a := by
  rw [normSquared_eq_sum]
  exact Finset.sum_nonneg fun i _ => mul_self_nonneg _

variable {dim : Nat} (gas : Gas ℝ) {u : Vector ℝ (dim + 2)} (normal : Vector ℝ dim)

/-- The square of the acoustic speed, which exists where its root is taken of a positive number. -/
theorem Gas.acoustic_sq (hsound : 0 ≤ gas.gamma * gas.pressure u / density u) :
    (gas.sound u * Column.norm normal) ^ 2 =
      Column.normSquared normal * (gas.gamma * gas.pressure u / density u) := by
  rw [mul_pow, mul_comm]
  exact congrArg₂ (· * ·) (Real.sq_sqrt (Column.normSquared_nonneg normal)) (Real.sq_sqrt hsound)

/-- Where the density does not vanish and the squared speed of sound is not negative, the matrix of
the dual numbers is the derivative of the convective flux along a normal, and its eigenvalues with
their multiplicities are those that are computed. -/
theorem Gas.charpoly_eq_prod_eigenvalues (hdensity : density u ≠ 0)
    (hsound : 0 ≤ gas.gamma * gas.pressure u / density u) :
    HasFDerivAt (fun w => (gas.normalFlux (.ofFn w) normal).get)
        (gas.normalJacobian u normal).mulVecLin.toContinuousLinearMap u.get ∧
      (∀ h, gas.dual.normalFlux (along u h) (constant normal) =
        along (gas.normalFlux u normal) (.ofFn (gas.normalJacobian u normal *ᵥ h.get))) ∧
      (gas.normalJacobian u normal).charpoly =
        ∏ s, (X - C ((gas.eigenvalues u normal).get s)) ∧
      (gas.normalJacobian u normal).charpoly =
        (X - C (Column.dot (velocity u) normal)) ^ dim *
          (X - C (Column.dot (velocity u) normal) + C (gas.sound u * Column.norm normal)) *
          (X - C (Column.dot (velocity u) normal) - C (gas.sound u * Column.norm normal)) := by
  have hchar : ringChar ℝ ≠ 2 := by simp
  have hcharpoly : (gas.normalJacobian u normal).charpoly =
      (X - C (Column.dot (velocity u) normal)) ^ dim *
        (X - C (Column.dot (velocity u) normal) + C (gas.sound u * Column.norm normal)) *
        (X - C (Column.dot (velocity u) normal) - C (gas.sound u * Column.norm normal)) := by
    rw [gas.charpoly_normalJacobian u normal hchar hdensity, ← gas.acoustic_sq normal hsound,
      C_pow, sq_sub_sq, mul_assoc]
  exact ⟨gas.hasFDerivAt_normalFlux normal hdensity, gas.normalFlux_along normal hchar hdensity,
    hcharpoly.trans (gas.prod_eigenvalues u normal).symm, hcharpoly⟩

/-- A gas of particles that move in a plane. -/
noncomputable def planarGas : Gas ℝ := ⟨whole 2⟩

/-- A state of that gas with velocity `(1, 2)` and pressure 4. -/
noncomputable def breeze : Vector ℝ (2 + 2) := #v[whole 2, whole 2, whole 4, whole 9]

theorem velocity_breeze : velocity breeze = #v[1, 2] := by
  have hdensity : density breeze = 2 := rfl
  refine Column.ext_get fun k => ?_
  rw [get_velocity, hdensity]
  fin_cases k
  · exact div_self two_ne_zero
  · exact (div_eq_iff two_ne_zero).2 (by norm_num : (4 : ℝ) = 2 * 2)

/-- The squared speed of sound. -/
theorem soundSquared_breeze :
    planarGas.gamma * planarGas.pressure breeze / density breeze = 2 ^ 2 := by
  have hgamma : planarGas.gamma = 2 := rfl
  have hdensity : density breeze = 2 := rfl
  have henergy : totalEnergy breeze = 9 := rfl
  have hpressure : planarGas.pressure breeze = 4 := by
    rw [Gas.pressure_eq, hdensity, henergy, velocity_breeze, hgamma]
    norm_num [Fin.sum_univ_two, Vector.get, ratio, whole]
  rw [hgamma, hpressure, hdensity]
  norm_num

theorem sound_breeze : planarGas.sound breeze = 2 :=
  (congrArg Real.sqrt soundSquared_breeze).trans (Real.sqrt_sq zero_le_two)

/-- The speed of sound is 2, and along the normal `(3, 4)` of length 5 the velocity is 11. -/
theorem Gas.charpoly_eq_prod_eigenvalues_breeze : density breeze ≠ 0 ∧
    0 ≤ planarGas.gamma * planarGas.pressure breeze / density breeze ∧
    (planarGas.normalJacobian breeze #v[3, 4]).charpoly =
      (X - C 11) ^ 2 * (X - C 11 + C 10) * (X - C 11 - C 10) := by
  have hnormal : Column.norm (#v[3, 4] : Vector ℝ 2) = 5 := by
    have hnormSquared : Column.normSquared (#v[3, 4] : Vector ℝ 2) = 5 ^ 2 := by
      rw [Column.normSquared_eq_sum]
      norm_num [Fin.sum_univ_two, Vector.get]
    exact (congrArg Real.sqrt hnormSquared).trans (Real.sqrt_sq (by norm_num))
  have halong : Column.dot (velocity breeze) #v[3, 4] = 11 := by
    rw [velocity_breeze, Column.dot_eq_sum]
    norm_num [Fin.sum_univ_two, Vector.get]
  have hne : density breeze ≠ 0 := by
    have hdensity : density breeze = 2 := rfl
    exact hdensity ▸ two_ne_zero
  have hnonneg : 0 ≤ planarGas.gamma * planarGas.pressure breeze / density breeze :=
    soundSquared_breeze ▸ sq_nonneg 2
  obtain ⟨-, -, -, hcharpoly⟩ :=
    Gas.charpoly_eq_prod_eigenvalues planarGas #v[3, 4] hne hnonneg
  rw [halong, sound_breeze, hnormal] at hcharpoly
  exact ⟨hne, hnonneg, hcharpoly.trans (by norm_num)⟩

end DualHessian
