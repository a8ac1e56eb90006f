import Mathlib.Algebra.BigOperators.Field
import Mathlib.Analysis.RCLike.Lemmas
import Mathlib.Data.Matrix.Mul
import Mathlib.LinearAlgebra.Matrix.ToLin
import Mathlib.Topology.Algebra.Module.FiniteDimension
import DualHessian.Proofs.Numbers.Derivative
import DualHessian.Proofs.Physics.Primitive

/-!
# The derivative of the convective flux

The convective flux of inviscid gas dynamics along a normal, and its derivative with respect to the
state. Dual numbers give the derivative as a matrix, one column for each entry of the state. It is
a multiple of the identity and two matrices of rank one: everything is transported with the normal
velocity, mass takes along what it carries, and the pressure pushes along the normal.

* `Gas.normalJacobian` is the derivative, and `Gas.normalJacobian_eq` its three parts.
* `Gas.normalFlux_along` says that it is the derivative in every direction, over any field.
* `Gas.hasFDerivAt_normalFlux` says that over the real numbers it is the Fréchet derivative.
-/

namespace DualHessian

open GasState TrivSqZeroExt DualNumber Tangent Matrix

/-! ## The flux along a normal -/

section Ring

variable {R : Type} [CommRing R] [Div R] {dim : Nat}

/-- The convective flux along a normal. -/
def Gas.normalFlux (gas : Gas R) (u : Vector R (dim + 2)) (normal : Vector R dim) :
    Vector R (dim + 2) :=
  (gas.flux u).map (Column.dot · normal)

variable (gas : Gas R) (u : Vector R (dim + 2)) (normal : Vector R dim)

/-- The flux through a surface, entry by entry. -/
theorem Gas.get_normalFlux (s : Fin (dim + 2)) :
    (gas.normalFlux u normal).get s = ∑ d, ((gas.flux u).get s).get d * normal.get d :=
  (Vector.getElem_map _ s.isLt).trans (Column.dot_eq_sum _ _)

/-- Mass moves with the normal velocity. -/
theorem Gas.get_normalFlux_density : (gas.normalFlux u normal).get densityIndex =
    density u * Column.dot (velocity u) normal := by
  simp [get_normalFlux, Column.dot_eq_sum, Finset.mul_sum, mul_assoc]

/-- Momentum moves with the normal velocity, and the pressure pushes along the normal. -/
theorem Gas.get_normalFlux_momentum (k : Fin dim) :
    (gas.normalFlux u normal).get (momentumIndex k) =
      density u * (velocity u).get k * Column.dot (velocity u) normal +
        gas.pressure u * normal.get k := by
  simp [get_normalFlux, get_flux_momentum, Column.dot_eq_sum, Finset.mul_sum, mul_assoc, add_mul,
    Finset.sum_add_distrib]

/-- Energy and pressure move with the normal velocity. -/
theorem Gas.get_normalFlux_energy : (gas.normalFlux u normal).get energyIndex =
    Column.dot (velocity u) normal * (totalEnergy u + gas.pressure u) := by
  simp [get_normalFlux, Column.dot_eq_sum, Finset.sum_mul, mul_right_comm]

end Ring

/-! ## Its parts -/

section Parts

variable {K : Type} [Field K] {dim : Nat}

/-- The density times the derivative of the normal velocity. -/
def GasState.normalVelocityRow (u : Vector K (dim + 2)) (normal : Vector K dim) :
    Fin (dim + 2) → K :=
  (build (-Column.dot (velocity u) normal) normal.get 0).get

/-- What a unit of pressure pushes along a normal. -/
def GasState.pushed (u : Vector K (dim + 2)) (normal : Vector K dim) : Fin (dim + 2) → K :=
  (build 0 normal.get (Column.dot (velocity u) normal)).get

variable (gas : Gas K) (u : Vector K (dim + 2)) (normal : Vector K dim)

/-- What a unit of mass carries: itself, its velocity and its enthalpy. -/
def Gas.carried : Fin (dim + 2) → K :=
  (build 1 (velocity u).get ((totalEnergy u + gas.pressure u) / density u)).get

/-- The derivative of the pressure. -/
def Gas.pressureRow : Fin (dim + 2) → K :=
  (build ((gas.gamma - 1) * (ratio 1 2 * Column.normSquared (velocity u)))
    (fun k => (gas.gamma - 1) * -(velocity u).get k) (gas.gamma - 1)).get

/-- The row of the pressure is its slope. -/
theorem Gas.pressureRow_dotProduct (h : Vector K (dim + 2)) :
    gas.pressureRow u ⬝ᵥ h.get = gas.pressureSlope u h := by
  have hmomentum : ∑ k, (gas.gamma - 1) * -(velocity u).get k * h.get (momentumIndex k) =
      -(gas.gamma - 1) * ∑ k, h.get (momentumIndex k) * (velocity u).get k := by
    rw [Finset.mul_sum]
    exact Finset.sum_congr rfl fun k _ => by ring
  rw [Gas.pressureSlope, Column.sum_kinetic, dotProduct, sum_entries]
  simp only [Gas.pressureRow, get_build_density, get_build_momentum, get_build_energy, hmomentum]
  ring

/-- The row of the normal velocity is its slope, times the density. -/
theorem GasState.normalVelocityRow_dotProduct (h : Vector K (dim + 2)) :
    normalVelocityRow u normal ⬝ᵥ h.get =
      ∑ d, h.get (momentumIndex d) * normal.get d -
        Column.dot (velocity u) normal * h.get densityIndex := by
  simp only [dotProduct, sum_entries, normalVelocityRow, get_build_density, get_build_momentum,
    get_build_energy, mul_comm]
  ring

/-- The normal velocity of a moving state. -/
theorem GasState.dot_velocity_along (h : Vector K (dim + 2)) :
    Column.dot (velocity (along u h)) (constant normal) = inl (Column.dot (velocity u) normal) +
      (normalVelocityRow u normal ⬝ᵥ h.get / density u) • ε := by
  have hslope : ∑ d, velocitySlope u h d * normal.get d =
      normalVelocityRow u normal ⬝ᵥ h.get / density u := by
    rw [normalVelocityRow_dotProduct, Column.dot_eq_sum, Finset.sum_mul,
      ← Finset.sum_sub_distrib, Finset.sum_div]
    refine Finset.sum_congr rfl fun d _ => ?_
    rw [velocitySlope]
    ring
  rw [Column.dot_eq_sum, Column.dot_eq_sum]
  ext
  · simp [fst_sum]
  · simp [snd_sum, ← hslope, mul_comm]

/-! ## The derivative -/

/-- The derivative of the flux along a normal. Column `t` is what stands in front of `ε` if the
entry `t` of the state moves. -/
def Gas.normalJacobian : Matrix (Fin (dim + 2)) (Fin (dim + 2)) K :=
  .of fun s t =>
    ((gas.dual.normalFlux (along u (.ofFn (Pi.single t 1))) (constant normal)).get s).snd

variable {u} (hchar : ringChar K ≠ 2) (hdensity : density u ≠ 0)

include hchar hdensity

/-- The flux of a moving state. -/
theorem Gas.get_normalFlux_along (h : Vector K (dim + 2)) (s : Fin (dim + 2)) :
    (gas.dual.normalFlux (along u h) (constant normal)).get s =
      inl ((gas.normalFlux u normal).get s) + (Column.dot (velocity u) normal * h.get s +
        gas.carried u s * (normalVelocityRow u normal ⬝ᵥ h.get) +
        pushed u normal s * (gas.pressureRow u ⬝ᵥ h.get)) • ε := by
  have hpressure := gas.pressure_along hchar hdensity h
  have hvelocity := dot_velocity_along u normal h
  have hmass : density u * (normalVelocityRow u normal ⬝ᵥ h.get / density u) =
      normalVelocityRow u normal ⬝ᵥ h.get := mul_div_cancel₀ _ hdensity
  rw [Gas.pressureRow_dotProduct]
  cases s using entry_cases with
  | density =>
    rw [get_normalFlux_density, get_normalFlux_density, density_along, hvelocity, moving_mul]
    congr 2
    simp only [carried, pushed, get_build_density]
    linear_combination hmass
  | momentum k =>
    have hslope := density_mul_velocitySlope h k hdensity
    rw [get_normalFlux_momentum, get_normalFlux_momentum, density_along, get_velocity_along,
      hvelocity, hpressure, get_constant, moving_mul, moving_mul, moving_mul_inl, moving_add]
    congr 2
    simp only [carried, pushed, get_build_momentum]
    linear_combination (velocity u).get k * hmass + Column.dot (velocity u) normal * hslope
  | energy =>
    rw [get_normalFlux_energy, get_normalFlux_energy, totalEnergy_along, hvelocity, hpressure,
      moving_add, moving_mul]
    congr 2
    simp only [carried, pushed, get_build_energy]
    ring

/-- Transport with the normal velocity, what mass carries, and what the pressure pushes. -/
theorem Gas.normalJacobian_eq :
    gas.normalJacobian u normal = scalar (Fin (dim + 2)) (Column.dot (velocity u) normal) +
      (vecMulVec (gas.carried u) (normalVelocityRow u normal) +
        vecMulVec (pushed u normal) (gas.pressureRow u)) := by
  ext s t
  have hunit : (Vector.ofFn (Pi.single t (1 : K))).get = Pi.single t 1 :=
    funext fun i => Column.get_ofFn _ i
  simp [normalJacobian, gas.get_normalFlux_along normal hchar hdensity, hunit, vecMulVec_apply,
    diagonal_apply, Pi.single_apply, add_assoc]

/-- The matrix is the derivative in every direction. -/
theorem Gas.normalFlux_along (h : Vector K (dim + 2)) :
    gas.dual.normalFlux (along u h) (constant normal) =
      along (gas.normalFlux u normal) (.ofFn (gas.normalJacobian u normal *ᵥ h.get)) := by
  refine Column.ext_get fun s => ?_
  rw [gas.get_normalFlux_along normal hchar hdensity, get_along, Column.get_ofFn,
    gas.normalJacobian_eq normal hchar hdensity]
  simp [add_mulVec, vecMulVec_mulVec, add_assoc, mul_comm]

end Parts

/-! ## Over the real numbers -/

section Real

variable {dim : Nat} (gas : Gas ℝ) {u : Vector ℝ (dim + 2)} (normal : Vector ℝ dim)

/-- Entries of a moving state differentiate those of the state. -/
theorem GasState.lifts_entry (i : Fin (dim + 2)) :
    Lifts (fun w => (Vector.ofFn w).get i) (fun h => (along u (.ofFn h)).get i) u.get := by
  simpa using Lifts.coordinate u.get i

variable (hdensity : density u ≠ 0)

include hdensity

/-- So do its velocities, unless the density vanishes. -/
theorem GasState.lifts_velocity (k : Fin dim) : Lifts (fun w => (velocity (.ofFn w)).get k)
    (fun h => (velocity (along u (.ofFn h))).get k) u.get := by
  simp only [get_velocity]
  refine (lifts_entry (momentumIndex k)).div (lifts_entry densityIndex) ?_
  simpa [density] using hdensity

/-- So does its normal velocity. -/
theorem GasState.lifts_dot_velocity : Lifts (fun w => Column.dot (velocity (.ofFn w)) normal)
    (fun h => Column.dot (velocity (along u (.ofFn h))) (constant normal)) u.get := by
  simp only [Column.dot_eq_sum, get_constant]
  exact .sum fun k => (lifts_velocity hdensity k).mul (.constant _)

/-- So does its pressure. -/
theorem Gas.lifts_pressure : Lifts (fun w => gas.pressure (.ofFn w))
    (fun h => gas.dual.pressure (along u (.ofFn h))) u.get := by
  have hhalf : Lifts (fun _ => ratio 1 2) (fun _ => ratio 1 2) u.get := by
    rw [ratio_eq_inl]
    exact .constant _
  have hspeed : Lifts (fun w => ∑ k, (velocity (.ofFn w)).get k * (velocity (.ofFn w)).get k)
      (fun h => ∑ k, (velocity (along u (.ofFn h))).get k *
        (velocity (along u (.ofFn h))).get k) u.get :=
    .sum fun k => (lifts_velocity hdensity k).mul (lifts_velocity hdensity k)
  simp only [Gas.pressure_eq]
  exact ((Lifts.constant gas.gamma).sub (.constant 1)).mul ((lifts_entry energyIndex).sub
    ((hhalf.mul (lifts_entry densityIndex)).mul hspeed))

/-- Every entry of the flux along a normal is differentiated by dual numbers. -/
theorem Gas.lifts_normalFlux (s : Fin (dim + 2)) :
    Lifts (fun w => (gas.normalFlux (.ofFn w) normal).get s)
      (fun h => (gas.dual.normalFlux (along u (.ofFn h)) (constant normal)).get s) u.get := by
  have hdot := lifts_dot_velocity normal hdensity
  have hpressure := gas.lifts_pressure hdensity
  cases s using entry_cases with
  | density =>
    simp only [Gas.get_normalFlux_density]
    exact (lifts_entry densityIndex).mul hdot
  | momentum k =>
    simp only [Gas.get_normalFlux_momentum, get_constant]
    exact (((lifts_entry densityIndex).mul (lifts_velocity hdensity k)).mul hdot).add
      (hpressure.mul (.constant _))
  | energy =>
    simp only [Gas.get_normalFlux_energy]
    exact hdot.mul ((lifts_entry energyIndex).add hpressure)

/-- The flux along a normal is differentiable, and its derivative is the matrix of dual numbers. -/
theorem Gas.hasFDerivAt_normalFlux :
    HasFDerivAt (fun w => (gas.normalFlux (.ofFn w) normal).get)
      (gas.normalJacobian u normal).mulVecLin.toContinuousLinearMap u.get := by
  refine hasFDerivAt_pi'' fun s => ?_
  -- Each entry has a derivative, and dual numbers know its values; so it is a row of the matrix.
  obtain ⟨L, hL, hslope⟩ := gas.lifts_normalFlux normal hdensity s
  have hrow : (ContinuousLinearMap.proj s).comp
      (gas.normalJacobian u normal).mulVecLin.toContinuousLinearMap = L := by
    refine ContinuousLinearMap.ext fun h => ?_
    have hdirection : (Vector.ofFn h).get = h := funext fun i => Column.get_ofFn h i
    have hentry := hslope h
    beta_reduce at hentry
    rw [gas.normalFlux_along normal (by simp) hdensity, get_along, Column.get_ofFn,
      hdirection] at hentry
    simpa using congrArg snd hentry
  exact hrow ▸ hL

end Real

end DualHessian
