import Mathlib.Algebra.BigOperators.Field
import Mathlib.LinearAlgebra.Matrix.Trace
import Mathlib.LinearAlgebra.UnitaryGroup
import Mathlib.Tactic.FieldSimp
import DualHessian.Proofs.Numbers.Exact
import DualHessian.Proofs.Physics.GasState

/-!
# Gas dynamics in rotated axes

An orthogonal matrix turns the axes of space. It acts on the momentum of a gas state and on the
columns of fluxes and gradients, and leaves density and energy as they are. Gas dynamics does not
depend on the axes: its fluxes turn with them, and its scalars stay.

* `GasState.rotation` is the action on the entries of a state; `Column.transform` and
  `Flux.transform` apply matrices to columns and to fluxes.
* `Model.SymmetricUnder` says that a conservation law is the same in transformed axes.
* `ViscousGas.rotation_invariant` proves it of inviscid and of viscous gas dynamics.
-/

namespace DualHessian

open GasState Matrix

/-! ## Matrices acting on columns and fluxes -/

section Transform

variable {K : Type} {m n dim states : Nat}

/-- The entries of a flux as a matrix. -/
def Flux.toMatrix (F : Flux K dim states) : Matrix (Fin states) (Fin dim) K :=
  .of fun s d => (F.get s).get d

/-- A flux is known by its entries. -/
theorem Flux.toMatrix_injective : Function.Injective (toMatrix : Flux K dim states → _) :=
  fun _ _ h => Flux.ext_get fun s d => congrFun (congrFun h s) d

/-- The entries of the matrix are those of the flux. -/
@[simp] theorem Flux.toMatrix_apply (F : Flux K dim states) (s : Fin states) (d : Fin dim) :
    F.toMatrix s d = (F.get s).get d := rfl

variable [Field K]

/-- A matrix times a column. -/
def Column.transform (Q : Matrix (Fin m) (Fin n) K) (a : Vector K n) : Vector K m :=
  .ofFn (Q *ᵥ a.get)

/-- A flux whose states and directions are transformed. -/
def Flux.transform (R : Matrix (Fin states) (Fin states) K) (Q : Matrix (Fin dim) (Fin dim) K)
    (F : Flux K dim states) : Flux K dim states :=
  .build fun s d => (R * F.toMatrix * Qᵀ) s d

/-- The transformed column is the product of matrix and column. -/
theorem Column.get_transform (Q : Matrix (Fin m) (Fin n) K) (a : Vector K n) :
    (transform Q a).get = Q *ᵥ a.get :=
  funext fun _ => Column.get_ofFn _ _

/-- The transformed flux is the product with a matrix on either side. -/
theorem Flux.toMatrix_transform (R : Matrix (Fin states) (Fin states) K)
    (Q : Matrix (Fin dim) (Fin dim) K) (F : Flux K dim states) :
    (transform R Q F).toMatrix = R * F.toMatrix * Qᵀ := by
  ext s d
  exact Flux.get_build _ s d

/-- A row of a transformed flux. -/
theorem Flux.get_transform (R : Matrix (Fin states) (Fin states) K)
    (Q : Matrix (Fin dim) (Fin dim) K) (F : Flux K dim states) (s : Fin states) :
    ((transform R Q F).get s).get = Q *ᵥ fun d => (R *ᵥ fun t => (F.get t).get d) s := by
  funext d
  have hentry : ((transform R Q F).get s).get d = (R * F.toMatrix * Qᵀ) s d :=
    Flux.get_build _ s d
  rw [hentry, mul_apply]
  simp only [mulVec, dotProduct, transpose_apply, mul_apply, toMatrix_apply, mul_comm]

/-- The zero flux stays the zero flux. -/
theorem Flux.transform_zero (R : Matrix (Fin states) (Fin states) K)
    (Q : Matrix (Fin dim) (Fin dim) K) : transform R Q Flux.zero = Flux.zero := by
  have hzero : (Flux.zero : Flux K dim states).toMatrix = 0 := by
    ext s d
    exact Flux.get_zero s d
  refine Flux.toMatrix_injective ?_
  rw [toMatrix_transform, hzero, Matrix.mul_zero, Matrix.zero_mul]

end Transform

/-! ## Rotated gas states -/

namespace GasState

variable {K : Type} [Field K] {dim : Nat} (Q : Matrix (Fin dim) (Fin dim) K)

/-- The matrix that acts on the momentum and leaves density and energy alone. -/
def rotation : Matrix (Fin (dim + 2)) (Fin (dim + 2)) K :=
  .of (build (Pi.single densityIndex 1) (fun k => (build 0 (Q k) 0).get)
    (Pi.single energyIndex 1)).get

section Rows

variable (w : Fin (dim + 2) → K)

/-- The density does not turn. -/
@[simp] theorem rotation_mulVec_density : (rotation Q *ᵥ w) densityIndex = w densityIndex := by
  simp [rotation, mulVec, dotProduct, Pi.single_apply]

/-- The energy does not turn. -/
@[simp] theorem rotation_mulVec_energy : (rotation Q *ᵥ w) energyIndex = w energyIndex := by
  simp [rotation, mulVec, dotProduct, Pi.single_apply]

/-- The momenta turn as a vector. -/
@[simp] theorem rotation_mulVec_momentum (k : Fin dim) :
    (rotation Q *ᵥ w) (momentumIndex k) = (Q *ᵥ fun l => w (momentumIndex l)) k := by
  simp [rotation, mulVec, dotProduct, sum_entries]

end Rows

variable (u : Vector K (dim + 2))

/-- A rotated state has the same density. -/
@[simp] theorem density_transform : density (Column.transform (rotation Q) u) = density u := by
  rw [density, Column.get_transform, rotation_mulVec_density, density]

/-- A rotated state has the same energy. -/
@[simp] theorem totalEnergy_transform :
    totalEnergy (Column.transform (rotation Q) u) = totalEnergy u := by
  rw [totalEnergy, Column.get_transform, rotation_mulVec_energy, totalEnergy]

/-- The velocity turns. -/
@[simp] theorem velocity_transform :
    velocity (Column.transform (rotation Q) u) = Column.transform Q (velocity u) := by
  refine Column.ext_get fun k => ?_
  rw [get_velocity, density_transform, Column.get_transform, Column.get_transform,
    rotation_mulVec_momentum]
  simp only [mulVec, dotProduct, get_velocity, Finset.sum_div, mul_div_assoc]

section Fluxes

variable (F : Flux K dim (dim + 2))

/-- The rows of the momentum. -/
def momentumRows : Matrix (Fin dim) (Fin dim) K := .of fun k d => (F.get (momentumIndex k)).get d

/-- The flux of mass turns as a vector. -/
@[simp] theorem get_transform_density :
    ((Flux.transform (rotation Q) Q F).get densityIndex).get = Q *ᵥ (F.get densityIndex).get := by
  simp [Flux.get_transform]

/-- The flux of energy turns as a vector. -/
@[simp] theorem get_transform_energy :
    ((Flux.transform (rotation Q) Q F).get energyIndex).get = Q *ᵥ (F.get energyIndex).get := by
  simp [Flux.get_transform]

/-- The flux of momentum turns as a matrix. -/
@[simp] theorem momentumRows_transform :
    momentumRows (Flux.transform (rotation Q) Q F) = Q * momentumRows F * Qᵀ := by
  ext k d
  simp only [momentumRows, of_apply, Flux.get_transform, rotation_mulVec_momentum]
  simp only [mulVec, dotProduct, mul_apply, transpose_apply, of_apply, mul_comm]

omit [Field K] in
/-- Two fluxes are the same if density, momentum and energy are carried alike. -/
theorem flux_ext {F G : Flux K dim (dim + 2)}
    (hdensity : (F.get densityIndex).get = (G.get densityIndex).get)
    (hmomentum : momentumRows F = momentumRows G)
    (henergy : (F.get energyIndex).get = (G.get energyIndex).get) : F = G := by
  refine Flux.ext_get fun s d => ?_
  cases s using entry_cases with
  | density => exact congrFun hdensity d
  | momentum k => exact congrFun (congrFun hmomentum k) d
  | energy => exact congrFun henergy d

end Fluxes

end GasState

variable {K : Type} [Field K] {dim : Nat}

/-! ## Inner products -/

section Inner

variable {Q : Matrix (Fin dim) (Fin dim) K} (hQ : Q * Qᵀ = 1)

include hQ

/-- Rotations keep dot products. -/
theorem Column.dot_transform (a b : Vector K dim) :
    Column.dot (Column.transform Q a) (Column.transform Q b) = Column.dot a b := by
  have hturn : (Q *ᵥ a.get) ⬝ᵥ (Q *ᵥ b.get) = a.get ⬝ᵥ b.get := by
    rw [dotProduct_mulVec, ← mulVec_transpose, mulVec_mulVec, mul_eq_one_comm.1 hQ,
      one_mulVec]
  rw [Column.dot_eq_sum, Column.dot_eq_sum, Column.get_transform, Column.get_transform]
  exact hturn

/-- A rotated matrix acts on a rotated vector as before, and then the result turns. -/
theorem transpose_conj_mulVec (M : Matrix (Fin dim) (Fin dim) K) (v : Fin dim → K) :
    (Q * M * Qᵀ)ᵀ *ᵥ (Q *ᵥ v) = Q *ᵥ (Mᵀ *ᵥ v) := by
  have hcancel : Qᵀ * Q = 1 := mul_eq_one_comm.1 hQ
  simp only [transpose_mul, transpose_transpose, mulVec_mulVec, mul_assoc, hcancel, mul_one]

/-- Rotations keep norms. -/
theorem Column.norm_transform [SquareRoot K] (a : Vector K dim) :
    Column.norm (Column.transform Q a) = Column.norm a :=
  congrArg sqrt (Column.dot_transform hQ a a)

/-- The pressure does not depend on the direction of the motion. -/
theorem Gas.pressure_transform (gas : Gas K) (u : Vector K (dim + 2)) :
    gas.pressure (Column.transform (rotation Q) u) = gas.pressure u := by
  simp only [Gas.pressure, density_transform, totalEnergy_transform, velocity_transform,
    Column.normSquared, Column.dot_transform hQ]

end Inner

/-! ## Inviscid gas dynamics -/

namespace Gas

variable (gas : Gas K) (u : Vector K (dim + 2))

/-- The flux of mass is the momentum. -/
theorem get_densityRow_flux :
    ((gas.flux u).get densityIndex).get = density u • (velocity u).get :=
  funext fun d => get_flux_density gas u d

/-- The flux of momentum: what moves with the gas, and the pressure on the diagonal. -/
theorem momentumRows_flux : momentumRows (gas.flux u) =
    density u • vecMulVec (velocity u).get (velocity u).get + gas.pressure u • 1 := by
  ext k d
  simp [momentumRows, get_flux_momentum, vecMulVec_apply, one_apply, mul_assoc]

/-- The flux of energy goes along the velocity. -/
theorem get_energyRow_flux :
    ((gas.flux u).get energyIndex).get = (totalEnergy u + gas.pressure u) • (velocity u).get := by
  funext d
  rw [get_flux_energy, Pi.smul_apply, smul_eq_mul, mul_comm]

variable {Q : Matrix (Fin dim) (Fin dim) K} (hQ : Q * Qᵀ = 1)

include hQ

/-- The convective flux turns with the axes. -/
theorem flux_transform : gas.flux (Column.transform (rotation Q) u) =
    Flux.transform (rotation Q) Q (gas.flux u) := by
  refine flux_ext ?_ ?_ ?_
  · rw [get_transform_density, get_densityRow_flux, get_densityRow_flux, mulVec_smul,
      density_transform, velocity_transform, Column.get_transform]
  · simp [momentumRows_flux, gas.pressure_transform hQ, Column.get_transform, mul_add, add_mul,
      mul_vecMulVec, vecMulVec_mul, vecMul_transpose, hQ]
  · rw [get_transform_energy, get_energyRow_flux, get_energyRow_flux, mulVec_smul,
      totalEnergy_transform, gas.pressure_transform hQ, velocity_transform, Column.get_transform]

end Gas

/-! ## Viscous gas dynamics -/

namespace ViscousGas

variable (gas : ViscousGas K) (u : Vector K (dim + 2)) (gradient : Flux K dim (dim + 2))

/-- The gradient of the velocity as a matrix. -/
theorem toMatrix_velocityGradient : (velocityGradient u gradient).toMatrix =
    (density u)⁻¹ • (momentumRows gradient -
      vecMulVec (velocity u).get (gradient.get densityIndex).get) := by
  ext k d
  simp [momentumRows, vecMulVec_apply, div_eq_inv_mul]

/-- The trace of a square flux is that of its matrix. -/
theorem trace_eq_trace (A : Flux K dim dim) : trace A = A.toMatrix.trace := trace_eq_sum A

/-- The stress as a matrix. -/
theorem toMatrix_stress (viscosity : K) (A : Flux K dim dim) : (stress viscosity A).toMatrix =
    viscosity • (A.toMatrix + A.toMatrixᵀ) -
      (whole 2 / whole 3 * viscosity * A.toMatrix.trace) • 1 := by
  ext k d
  simp [get_stress, trace_eq_trace, one_apply, mul_comm viscosity, add_mul]

/-- The gradient of the temperature as a combination of the rows of the gradient of the state. -/
theorem get_temperatureGradient_rows : (gas.temperatureGradient u gradient).get =
    (gas.gamma * gas.mach * gas.mach) • (((gas.gamma - 1) / density u) •
        ((gradient.get energyIndex).get - ((momentumRows gradient)ᵀ *ᵥ (velocity u).get -
          (ratio 1 2 * Column.normSquared (velocity u)) • (gradient.get densityIndex).get)) -
      (gas.pressure u / (density u * density u)) • (gradient.get densityIndex).get) := by
  funext d
  have hmomentum : ((momentumRows gradient)ᵀ *ᵥ (velocity u).get) d =
      ∑ k, (gradient.get (momentumIndex k)).get d * (velocity u).get k := rfl
  rw [get_temperatureGradient, Column.sum_kinetic, ← hmomentum]
  simp only [Pi.smul_apply, Pi.sub_apply, smul_eq_mul]
  ring

/-- The viscous flux of momentum is the stress. -/
theorem momentumRows_fluxOf (viscosity : K) : momentumRows (gas.fluxOf viscosity u gradient) =
    -(stress viscosity (velocityGradient u gradient)).toMatrix := by
  ext k d
  exact get_fluxOf_momentum gas u gradient k d viscosity

/-- The viscous flux of energy: the stress at work on the velocity, and heat. -/
theorem get_energyRow_fluxOf (viscosity : K) :
    ((gas.fluxOf viscosity u gradient).get energyIndex).get =
      -((stress viscosity (velocityGradient u gradient)).toMatrixᵀ *ᵥ (velocity u).get) +
        -(viscosity / ((gas.gamma - 1) * gas.mach * gas.mach * gas.prandtl)) •
          (gas.temperatureGradient u gradient).get := by
  funext d
  rw [get_fluxOf_energy, get_heatFlux, mul_comm]
  rfl

variable {Q : Matrix (Fin dim) (Fin dim) K} (hQ : Q * Qᵀ = 1)

/-- The velocity gradient turns with the axes. -/
theorem toMatrix_velocityGradient_transform :
    (velocityGradient (Column.transform (rotation Q) u)
        (Flux.transform (rotation Q) Q gradient)).toMatrix =
      Q * (velocityGradient u gradient).toMatrix * Qᵀ := by
  simp only [toMatrix_velocityGradient, density_transform, velocity_transform,
    momentumRows_transform, get_transform_density, Column.get_transform]
  rw [mul_smul_comm, smul_mul_assoc, mul_sub, sub_mul, mul_vecMulVec, vecMulVec_mul,
    vecMul_transpose]

include hQ

/-- The stress turns with the axes. -/
theorem toMatrix_stress_transform (viscosity : K) {A B : Flux K dim dim}
    (hB : B.toMatrix = Q * A.toMatrix * Qᵀ) :
    (stress viscosity B).toMatrix = Q * (stress viscosity A).toMatrix * Qᵀ := by
  have htrace : (Q * A.toMatrix * Qᵀ).trace = A.toMatrix.trace := by
    rw [trace_mul_comm, ← mul_assoc, mul_eq_one_comm.1 hQ, one_mul]
  rw [toMatrix_stress, toMatrix_stress, hB, htrace]
  simp [mul_add, add_mul, mul_sub, sub_mul, hQ, mul_assoc]

/-- The temperature gradient turns with the axes. -/
theorem get_temperatureGradient_transform :
    (gas.temperatureGradient (Column.transform (rotation Q) u)
        (Flux.transform (rotation Q) Q gradient)).get =
      Q *ᵥ (gas.temperatureGradient u gradient).get := by
  simp only [get_temperatureGradient_rows, density_transform, velocity_transform,
    momentumRows_transform, get_transform_density, get_transform_energy, Column.get_transform,
    gas.pressure_transform hQ, Column.normSquared, Column.dot_transform hQ,
    transpose_conj_mulVec hQ, mulVec_smul, mulVec_sub]

/-- The dissipative flux turns with the axes. -/
theorem fluxOf_transform (viscosity : K) :
    gas.fluxOf viscosity (Column.transform (rotation Q) u)
        (Flux.transform (rotation Q) Q gradient) =
      Flux.transform (rotation Q) Q (gas.fluxOf viscosity u gradient) := by
  have hstress := toMatrix_stress_transform hQ viscosity
    (toMatrix_velocityGradient_transform u gradient (Q := Q))
  have hdensity : ∀ (v : Vector K (dim + 2)) (g : Flux K dim (dim + 2)),
      ((gas.fluxOf viscosity v g).get densityIndex).get = 0 := by
    intro v g
    funext d
    exact get_fluxOf_density gas v g d viscosity
  refine flux_ext ?_ ?_ ?_
  · rw [get_transform_density, hdensity, hdensity, mulVec_zero]
  · rw [momentumRows_transform, momentumRows_fluxOf, momentumRows_fluxOf, hstress, mul_neg, neg_mul]
  · -- The stress turns on both sides; the velocity that it is multiplied with undoes one of them.
    rw [get_transform_energy, get_energyRow_fluxOf, get_energyRow_fluxOf, hstress,
      gas.get_temperatureGradient_transform u gradient hQ, velocity_transform, Column.get_transform,
      transpose_conj_mulVec hQ, mulVec_add, mulVec_neg, mulVec_smul]

/-- The temperature does not depend on the direction of the motion. -/
theorem temperature_transform :
    gas.temperature (Column.transform (rotation Q) u) = gas.temperature u := by
  rw [temperature, temperature, gas.pressure_transform hQ, density_transform]

end ViscousGas

/-! ## Conservation laws -/

/-- A conservation law looks the same if its states are transformed by `R` and its directions by
`Q`. -/
structure Model.SymmetricUnder {states : Nat} (P : Model K dim states)
    (R : Matrix (Fin states) (Fin states) K) (Q : Matrix (Fin dim) (Fin dim) K) : Prop where
  /-- The convective flux is transformed. -/
  convective : ∀ u, P.convective (Column.transform R u) = Flux.transform R Q (P.convective u)
  /-- The dissipative flux is transformed with state and gradient. -/
  dissipative : ∀ u gradient, P.dissipative (Column.transform R u) (Flux.transform R Q gradient) =
    Flux.transform R Q (P.dissipative u gradient)
  /-- The eigenvalues stay if the normal is transformed. -/
  eigenvalues : ∀ u normal, P.eigenvalues (Column.transform R u) (Column.transform Q normal) =
    P.eigenvalues u normal
  /-- The largest eigenvalue stays. -/
  maxEigenvalue : ∀ u, P.maxEigenvalue (Column.transform R u) = P.maxEigenvalue u

section Symmetry

variable [SquareRoot K] {Q : Matrix (Fin dim) (Fin dim) K} (hQ : Q * Qᵀ = 1)

include hQ

/-- Neither does the speed of sound. -/
theorem Gas.sound_transform (gas : Gas K) (u : Vector K (dim + 2)) :
    gas.sound (Column.transform (rotation Q) u) = gas.sound u := by
  rw [Gas.sound, Gas.sound, gas.pressure_transform hQ, density_transform]

/-- Inviscid gas dynamics is the same in every direction. -/
theorem Gas.symmetricUnder (gas : Gas K) : gas.model.SymmetricUnder (rotation Q) Q where
  convective u := gas.flux_transform u hQ
  dissipative u gradient := (Flux.transform_zero (rotation Q) Q).symm
  eigenvalues u normal := by
    simp only [Gas.model, Gas.eigenvalues, velocity_transform, Column.dot_transform hQ,
      Column.norm_transform hQ, gas.sound_transform hQ]
  maxEigenvalue u := by
    simp only [Gas.model, Gas.maxEigenvalue, velocity_transform, Column.norm_transform hQ,
      gas.sound_transform hQ]

/-- So is viscous gas dynamics: its viscosity depends on the temperature alone. -/
theorem ViscousGas.symmetricUnder [RealPower K] (gas : ViscousGas K) :
    gas.model.SymmetricUnder (rotation Q) Q where
  convective u := gas.flux_transform u hQ
  dissipative u gradient := by
    simp only [ViscousGas.model, ViscousGas.dissipativeFlux, gas.temperature_transform u hQ,
      gas.fluxOf_transform u gradient hQ]
  eigenvalues := (gas.toGas.symmetricUnder hQ).eigenvalues
  maxEigenvalue := (gas.toGas.symmetricUnder hQ).maxEigenvalue

end Symmetry

/-- Inviscid and viscous gas dynamics do not depend on the choice of the axes, whatever the square
root and powers are, and neither do pressure, temperature and the speed of sound. -/
theorem ViscousGas.rotation_invariant [SquareRoot K] [RealPower K] (gas : ViscousGas K)
    {Q : Matrix (Fin dim) (Fin dim) K} (hQ : Q ∈ orthogonalGroup (Fin dim) K) :
    gas.toGas.model.SymmetricUnder (rotation Q) Q ∧ gas.model.SymmetricUnder (rotation Q) Q ∧
      ∀ u : Vector K (dim + 2),
        gas.pressure (Column.transform (rotation Q) u) = gas.pressure u ∧
          gas.temperature (Column.transform (rotation Q) u) = gas.temperature u ∧
          gas.sound (Column.transform (rotation Q) u) = gas.sound u := by
  rw [mem_orthogonalGroup_iff] at hQ
  exact ⟨gas.toGas.symmetricUnder hQ, gas.symmetricUnder hQ, fun u =>
    ⟨gas.pressure_transform hQ u, gas.temperature_transform u hQ, gas.sound_transform hQ u⟩⟩

/-- Powers of numbers near one, to first order. -/
instance : RealPower ℚ := ⟨fun x y => 1 + y * (x - 1)⟩

/-- The rotation that takes `(5, 0)` to `(3, 4)`. -/
def turn : Matrix (Fin 2) (Fin 2) ℚ := !![3 / 5, -4 / 5; 4 / 5, 3 / 5]

/-- A turn by an angle whose sine and cosine are rational, applied to gas in motion. -/
theorem ViscousGas.rotation_invariant_wind : turn ∈ orthogonalGroup (Fin 2) ℚ ∧
    air.toGas.model.SymmetricUnder (rotation turn) turn ∧
    air.model.SymmetricUnder (rotation turn) turn ∧
    air.pressure (Column.transform (rotation turn) wind) = 10 ∧
    air.temperature (Column.transform (rotation turn) wind) = 7 / 4 := by
  have hQ : turn ∈ orthogonalGroup (Fin 2) ℚ := by
    rw [mem_orthogonalGroup_iff]
    decide +kernel
  obtain ⟨hinviscid, hviscous, hscalars⟩ := ViscousGas.rotation_invariant air hQ
  obtain ⟨hpressure, htemperature, -⟩ := hscalars wind
  have hten : air.pressure wind = 10 := by decide +kernel
  have hvalue : air.temperature wind = 7 / 4 := by decide +kernel
  exact ⟨hQ, hinviscid, hviscous, hpressure.trans hten, htemperature.trans hvalue⟩

end DualHessian
