import Mathlib.Algebra.CharP.Basic
import Mathlib.Algebra.Field.Rat
import Mathlib.Tactic.FieldSimp
import Mathlib.Tactic.LinearCombination
import DualHessian.Proofs.Numbers.Dual
import DualHessian.Proofs.Physics.GasState

/-!
# Gradients of the primitive variables

Velocity, pressure and temperature are evaluated at a state of dual numbers, which moves in a
direction. What then stands in front of `ε` is their derivative along the direction, and it is
compared with the gradients that viscous gas dynamics computes by formulas of its own.

* `GasState.get_velocity_along` and `Gas.pressure_along` are velocity and pressure of a moving
  state.
* `ViscousGas.primitive_gradients` says that the gradients of velocity and temperature are the
  derivatives of velocity and temperature.
-/

namespace DualHessian

open GasState TrivSqZeroExt DualNumber Tangent

variable {K : Type} [Field K] {dim : Nat}

/-- The gas whose constants do not move. -/
def Gas.dual (gas : Gas K) : Gas (DualNumber K) := ⟨inl gas.gamma⟩

/-- The gas whose constants do not move. -/
def ViscousGas.dual (gas : ViscousGas K) : ViscousGas (DualNumber K) where
  toGas := gas.toGas.dual
  mach := inl gas.mach
  reynolds := inl gas.reynolds
  prandtl := inl gas.prandtl

/-- The parameters of a gas do not vary. -/
@[simp] theorem Gas.gamma_dual (gas : Gas K) : gas.dual.gamma = inl gas.gamma := rfl

/-- Neither do those of its inviscid part. -/
@[simp] theorem ViscousGas.toGas_dual (gas : ViscousGas K) : gas.dual.toGas = gas.toGas.dual := rfl

/-- Nor does the Mach number. -/
@[simp] theorem ViscousGas.mach_dual (gas : ViscousGas K) : gas.dual.mach = inl gas.mach := rfl

/-! ## Velocity -/

namespace GasState

variable (u h : Vector K (dim + 2)) (k : Fin dim)

/-- The derivative of the velocity along a direction. -/
def velocitySlope : K :=
  (h.get (momentumIndex k) - (velocity u).get k * h.get densityIndex) / density u

/-- The density of a moving state. -/
@[simp] theorem density_along : density (along u h) = inl (density u) + h.get densityIndex • ε :=
  get_along u h densityIndex

/-- The energy of a moving state. -/
@[simp] theorem totalEnergy_along :
    totalEnergy (along u h) = inl (totalEnergy u) + h.get energyIndex • ε :=
  get_along u h energyIndex

/-- The velocity of a moving state. -/
@[simp] theorem get_velocity_along :
    (velocity (along u h)).get k = inl ((velocity u).get k) + velocitySlope u h k • ε := by
  rw [get_velocity, get_velocity]
  ext
  · simp
  · simp [velocitySlope, get_velocity]

/-- The part of the change of the momentum that is not due to a change of the density. -/
theorem density_mul_velocitySlope {u : Vector K (dim + 2)} (hdensity : density u ≠ 0) :
    density u * velocitySlope u h k =
      h.get (momentumIndex k) - (velocity u).get k * h.get densityIndex :=
  mul_div_cancel₀ _ hdensity

end GasState

/-! ## Pressure -/

/-- Half of a number, twice, is that number, unless the characteristic is two. -/
theorem two_mul_half (hchar : ringChar K ≠ 2) : 2 * ratio 1 2 = (1 : K) := by
  have htwo : (2 : K) ≠ 0 := Ring.two_ne_zero hchar
  simp [ratio, whole, htwo]

/-- The derivative of the pressure along a direction. -/
def Gas.pressureSlope (gas : Gas K) (u h : Vector K (dim + 2)) : K :=
  (gas.gamma - 1) * (h.get energyIndex - ∑ k,
    (h.get (momentumIndex k) * (velocity u).get k -
      h.get densityIndex * (ratio 1 2 * (velocity u).get k * (velocity u).get k)))

section Moving

variable (hchar : ringChar K ≠ 2) {u : Vector K (dim + 2)} (hdensity : density u ≠ 0)

include hchar hdensity

/-- The derivative of the kinetic energy in one direction of space. -/
theorem kinetic_slope (h : Vector K (dim + 2)) (k : Fin dim) :
    ratio 1 2 * density u * ((velocity u).get k * velocitySlope u h k +
        velocitySlope u h k * (velocity u).get k) +
      ratio 1 2 * h.get densityIndex * ((velocity u).get k * (velocity u).get k) =
    h.get (momentumIndex k) * (velocity u).get k -
      h.get densityIndex * (ratio 1 2 * (velocity u).get k * (velocity u).get k) := by
  linear_combination
    2 * ratio 1 2 * (velocity u).get k * density_mul_velocitySlope h k hdensity +
    (velocity u).get k * h.get (momentumIndex k) * two_mul_half hchar

/-- The pressure of a moving state. -/
theorem Gas.pressure_along (gas : Gas K) (h : Vector K (dim + 2)) :
    gas.dual.pressure (along u h) = inl (gas.pressure u) + gas.pressureSlope u h • ε := by
  have hkinetic := Finset.sum_congr (rfl : (Finset.univ : Finset (Fin dim)) = _) fun k _ =>
    kinetic_slope hchar hdensity h k
  rw [Finset.sum_add_distrib, ← Finset.mul_sum, ← Finset.mul_sum] at hkinetic
  ext
  · simp [Gas.pressure_eq, fst_sum]
  · simp [Gas.pressure_eq, Gas.pressureSlope, fst_sum, snd_sum, ← hkinetic]

end Moving

/-! ## Temperature -/

namespace ViscousGas

variable (gas : ViscousGas K) (u : Vector K (dim + 2)) (gradient : Flux K dim (dim + 2))
  (d : Fin dim)

/-- The velocity of a moving state moves along the gradient of the velocity. -/
theorem column_velocityGradient : velocity (along u (gradient.column d)) =
    along (velocity u) ((velocityGradient u gradient).column d) := by
  refine Column.ext_get fun k => ?_
  simp [velocitySlope]

/-- The temperature gradient from the derivatives of the pressure along the columns. -/
theorem get_temperatureGradient_eq : (gas.temperatureGradient u gradient).get d =
    (gas.pressureSlope u (gradient.column d) / density u -
      (gradient.get densityIndex).get d * (gas.pressure u / (density u * density u))) *
      (gas.gamma * gas.mach * gas.mach) := by
  simp only [get_temperatureGradient, Gas.pressureSlope, Flux.get_column, mul_comm]

variable {u}

/-- For every state of nonzero density and every gradient, the columns of the velocity gradient and
the entries of the temperature gradient are the derivatives of velocity and temperature along the
columns of the gradient. -/
theorem primitive_gradients (hchar : ringChar K ≠ 2) (hdensity : density u ≠ 0) :
    velocity (along u (gradient.column d)) =
        along (velocity u) ((velocityGradient u gradient).column d) ∧
      gas.dual.temperature (along u (gradient.column d)) =
        inl (gas.temperature u) + (gas.temperatureGradient u gradient).get d • ε := by
  refine ⟨column_velocityGradient u gradient d, ?_⟩
  have hpressure := gas.pressure_along hchar hdensity (gradient.column d)
  ext
  · simp [temperature, hpressure]
  · simp [temperature, hpressure, get_temperatureGradient_eq]
    field_simp

/-- Where the density grows by a half of itself the gas cools, although the pressure grows. -/
theorem primitive_gradients_wind : ringChar ℚ ≠ 2 ∧ density wind ≠ 0 ∧
    velocity (along wind (windGradient.column 0)) = along #v[1, 2] #v[1, -1 / 2] ∧
    air.dual.temperature (along wind (windGradient.column 0)) =
      inl (7 / 4) + (-77 / 100 : ℚ) • ε := by
  have hchar : ringChar ℚ ≠ 2 := by simp
  have hdensity : density wind ≠ 0 := by decide +kernel
  obtain ⟨hvelocity, htemperature⟩ := primitive_gradients air windGradient 0 hchar hdensity
  have hwind : velocity wind = #v[1, 2] := by decide +kernel
  have hcolumn : (velocityGradient wind windGradient).column 0 = #v[1, -1 / 2] := by decide +kernel
  have hvalue : air.temperature wind = 7 / 4 := by decide +kernel
  have hslope : (air.temperatureGradient wind windGradient).get 0 = -77 / 100 := by decide +kernel
  exact ⟨hchar, hdensity, hvelocity.trans (by rw [hwind, hcolumn]),
    htemperature.trans (by rw [hvalue, hslope])⟩

end ViscousGas

end DualHessian
