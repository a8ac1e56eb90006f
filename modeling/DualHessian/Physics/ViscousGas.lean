import DualHessian.Physics.Gas

/-!
# Viscous gas dynamics

The compressible Navier-Stokes equations, made dimensionless by the free stream. To the convective
flux of a perfect gas they add a viscous stress after Stokes' hypothesis and a heat flux after
Fourier's law; the viscosity depends on the temperature by Sutherland's law. The dissipative flux of
a state with velocity `v`, stress `τ` and heat flux `q` is `(0, -τ, -τ v + q)`.
-/

namespace DualHessian

open GasState

variable {α : Type} [Arithmetic α] {dim : Nat}

/-- A perfect gas with viscosity and heat conduction. -/
structure ViscousGas (α : Type) extends Gas α where
  /-- The Mach number of the free stream. -/
  mach : α
  /-- The Reynolds number of the free stream. -/
  reynolds : α
  /-- The Prandtl number. -/
  prandtl : α

namespace ViscousGas

/-- Sutherland's constant, 110.4 K, relative to the temperature of the free stream, 273.15 K. -/
def sutherland : α := ratio 1104 10 / ratio 27315 100

/-- The temperature, which is one in the free stream. -/
def temperature (gas : ViscousGas α) (u : Vector α (dim + 2)) : α :=
  gas.gamma * gas.mach * gas.mach * gas.pressure u / density u

/-- The viscosity at a temperature, by Sutherland's law. -/
def viscosity [RealPower α] (temperature : α) : α :=
  power temperature (ratio 15 10) * (1 + sutherland) / (temperature + sutherland)

/-- The derivative of each velocity in each direction. -/
def velocityGradient (u : Vector α (dim + 2)) (gradient : Flux α dim (dim + 2)) :
    Flux α dim dim :=
  let v := velocity u
  Flux.build fun k d =>
    let momentumSlope := (gradient.get (momentumIndex k)).get d
    let densitySlope := (gradient.get densityIndex).get d
    (momentumSlope - v.get k * densitySlope) / density u

/-- The gradient of the temperature. -/
def temperatureGradient (gas : ViscousGas α) (u : Vector α (dim + 2))
    (gradient : Flux α dim (dim + 2)) : Vector α dim :=
  let rho := density u
  let p := gas.pressure u
  let v := velocity u
  let rhoGradient := gradient.get densityIndex
  let energyGradient := gradient.get energyIndex
  let kineticGradient := (List.finRange dim).foldl (fun total k =>
    total + Column.times (gradient.get (momentumIndex k)) (v.get k)
      - Column.times rhoGradient (ratio 1 2 * v.get k * v.get k)) (.replicate dim 0)
  let pressureGradient := Column.times (energyGradient - kineticGradient) (gas.gamma - 1)
  Column.times
    (Column.dividedBy pressureGradient rho - Column.times rhoGradient (p / (rho * rho)))
    (gas.gamma * gas.mach * gas.mach)

/-- The sum of the diagonal of a square matrix, from the first entry to the last. -/
def trace (A : Flux α dim dim) : α := sumOf ((List.finRange dim).map fun d => (A.get d).get d)

/-- The viscous stress for a viscosity and a velocity gradient. -/
def stress (viscosity : α) (velocityGradient : Flux α dim dim) : Flux α dim dim :=
  let divergence := trace velocityGradient
  Flux.build fun k d =>
    let shear := ((velocityGradient.get k).get d + (velocityGradient.get d).get k) * viscosity
    if k = d then shear - whole 2 / whole 3 * viscosity * divergence else shear

/-- The heat flux for a viscosity and a temperature gradient. -/
def heatFlux (gas : ViscousGas α) (viscosity : α) (temperatureGradient : Vector α dim) :
    Vector α dim :=
  let conductivity := viscosity / ((gas.gamma - 1) * gas.mach * gas.mach * gas.prandtl)
  Column.times temperatureGradient (-conductivity)

/-- The dissipative flux for a given viscosity relative to the Reynolds number. -/
def fluxOf (gas : ViscousGas α) (viscosity : α) (u : Vector α (dim + 2))
    (gradient : Flux α dim (dim + 2)) : Flux α dim (dim + 2) :=
  let v := velocity u
  let tau := stress viscosity (velocityGradient u gradient)
  let heat := gas.heatFlux viscosity (gas.temperatureGradient u gradient)
  build (.replicate dim 0) (fun k => -tau.get k)
    (.ofFn fun d => -Column.dot (tau.column d) v + heat.get d)

/-- The dissipative flux. -/
def dissipativeFlux [RealPower α] (gas : ViscousGas α) (u : Vector α (dim + 2))
    (gradient : Flux α dim (dim + 2)) : Flux α dim (dim + 2) :=
  gas.fluxOf (viscosity (gas.temperature u) / gas.reynolds) u gradient

/-- Viscous gas dynamics as a conservation law. -/
def model [SquareRoot α] [RealPower α] (gas : ViscousGas α) : Model α dim (dim + 2) where
  convective := gas.flux
  eigenvalues := gas.eigenvalues
  maxEigenvalue := gas.maxEigenvalue
  dissipative := gas.dissipativeFlux
  manufactured := Gas.manufactured

end ViscousGas

end DualHessian
