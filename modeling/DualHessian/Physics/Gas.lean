import DualHessian.Physics.Model

/-!
# Inviscid gas dynamics

The compressible Euler equations for a perfect gas. A state in `dim` directions has `dim + 2`
entries: the density, the momentum in each direction, and the total energy. With velocity `v` and
pressure `p` the convective flux in direction `d` is `(ρ v_d, ρ v v_d + p e_d, v_d (E + p))`.
-/

namespace DualHessian

variable {α : Type} [Arithmetic α] {dim : Nat}

namespace GasState

/-- The index of the momentum in a direction. -/
def momentumIndex (d : Fin dim) : Fin (dim + 2) := ⟨d.val + 1, by omega⟩

/-- The index of the density. -/
def densityIndex : Fin (dim + 2) := ⟨0, by omega⟩

/-- The index of the total energy. -/
def energyIndex : Fin (dim + 2) := ⟨dim + 1, by omega⟩

/-- A quantity for each entry of a gas state, from its values for density, momentum and energy. -/
def build {β : Type} (density : β) (momentum : Fin dim → β) (energy : β) : Vector β (dim + 2) :=
  .ofFn fun s =>
    if s.val = 0 then density
    else if h : s.val - 1 < dim then momentum ⟨s.val - 1, h⟩
    else energy

/-- The density. -/
def density (u : Vector α (dim + 2)) : α := u.get densityIndex

/-- The total energy. -/
def totalEnergy (u : Vector α (dim + 2)) : α := u.get energyIndex

/-- The momentum. -/
def momentum (u : Vector α (dim + 2)) : Vector α dim := .ofFn fun d => u.get (momentumIndex d)

/-- The velocity: the momentum divided by the density. -/
def velocity (u : Vector α (dim + 2)) : Vector α dim := Column.dividedBy (momentum u) (density u)

end GasState

open GasState

/-- A perfect gas. -/
structure Gas (α : Type) where
  /-- The ratio of its specific heats. -/
  gamma : α

namespace Gas

/-- The pressure. -/
def pressure (gas : Gas α) (u : Vector α (dim + 2)) : α :=
  (gas.gamma - 1) * (totalEnergy u - ratio 1 2 * density u * Column.normSquared (velocity u))

/-- The speed of sound. -/
def sound [SquareRoot α] (gas : Gas α) (u : Vector α (dim + 2)) : α :=
  sqrt (gas.gamma * gas.pressure u / density u)

/-- The convective flux. -/
def flux (gas : Gas α) (u : Vector α (dim + 2)) : Flux α dim (dim + 2) :=
  let v := velocity u
  let p := gas.pressure u
  build
    (.ofFn fun d => density u * v.get d)
    (fun k => .ofFn fun d =>
      let transported := density u * v.get k * v.get d
      if k = d then transported + p else transported)
    (.ofFn fun d => v.get d * (totalEnergy u + p))

/-- The eigenvalues along a normal: two acoustic ones at the ends, the normal velocity between. -/
def eigenvalues [SquareRoot α] (gas : Gas α) (u : Vector α (dim + 2)) (normal : Vector α dim) :
    Vector α (dim + 2) :=
  let along := Column.dot (velocity u) normal
  let acoustic := gas.sound u * Column.norm normal
  build (along - acoustic) (fun _ => along) (along + acoustic)

/-- The largest magnitude of an eigenvalue over all unit normals. -/
def maxEigenvalue [SquareRoot α] (gas : Gas α) (u : Vector α (dim + 2)) : α :=
  Column.norm (velocity u) + gas.sound u

/-- A manufactured solution with positive density and pressure. -/
def manufactured : Manufactured α dim (dim + 2) :=
  .standard
    (build 1 (fun _ => ratio 3 10) (whole 30))
    (build (ratio 1 10) (fun _ => ratio 5 100) (ratio 5 10))

/-- Inviscid gas dynamics as a conservation law. -/
def model [SquareRoot α] (gas : Gas α) : Model α dim (dim + 2) where
  convective := gas.flux
  eigenvalues := gas.eigenvalues
  maxEigenvalue := gas.maxEigenvalue
  dissipative _ _ := Flux.zero
  manufactured := manufactured

end Gas

end DualHessian
