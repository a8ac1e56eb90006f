import DualHessian.Physics.Model

/-!
# Linear scalar laws

Advection with a constant velocity, diffusion, and both together. They act on every state by itself,
so they make sense for any number of states.
-/

namespace DualHessian

variable {α : Type} [Arithmetic α] {dim states : Nat}

/-- Linear advection: the convective flux is the state times the velocity. -/
structure Advection (α : Type) (dim : Nat) where
  /-- The velocity. -/
  velocity : Vector α dim

/-- Diffusion: the dissipative flux is the gradient times the negated coefficient. -/
structure Diffusion (α : Type) where
  /-- The diffusion coefficient. -/
  coefficient : α

namespace Advection

/-- The convective flux. -/
def flux (a : Advection α dim) (u : Vector α states) : Flux α dim states :=
  Flux.outer u a.velocity

/-- The eigenvalues along a normal: the same normal velocity for every state. -/
def eigenvalues (a : Advection α dim) (normal : Vector α dim) : Vector α states :=
  .replicate states (Column.dot a.velocity normal)

/-- The speed. -/
def speed [SquareRoot α] (a : Advection α dim) : α := Column.norm a.velocity

/-- Advection as a conservation law. -/
def model [SquareRoot α] (a : Advection α dim) : Model α dim states where
  convective := a.flux
  eigenvalues _ normal := a.eigenvalues normal
  maxEigenvalue _ := a.speed
  dissipative _ _ := Flux.zero
  manufactured := .unit

end Advection

namespace Diffusion

/-- The dissipative flux of a gradient. -/
def flux (d : Diffusion α) (gradient : Flux α dim states) : Flux α dim states :=
  Flux.times gradient (-d.coefficient)

/-- Diffusion as a conservation law. -/
def model (d : Diffusion α) : Model α dim states where
  convective _ := Flux.zero
  eigenvalues _ _ := .replicate states 0
  maxEigenvalue _ := 0
  dissipative _ := d.flux
  manufactured := .unit

/-- Advection and diffusion together as one conservation law. -/
def withAdvection [SquareRoot α] (d : Diffusion α) (a : Advection α dim) : Model α dim states where
  convective := a.flux
  eigenvalues _ normal := a.eigenvalues normal
  maxEigenvalue _ := a.speed
  dissipative _ := d.flux
  manufactured := .unit

end Diffusion

end DualHessian
