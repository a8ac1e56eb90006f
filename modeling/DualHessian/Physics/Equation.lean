import DualHessian.Physics.Linear
import DualHessian.Physics.Parameters
import DualHessian.Physics.ViscousGas

/-!
# Equations by name

The conservation laws that can be chosen by name. The linear laws accept any number of states, gas
dynamics needs the states of a gas: two more than there are directions.

* `Equation.states?` is the number of states that an equation needs.
* `Equation.model` is the conservation law, or the reason why the number of states does not fit.
-/

namespace DualHessian

/-- A conservation law by name. -/
inductive Equation where
  /-- Linear advection. -/
  | advection
  /-- Diffusion. -/
  | diffusion
  /-- Linear advection with diffusion. -/
  | convectionDiffusion
  /-- Inviscid gas dynamics. -/
  | euler
  /-- Viscous gas dynamics. -/
  | navierStokes
deriving DecidableEq, Repr

/-- An equation was asked for with a number of states that it does not have. -/
structure StateCountError where
  /-- The number of directions. -/
  dim : Nat
  /-- The number of states asked for. -/
  states : Nat
  /-- The number of states of the equation. -/
  expected : Nat
deriving DecidableEq, Repr

/-- The wording of the error. -/
def StateCountError.message (e : StateCountError) : String :=
  s!"Model in {e.dim} dimensions requires {e.expected} states, but {e.states} were requested."

/-- Checks that a state of `states` entries is one of a gas in `dim` directions. -/
def requireGas (dim states : Nat) : Except StateCountError (PLift (states = dim + 2)) :=
  if h : states = dim + 2 then .ok ⟨h⟩ else .error ⟨dim, states, dim + 2⟩

section Constituents

variable {α : Type} (parameters : Parameters α)

/-- Advection with the given velocity, where directions repeat after three. -/
def Advection.ofParameters (dim : Nat) : Advection α dim :=
  ⟨.ofFn fun d => Manufactured.cyclic parameters.velocity d⟩

/-- Diffusion with the given coefficient. -/
def Diffusion.ofParameters : Diffusion α := ⟨parameters.diffusion⟩

/-- The gas with the given ratio of specific heats. -/
def Gas.ofParameters : Gas α := ⟨parameters.gamma⟩

/-- The viscous gas with the given constants. -/
def ViscousGas.ofParameters : ViscousGas α where
  toGas := .ofParameters parameters
  mach := parameters.mach
  reynolds := parameters.reynolds
  prandtl := parameters.prandtl

end Constituents

namespace Equation

/-- All equations. -/
def all : List Equation := [advection, diffusion, convectionDiffusion, euler, navierStokes]

/-- The name of an equation. -/
def name : Equation → String
  | advection => "advection"
  | diffusion => "diffusion"
  | convectionDiffusion => "convection_diffusion"
  | euler => "euler"
  | navierStokes => "navier_stokes"

/-- The equation with a name. -/
def ofName? (name : String) : Option Equation := all.find? (·.name == name)

/-- The number of states that the equation needs in `dim` directions; nothing, if any number will
do. -/
def states? (e : Equation) (dim : Nat) : Option Nat :=
  match e with
  | advection | diffusion | convectionDiffusion => none
  | euler | navierStokes => some (dim + 2)

variable {α : Type} [Arithmetic α] [SquareRoot α] [RealPower α]

/-- The conservation law in `dim` directions for states of `states` entries. -/
def model (e : Equation) (parameters : Parameters α) (dim states : Nat) :
    Except StateCountError (Model α dim states) :=
  match e with
  | advection => .ok (Advection.ofParameters parameters dim).model
  | diffusion => .ok (Diffusion.ofParameters parameters).model
  | convectionDiffusion =>
    .ok ((Diffusion.ofParameters parameters).withAdvection (.ofParameters parameters dim))
  | euler => do
    let ⟨h⟩ ← requireGas dim states
    return h ▸ (Gas.ofParameters parameters).model
  | navierStokes => do
    let ⟨h⟩ ← requireGas dim states
    return h ▸ (ViscousGas.ofParameters parameters).model

end Equation

end DualHessian
