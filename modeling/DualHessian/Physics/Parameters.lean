import DualHessian.Arithmetic

/-!
# Physical parameters

The constants shared by all conservation laws. `Parameters.standard` gives each of them a usual
value.
-/

namespace DualHessian

/-- The physical constants of all conservation laws. -/
structure Parameters (α : Type) where
  /-- The advection velocity, for up to three directions. -/
  velocity : Vector α 3
  /-- The diffusion coefficient. -/
  diffusion : α
  /-- The ratio of the specific heats of the gas. -/
  gamma : α
  /-- The Mach number of the free stream. -/
  mach : α
  /-- The Reynolds number of the free stream. -/
  reynolds : α
  /-- The Prandtl number. -/
  prandtl : α

namespace Parameters

/-- The usual values: a velocity of `(e / 2, -π / 4, √2)`, strong diffusion, and air at half the
speed of sound. -/
def standard : Parameters Float where
  velocity := #v[2.718281828459045 / 2, -3.141592653589793 / 4, Float.sqrt 2]
  diffusion := 5
  gamma := 1.4
  mach := 0.5
  reynolds := 50000
  prandtl := 0.72

end Parameters

end DualHessian
