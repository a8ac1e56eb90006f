import DualHessian.Physics.Equation
import DualHessian.Text.JsonReader
import DualHessian.Text.JsonWriter

/-!
# Parameters and equations as text

Physical parameters are read from a record with named fields, each of which may be missing; an
equation is read from its name.
-/

namespace DualHessian

namespace Parameters

/-- The names of the fields, in order. -/
def fieldNames : List String :=
  ["advection_velocity", "diffusion_coefficient", "gamma_gas", "mach_inf", "reynolds_inf",
    "prandtl_number"]

/-- Reads a vector of three numbers. -/
def velocityOfJson? : Json → Option (Vector Float 3)
  | .list [x, y, z] => do return #v[← x.double?, ← y.double?, ← z.double?]
  | _ => none

/-- Reads parameters. A missing field has its usual value. -/
def ofJson? (value : Json) : Option (Parameters Float) :=
  match value.fields? fieldNames with
  | some [velocity, diffusion, gamma, mach, reynolds, prandtl] => do
    return {
      velocity := ← Json.fieldOr standard.velocity velocityOfJson? velocity
      diffusion := ← Json.fieldOr standard.diffusion Json.double? diffusion
      gamma := ← Json.fieldOr standard.gamma Json.double? gamma
      mach := ← Json.fieldOr standard.mach Json.double? mach
      reynolds := ← Json.fieldOr standard.reynolds Json.double? reynolds
      prandtl := ← Json.fieldOr standard.prandtl Json.double? prandtl }
  | _ => none

/-- Reads parameters from a text. -/
def ofText? (text : String) : Option (Parameters Float) := (Json.ofText? text).bind ofJson?

/-- The parameters as an object. -/
def toJson (p : Parameters Float) : Json :=
  let values := Json.list (p.velocity.toList.map Json.ofDouble) ::
    [p.diffusion, p.gamma, p.mach, p.reynolds, p.prandtl].map Json.ofDouble
  Json.ofMembers (fieldNames.zip values)

end Parameters

namespace Equation

/-- Reads an equation. -/
def ofJson? (value : Json) : Option Equation := value.choice?.bind ofName?

/-- Reads an equation from a text. -/
def ofText? (text : String) : Option Equation := (Json.ofText? text).bind ofJson?

/-- Writes an equation. -/
def toJson (e : Equation) : Json := Json.ofString e.name

end Equation

end DualHessian
