import DualHessian.Text.JsonReader
import DualHessian.Text.JsonWriter
import DualHessian.Verify.Settings

/-!
# Settings as text

The settings of a verification are read from a record with named fields, each of which may be
missing, and written as an object.
-/

namespace DualHessian

namespace DualChoice

/-- Reads a choice of the dual. -/
def ofJson? (value : Json) : Option DualChoice := value.choice?.bind ofName?

end DualChoice

namespace Settings

/-- The names of the fields, in order. -/
def fieldNames : List String :=
  ["step", "tolerance", "drop_tolerance", "degenerate_norm_threshold", "output_dir", "dump_digits",
    "dual"]

/-- Reads settings. A missing field has its usual value. -/
def ofJson? (value : Json) : Option (Settings Float) :=
  match value.fields? fieldNames with
  | some [step, tolerance, dropTolerance, degenerateNorm, directory, digits, dual] => do
    return {
      step := ← Json.fieldOr standard.step Json.double? step
      tolerance := ← Json.fieldOr standard.tolerance Json.double? tolerance
      dropTolerance := ← Json.fieldOr standard.dropTolerance Json.double? dropTolerance
      degenerateNorm := ← Json.fieldOr standard.degenerateNorm Json.double? degenerateNorm
      directory := ← Json.fieldOr standard.directory Json.string? directory
      digits := ← Json.fieldOr standard.digits (Json.natural? UInt64.size) digits
      dual := ← Json.fieldOr standard.dual DualChoice.ofJson? dual }
  | _ => none

/-- Reads settings from a text. -/
def ofText? (text : String) : Option (Settings Float) := (Json.ofText? text).bind ofJson?

/-- The settings as an object. -/
def toJson (s : Settings Float) : Json :=
  let numbers := [s.step, s.tolerance, s.dropTolerance, s.degenerateNorm].map Json.ofDouble
  Json.ofMembers <| fieldNames.zip <|
    numbers ++ [Json.ofString s.directory, Json.ofNat s.digits, Json.ofString s.dual.name]

/-- Whether two settings are equal, numbers as numbers. -/
def same (s t : Settings Float) : Bool :=
  s.step == t.step && s.tolerance == t.tolerance && s.dropTolerance == t.dropTolerance &&
    s.degenerateNorm == t.degenerateNorm && s.directory == t.directory && s.digits == t.digits &&
    s.dual == t.dual

/-- Whether settings are the same after writing and reading them. -/
def readsBack (s : Settings Float) : Bool := (ofText? s.toJson.written).any s.same

end Settings

end DualHessian
