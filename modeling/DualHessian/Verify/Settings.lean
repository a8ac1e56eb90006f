import DualHessian.Verify.Comparison

/-!
# Settings of a verification

`Settings` holds everything that can be chosen about a verification; `Settings.standard` are the
usual choices.
-/

namespace DualHessian

/-- Which dual a verification uses. -/
inductive DualChoice where
  /-- Every entry is one, so that every component of the residual counts. -/
  | unit
  /-- The dual that the system holds. -/
  | keep
deriving DecidableEq, Repr

namespace DualChoice

/-- The name of a choice. -/
def name : DualChoice → String
  | unit => "unit"
  | keep => "keep"

/-- The choice with a name. -/
def ofName? (name : String) : Option DualChoice := [unit, keep].find? (·.name == name)

end DualChoice

/-- The choices of a verification. -/
structure Settings (α : Type) where
  /-- The step of the differences. -/
  step : α
  /-- The largest accepted relative discrepancy. -/
  tolerance : α
  /-- Derivatives by differences of smaller magnitude are not stored. -/
  dropTolerance : α
  /-- Reference matrices of smaller norm count as zero. -/
  degenerateNorm : α
  /-- The directory for the matrices. -/
  directory : String
  /-- The number of fraction digits in the files. -/
  digits : Nat
  /-- The dual. -/
  dual : DualChoice
deriving DecidableEq, Repr

namespace Settings

/-- The magnitude below which derivatives are usually not stored. -/
def standardDropTolerance : Float := 1e-12

/-- The usual thresholds of a comparison. -/
def standardTolerances : Tolerances Float := ⟨1e-4, 1e-12⟩

/-- The usual choices. -/
def standard : Settings Float where
  step := 1e-4
  tolerance := standardTolerances.tolerance
  dropTolerance := standardDropTolerance
  degenerateNorm := standardTolerances.degenerateNorm
  directory := "."
  digits := 5
  dual := .unit

/-- The thresholds of the comparison. -/
def tolerances {α : Type} (s : Settings α) : Tolerances α := ⟨s.tolerance, s.degenerateNorm⟩

/-- The settings with another directory. -/
def inDirectory {α : Type} (s : Settings α) (directory : String) : Settings α :=
  { s with directory := directory }

end Settings

end DualHessian
