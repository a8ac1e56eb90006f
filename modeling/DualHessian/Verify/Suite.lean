import DualHessian.System.Description
import DualHessian.Verify.Run

/-!
# Suites of verifications

A `Suite` is a list of labelled cases with common settings. `Suite.run` runs them in order and stops
at the first case that does not pass.
-/

namespace DualHessian

/-- A labelled verification. -/
structure Case (α : Type) where
  /-- The label. -/
  label : String
  /-- The verification with given settings. -/
  run : Settings α → Task α (Console α) (Report α)

/-- A list of verifications with common settings. -/
structure Suite (α : Type) where
  /-- The settings. -/
  settings : Settings α
  /-- The cases in order. -/
  cases : List (Case α)

/-- A report with the label of its case. -/
structure Labelled (α : Type) where
  /-- The label. -/
  label : String
  /-- The report. -/
  report : Report α

namespace Case

variable {α : Type} [Arithmetic α] [Magnitude α] [SquareRoot α]

/-- The case that builds a system and verifies its Hessian. -/
def ofSystem (label : String) (build : Except Stop (BuiltSystem α)) (faults : Faults) : Case α where
  label := label
  run settings :=
    match build with
    | .error stop => throw stop
    | .ok b => ExceptT.mk do
      let (result, _) ← ((b.system.faulty faults).verify settings).run (0, b.state)
      return result

end Case

namespace Suite

variable {α : Type}

/-- A suite without cases. -/
def ofSettings (settings : Settings α) : Suite α := ⟨settings, []⟩

/-- The suite with one more case at its end. -/
def add (s : Suite α) (c : Case α) : Suite α := { s with cases := s.cases ++ [c] }

/-- The number of cases. -/
def count (s : Suite α) : Nat := s.cases.length

/-- Whether there are no cases. -/
def isEmpty (s : Suite α) : Bool := s.cases.isEmpty

/-- Runs one case. Its failure names its label. -/
def runCase (settings : Settings α) (c : Case α) : Task α (Console α) (Report α) := ExceptT.mk do
  match ← (c.run settings).run with
  | .error (.failed f) => return .error (.failed (f.wrap (.case c.label)))
  | result => return result

/-- Runs cases until one does not pass. -/
def runCases (settings : Settings α) : List (Case α) → Task α (Console α) (List (Labelled α))
  | [] => pure []
  | c :: cases => do
    Console.tell (.verifying c.label)
    let report ← runCase settings c
    if report.passed then
      let rest ← runCases settings cases
      return ⟨c.label, report⟩ :: rest
    else
      return [⟨c.label, report⟩]

/-- The reports of the cases run. -/
def run (s : Suite α) : Task α (Console α) (List (Labelled α)) := runCases s.settings s.cases

/-- The first case that did not pass. -/
def firstFailure? (reports : List (Labelled α)) : Option (Labelled α) :=
  reports.find? fun r => !r.report.passed

/-- The exit status of a suite: zero if all its cases passed. -/
def status (reports : List (Labelled α)) : Nat :=
  match firstFailure? reports with
  | some r => r.report.status
  | none => 0

end Suite

end DualHessian
