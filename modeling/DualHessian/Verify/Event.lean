import DualHessian.Hessian.Sampling
import DualHessian.Verify.Comparison

/-!
# What a verification tells

An `Event` is something that a verification tells its surroundings while it runs. Every event has a
level and a line of text.
-/

namespace DualHessian

/-- How important an event is. -/
inductive Level where
  /-- Of interest to everybody. -/
  | info
  /-- A reason to worry. -/
  | warn
  /-- Of interest when looking for a mistake. -/
  | debug
  /-- Of interest when looking very closely. -/
  | trace
deriving DecidableEq, Repr

/-- The word for a level. -/
def Level.word : Level → String
  | info => "INFO"
  | warn => "WARN"
  | debug => "DEBUG"
  | trace => "TRACE"

/-- Something told by a verification. -/
inductive Event (α : Type) where
  /-- A case of a suite is begun. -/
  | verifying (label : String)
  /-- The number of degrees of freedom. -/
  | dofs (count : Nat)
  /-- The assembly by differences has got on. -/
  | assembling (progress : Progress α)
  /-- The norms of the reference and of the matrix obtained by differences. -/
  | norms (reference differences : α)
  /-- The matrices have been compared. -/
  | compared (report : Report α)
  /-- The relative discrepancy is too large. -/
  | exceeds (relative tolerance : α)

/-- The level of progress in an assembly. -/
def Progress.level {α : Type} : Progress α → Level
  | row .. | finished .. => .info
  | dropped .. => .trace
  | kept .. => .debug

/-- The text of progress in an assembly. -/
def Progress.text : Progress Float → String
  | row i n => s!"Evaluating row {i + 1} of {n}"
  | dropped i j x => s!"Dropping ({i}, {j}) = {Double.shortestText x}"
  | kept i j x => s!"FD entry ({i}, {j}) = {Double.shortestText x}"
  | finished evaluated small tolerance =>
    s!"Evaluated {evaluated} entries by finite differences, " ++
      s!"dropped {small} below {Double.shortestText tolerance}"

namespace Event

/-- The level of an event. -/
def level {α : Type} : Event α → Level
  | assembling progress => progress.level
  | exceeds .. => .warn
  | verifying .. | dofs .. | norms .. | compared .. => .info

/-- The text of an event. -/
def text : Event Float → String
  | verifying label => s!"Verifying {label}"
  | dofs n => s!"Number of dofs: {n}"
  | assembling progress => progress.text
  | norms reference differences =>
    s!"AD Frobenius norm: {Double.shortestText reference}, " ++
      s!"FD Frobenius norm: {Double.shortestText differences}"
  | compared report => report.text
  | exceeds relative tolerance =>
    s!"Relative L1 discrepancy {Double.shortestText relative} " ++
      s!"exceeds tolerance {Double.shortestText tolerance}"

/-- The line of an event: its level and its text. -/
def line (e : Event Float) : String := s!"{e.level.word} {e.text}"

end Event

end DualHessian
