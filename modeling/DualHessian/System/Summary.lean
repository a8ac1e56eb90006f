import DualHessian.System.Description

/-!
# Describing a system to people

The parts of a system in one line of text, as far as they are of interest to people.
-/

namespace DualHessian

/-- Texts with commas between them. -/
def commaSeparated (texts : List String) : String := ", ".intercalate texts

/-- A record in one line: its name and its fields with their texts. -/
def recordText (name : String) (fields : List (String × String)) (complete : Bool) : String :=
  let parts := fields.map fun (field, text) => field ++ ": " ++ text
  let body := commaSeparated (if complete then parts else parts ++ [".."])
  s!"{name} \x7b {body} \x7d"

/-- The set in one line. -/
def DofSet.summary (s : DofSet) : String :=
  let indices := commaSeparated (s.elements.map toString)
  recordText "IndexSet" [("size", toString s.size), ("indices", s!"[{indices}]")] true

/-- The partition in one line. -/
def Partition.summary {n : Nat} (p : Partition n) : String :=
  recordText "DofPartition"
    [("n_dofs", toString n), ("locally_owned", p.owned.summary),
      ("locally_relevant", p.relevant.summary)] true

/-- The system in one line. -/
def ClosureSystem.summary {α : Type} {n : Nat} {p : Partition n} (S : ClosureSystem α p)
    (s : ClosureState α p) : String :=
  recordText "FunctionSystem"
    [("communicator", S.place.description), ("partition", p.summary),
      ("assembly_count", toString s.assemblies)] false

end DualHessian
