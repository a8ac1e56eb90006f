import DualHessian.Dump.Disk
import DualHessian.Dump.Table
import DualHessian.Verify.Event

/-!
# The surroundings of a verification

A verification tells events, and the first rank writes matrices to files. It asks for both through
the interface `Console`. `Surroundings` are what a rank finds there in memory: the events told so
far, a disk, and what becomes of sums that are too large.
-/

namespace DualHessian

/-- The outcome of writing a file. -/
inductive Written where
  /-- The file is written. -/
  | done
  /-- The file could not be created. -/
  | notCreated
  /-- The file was created but could not be filled. -/
  | notFilled
  /-- The file was created but stays empty, for the matrix cannot be written as a table. -/
  | noTable (violation : Violation)
deriving DecidableEq, Repr

/-- What a verification asks of its surroundings. -/
inductive Console.Request (α : Type) where
  /-- To take note of an event. -/
  | tell (event : Event α)
  /-- To create a directory and those above it. -/
  | createDirectory (path : String)
  /-- To write a matrix to a file, with the given number of fraction digits. -/
  | writeMatrix (path : String) (A : Dense α) (digits : Nat)

/-- The interface of a verification: a directory is created or not, a file has an outcome. -/
def Console (α : Type) : Interface where
  Request := Console.Request α
  Reply
    | .tell _ => Unit
    | .createDirectory _ => Bool
    | .writeMatrix .. => Written

namespace Console

variable {α : Type}

/-- Tells an event. -/
def tell (event : Event α) : Task α (Console α) Unit :=
  ExceptT.lift (Program.ask (.tell event) fun () => .done ())

/-- Creates a directory and those above it. -/
def createDirectory (path : String) : Task α (Console α) Unit := do
  let created ← ExceptT.lift
    (Program.ask (.createDirectory path) fun (reply : Bool) => .done reply)
  unless created do
    throw (.failed (.wrap (.directory path) (.of .disk)))

/-- Writes a matrix to a file. -/
def writeMatrix (path : String) (A : Dense α) (digits : Nat) : Task α (Console α) Unit := do
  let outcome ← ExceptT.lift
    (Program.ask (.writeMatrix path A digits) fun (reply : Written) => .done reply)
  match outcome with
  | .done => pure ()
  | .notCreated => throw (.failed (.wrap (.file path) (.of .disk)))
  | .notFilled => throw (.failed (.wrap (.contents path) (.of .disk)))
  | .noTable violation => throw (.violated violation)

end Console

/-- What a verification finds around it: the events told, the last one first, a disk, and what
becomes of a sum that is too large. -/
structure Surroundings where
  /-- The events. -/
  told : List (Event Float)
  /-- The disk. -/
  disk : Disk
  /-- The sums of machine words. -/
  overflow : Overflow

namespace Surroundings

/-- The surroundings with a disk, before anything is told. -/
def ofDisk (overflow : Overflow) (disk : Disk) : Surroundings := ⟨[], disk, overflow⟩

/-- The events in the order in which they were told. -/
def events (s : Surroundings) : List (Event Float) := s.told.reverse

/-- The labels of the cases begun, in order. -/
def labels (s : Surroundings) : List String :=
  s.events.filterMap fun
    | .verifying label => some label
    | _ => none

/-- The replies to a verification. -/
def answer : (q : (Console Float).Request) → StateM Surroundings ((Console Float).Reply q)
  | .tell event => fun s => ((), { s with told := event :: s.told })
  | .createDirectory path => fun s =>
    match s.disk.createDirectory? path with
    | some disk => (true, { s with disk := disk })
    | none => (false, s)
  | .writeMatrix path A digits => fun s =>
    let (outcome, text) := match Table.text s.overflow digits A with
      | .ok text => (Written.done, text)
      | .error violation => (.noTable violation, "")
    match s.disk.write? path text with
    | some disk => (outcome, { s with disk := disk })
    | none => (.notCreated, s)

/-- Runs a program in its surroundings. -/
def settle {β : Type} (s : Surroundings) (program : Program Float (Console Float) β) :
    Program Float .closed (β × Surroundings) :=
  program.settle answer s

end Surroundings

end DualHessian
