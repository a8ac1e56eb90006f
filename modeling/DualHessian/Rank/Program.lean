import DualHessian.Failure
import DualHessian.Sparse.Entry

/-!
# Programs of a rank

A rank is one of several workers that run the same computation on different data and meet in
collective operations. `Program α P β` is the program of one rank as a tree of what it does next:

* `gather` hands a payload to the group and goes on with the payloads of all ranks;
* `wait` goes on when all ranks have come to the same point;
* `ask` puts a request to the rank's own surroundings, described by an interface `P`;
* `done` ends with a result of type `β`.

`Program.serve` answers the requests of a program by programs over another interface, and so joins a
computation with the services that it uses.
-/

namespace DualHessian

/-- What ranks hand to each other in one collective operation. -/
inductive Payload where
  /-- A text. -/
  | text
  /-- Numbers with their indices. -/
  | pairs
  /-- A truth value. -/
  | flag
  /-- A number. -/
  | number
  /-- A list of numbers. -/
  | numbers
  /-- Entries of a matrix. -/
  | entries
deriving DecidableEq, Repr

/-- The values of a payload, over the numbers `α`. -/
def Payload.Carrier (α : Type) : Payload → Type
  | text => String
  | pairs => List (Nat × α)
  | flag => Bool
  | number => α
  | numbers => List α
  | entries => List (Entry α)

/-- Requests of a program to its surroundings, each with the type of its reply. -/
structure Interface where
  /-- What can be asked. -/
  Request : Type
  /-- The replies to a request. -/
  Reply : Request → Type

/-- The interface at which nothing can be asked. -/
def Interface.closed : Interface := ⟨Empty, nofun⟩

/-- The program of one rank. -/
inductive Program (α : Type) (P : Interface) (β : Type) where
  /-- The end, with a result. -/
  | done (result : β)
  /-- Hands over a value and receives those of all ranks in the order of the ranks; nothing, if the
  ranks handed over payloads of different kinds. -/
  | gather (kind : Payload) (value : kind.Carrier α)
      (next : Option (List (kind.Carrier α)) → Program α P β)
  /-- Waits for all ranks. -/
  | wait (next : Program α P β)
  /-- Puts a request to the surroundings. -/
  | ask (request : P.Request) (next : P.Reply request → Program α P β)

namespace Program

variable {α : Type} {P : Interface} {β γ δ : Type}

/-- The first program followed by the second, which takes up its result. -/
def bind : Program α P β → (β → Program α P γ) → Program α P γ
  | done b, f => f b
  | gather kind value next, f => gather kind value fun vs => (next vs).bind f
  | wait next, f => wait (next.bind f)
  | ask request next, f => ask request fun reply => (next reply).bind f

instance : Monad (Program α P) where
  pure := done
  bind := bind

@[simp] theorem pure_eq (b : β) : (pure b : Program α P β) = done b := rfl

@[simp] theorem done_bind (b : β) (f : β → Program α P γ) : done b >>= f = f b := rfl

@[simp] theorem gather_bind (kind : Payload) (value : kind.Carrier α)
    (next : Option (List (kind.Carrier α)) → Program α P β) (f : β → Program α P γ) :
    gather kind value next >>= f = gather kind value fun vs => next vs >>= f := rfl

@[simp] theorem wait_bind (next : Program α P β) (f : β → Program α P γ) :
    wait next >>= f = wait (next >>= f) := rfl

@[simp] theorem ask_bind (request : P.Request) (next : P.Reply request → Program α P β)
    (f : β → Program α P γ) : ask request next >>= f = ask request fun r => next r >>= f := rfl

/-- Ending after a program changes nothing. -/
theorem bind_done (p : Program α P β) : p >>= done = p := by
  induction p with
  | done b => rfl
  | gather kind value next ih => exact congrArg _ (funext ih)
  | wait next ih => exact congrArg _ ih
  | ask request next ih => exact congrArg _ (funext ih)

/-- How programs are grouped does not matter. -/
theorem bind_bind (p : Program α P β) (f : β → Program α P γ) (g : γ → Program α P δ) :
    p >>= f >>= g = p >>= fun b => f b >>= g := by
  induction p with
  | done b => rfl
  | gather kind value next ih => exact congrArg _ (funext ih)
  | wait next ih => exact congrArg _ ih
  | ask request next ih => exact congrArg _ (funext ih)

instance : LawfulMonad (Program α P) := LawfulMonad.mk' _ bind_done done_bind bind_bind

/-- A single request. -/
def request (q : P.Request) : Program α P (P.Reply q) := ask q done

/-- The values that all ranks hand over; nothing, if the ranks do not agree on the payload. -/
def exchange (kind : Payload) (value : kind.Carrier α) :
    Program α P (Option (List (kind.Carrier α))) := gather kind value done

end Program

/-- A program of one rank that may stop early. -/
abbrev Task (α : Type) (P : Interface) := ExceptT Stop (Program α P)

/-- A program of one rank that keeps a state, also when it stops early. -/
abbrev Stateful (σ α : Type) (P : Interface) := ExceptT Stop (StateT σ (Program α P))

/-- A task does not touch the state. -/
instance {σ α : Type} {P : Interface} : MonadLift (Task α P) (Stateful σ α P) where
  monadLift task := ExceptT.mk fun s => do return (← task.run, s)

namespace Program

variable {α : Type} {P Q : Interface} {β σ : Type}

/-- Answers the requests of a program. The answers may use a state and may themselves meet the other
ranks; a program whose requests stop early stops with them. -/
def serve (answer : (q : P.Request) → Stateful σ α Q (P.Reply q)) :
    Program α P β → Stateful σ α Q β
  | done b => pure b
  | gather kind value next =>
    ExceptT.mk fun s => gather kind value fun vs => (serve answer (next vs)).run s
  | wait next => ExceptT.mk fun s => wait ((serve answer next).run s)
  | ask q next => do serve answer (next (← answer q))

/-- Answers the requests of a program out of a state of its own surroundings. -/
def settle (answer : (q : P.Request) → StateM σ (P.Reply q)) :
    Program α P β → σ → Program α .closed (β × σ)
  | done b, s => done (b, s)
  | gather kind value next, s => gather kind value fun vs => (next vs).settle answer s
  | wait next, s => wait (next.settle answer s)
  | ask q next, s =>
    let (reply, s) := answer q s
    (next reply).settle answer s

end Program

end DualHessian
