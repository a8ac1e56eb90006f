import DualHessian.Rank.Group
import Mathlib.Data.List.OfFn
import Mathlib.Logic.Function.Basic

/-!
# Ranks as threads

The ranks of a group as threads that take turns in any order. `Group.run` lets all ranks meet at
once; here every rank takes its own steps, and a meeting comes about because a barrier holds the
threads back until all have arrived.

* A `Thread` is at a `Point` of its program, may be held back in the barrier, and keeps a list of
  what it has received.
* `Threads.advance` is the next step of one rank: to store a value in its slot, to arrive at the
  barrier, to leave it, or to read all slots. There is none while the barrier holds the rank back
  and when its program has ended.
* `Threads.follow` lets ranks take steps in the order of a schedule.
-/

namespace DualHessian

/-- What a rank has received from one gathering: the kind of payload it asked for and the values of
all ranks; nothing, if some slot did not hold such a payload. -/
abbrev Receipt (α : Type) := (kind : Payload) × Option (List (kind.Carrier α))

/-- Where a thread stands. -/
inductive Point (α β : Type) where
  /-- At the beginning of what its program does next. -/
  | call (program : Program α .closed β)
  /-- In front of the barrier, with what comes behind it. -/
  | meet (behind : Point α β)
  /-- Between the two meetings of a gathering, about to read all slots. -/
  | read (kind : Payload) (next : Option (List (kind.Carrier α)) → Program α .closed β)

/-- Where a thread gets through the barrier, if it is in front of it. -/
def Point.behind? {α β : Type} : Point α β → Option (Point α β)
  | .call (.wait next) => some (.call next)
  | .meet behind => some behind
  | _ => none

/-- A rank as a thread. -/
structure Thread (α β : Type) where
  /-- What it has handed over last. -/
  slot : Option (Slot α)
  /-- Where it stands. -/
  point : Point α β
  /-- If it has arrived at the barrier, the number of meetings that there had been before. -/
  ticket : Option Nat
  /-- What it has received so far, the first gathering first. -/
  received : List (Receipt α)

/-- A thread has come to the end of its program. -/
def Thread.Ended {α β : Type} (t : Thread α β) : Prop :=
  t.ticket = none ∧ ∃ b, t.point = .call (.done b)

/-- The threads of a group with their barrier. -/
structure Threads (α β : Type) (size : Nat) where
  /-- The thread of each rank. -/
  thread : Fin size → Thread α β
  /-- How many threads have arrived at the barrier since the last meeting. -/
  arrived : Nat
  /-- The number of meetings so far. -/
  meetings : Nat

namespace Threads

variable {α β : Type} {size : Nat}

/-- All ranks at the beginning of their programs. -/
def start (programs : Fin size → Program α .closed β) : Threads α β size where
  thread r := ⟨none, .call (programs r), none, []⟩
  arrived := 0
  meetings := 0

/-- The threads with that of one rank replaced. -/
def put (m : Threads α β size) (r : Fin size) (t : Thread α β) : Threads α β size :=
  { m with thread := Function.update m.thread r t }

/-- All threads after one has arrived at the barrier. The last one to arrive gets through at once,
and its arrival is the meeting that lets the others go. -/
def arrive (m : Threads α β size) (r : Fin size) (behind : Point α β) : Threads α β size :=
  if m.arrived + 1 = size then
    { thread := Function.update m.thread r { m.thread r with point := behind }
      arrived := 0
      meetings := m.meetings + 1 }
  else
    { thread := Function.update m.thread r { m.thread r with ticket := some m.meetings }
      arrived := m.arrived + 1
      meetings := m.meetings }

/-- What a rank reads in all slots. -/
def readAll? (m : Threads α β size) (kind : Payload) : Option (List (kind.Carrier α)) :=
  Slot.readAll? kind (List.ofFn fun r => (m.thread r).slot)

/-- A thread after reading the slots: it meets the others once more, but not if it has found
nothing. -/
def receive (t : Thread α β) (kind : Payload)
    (next : Option (List (kind.Carrier α)) → Program α .closed β)
    (values : Option (List (kind.Carrier α))) : Thread α β :=
  { t with
    point := if values.isSome then .meet (.call (next values)) else .call (next values)
    received := t.received ++ [⟨kind, values⟩] }

/-- The next step of a rank that is not in the barrier. -/
def proceed (m : Threads α β size) (r : Fin size) : Option (Threads α β size) :=
  match (m.thread r).point with
  | .call (.gather kind value next) =>
    some (m.put r
      { m.thread r with slot := some ⟨kind, value⟩, point := .meet (.read kind next) })
  | .read kind next => some (m.put r (receive (m.thread r) kind next (m.readAll? kind)))
  | point => point.behind?.map (m.arrive r)

/-- The next step of a rank. -/
def advance (m : Threads α β size) (r : Fin size) : Option (Threads α β size) :=
  match (m.thread r).ticket with
  | none => m.proceed r
  | some ticket =>
    if ticket = m.meetings then none
    else (m.thread r).point.behind?.map fun behind =>
      m.put r { m.thread r with point := behind, ticket := none }

/-- The threads after the ranks of a schedule have taken a step each, one after the other. There
are none if some rank could not. -/
def follow (m : Threads α β size) : List (Fin size) → Option (Threads α β size)
  | [] => some m
  | r :: schedule => (m.advance r).bind fun m => m.follow schedule

@[simp] theorem thread_put_self (m : Threads α β size) (r : Fin size) (t : Thread α β) :
    (m.put r t).thread r = t := by
  simp [put]

theorem thread_put_ne (m : Threads α β size) {r r' : Fin size} (h : r' ≠ r) (t : Thread α β) :
    (m.put r t).thread r' = m.thread r' := by
  simp [put, h]

/-- All that a step can be. -/
theorem advance_cases {m m' : Threads α β size} {r : Fin size} (h : m.advance r = some m') :
    (∃ kind value next, (m.thread r).ticket = none ∧
      (m.thread r).point = .call (.gather kind value next) ∧
      m' = m.put r
        { m.thread r with slot := some ⟨kind, value⟩, point := .meet (.read kind next) }) ∨
    (∃ kind next, (m.thread r).ticket = none ∧ (m.thread r).point = .read kind next ∧
      m' = m.put r (receive (m.thread r) kind next (m.readAll? kind))) ∨
    (∃ behind, (m.thread r).ticket = none ∧ (m.thread r).point.behind? = some behind ∧
      m' = m.arrive r behind) ∨
    (∃ ticket behind, (m.thread r).ticket = some ticket ∧ ticket ≠ m.meetings ∧
      (m.thread r).point.behind? = some behind ∧
      m' = m.put r { m.thread r with point := behind, ticket := none }) := by
  unfold advance at h
  split at h
  · rename_i hticket
    unfold proceed at h
    split at h
    · rename_i kind value next hpoint
      exact .inl ⟨kind, value, next, hticket, hpoint, (Option.some.inj h).symm⟩
    · rename_i kind next hpoint
      exact .inr (.inl ⟨kind, next, hticket, hpoint, (Option.some.inj h).symm⟩)
    · obtain ⟨behind, hbehind, hm⟩ := Option.map_eq_some_iff.1 h
      exact .inr (.inr (.inl ⟨behind, hticket, hbehind, hm.symm⟩))
  · rename_i ticket hticket
    split at h
    · cases h
    · rename_i hne
      obtain ⟨behind, hbehind, hm⟩ := Option.map_eq_some_iff.1 h
      exact .inr (.inr (.inr ⟨ticket, behind, hticket, hne, hbehind, hm.symm⟩))

/-- Why a rank cannot take a step: the barrier holds it back, or its program has ended, or it is in
the barrier without being in front of it. -/
theorem advance_eq_none {m : Threads α β size} {r : Fin size} (h : m.advance r = none) :
    (m.thread r).ticket = some m.meetings ∨ (∃ b, (m.thread r).point = .call (.done b)) ∨
      ((m.thread r).ticket ≠ none ∧ (m.thread r).point.behind? = none) := by
  unfold advance at h
  split at h
  · unfold proceed at h
    split at h
    · cases h
    · cases h
    · rename_i hgather hread
      refine .inr (.inl ?_)
      -- What is left of a program without a barrier in front is its end.
      rcases hpoint : (m.thread r).point with
        (b | ⟨kind, value, next⟩ | next | q) | q | ⟨kind, next⟩
      · exact ⟨b, rfl⟩
      · exact absurd hpoint (hgather kind value next)
      · rw [hpoint] at h
        cases h
      · cases q
      · rw [hpoint] at h
        cases h
      · exact absurd hpoint (hread kind next)
  · rename_i ticket hticket
    split at h
    · rename_i heq
      exact .inl (heq ▸ hticket)
    · refine .inr (.inr ⟨by simp [hticket], ?_⟩)
      simpa using h

end Threads

end DualHessian
