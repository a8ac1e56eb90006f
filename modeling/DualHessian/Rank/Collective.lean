import DualHessian.Arithmetic
import DualHessian.Rank.Group

/-!
# Collective operations

A `Place` is the place of a rank in its group. The collective operations of this module are
tasks that every rank of the group has to run, the same ones in the same order: `gatherAll` collects
the values of all ranks, and the reductions combine them in the order of the ranks.
-/

namespace DualHessian

/-- The place of a rank in its group. -/
inductive Place where
  /-- The only rank there is. -/
  | alone
  /-- One of several ranks that share their memory. -/
  | member (rank size : Nat) (rank_lt : rank < size)
deriving DecidableEq

namespace Place

/-- The number of this rank, counted from zero. -/
def rank : Place → Nat
  | alone => 0
  | member rank _ _ => rank

/-- The number of ranks in the group. -/
def size : Place → Nat
  | alone => 1
  | member _ size _ => size

/-- A rank is below the size of its group. -/
theorem rank_lt_size : (c : Place) → c.rank < c.size
  | alone => Nat.one_pos
  | member _ _ h => h

/-- Whether this is the first rank, which speaks for the group. -/
def isRoot (c : Place) : Bool := c.rank == 0

/-- The places of a group, in the order of the ranks. -/
def group (size : Nat) : Except Violation (List Place) :=
  if size = 0 then .error .emptyGroup
  else .ok ((List.finRange size).map fun (r : Fin size) => member r.val size r.isLt)

/-- A description for people. -/
def description : Place → String
  | alone => "SerialCommunicator"
  | member rank size _ => s!"ThreadCommunicator \x7b rank: {rank}, size: {size} \x7d"

end Place

section Operations

variable {α : Type} {P : Interface}

/-- The values of all ranks, in the order of the ranks. -/
def gatherAll (kind : Payload) (value : kind.Carrier α) : Task α P (List (kind.Carrier α)) := do
  match ← (Program.exchange kind value : Program α P _) with
  | some values => pure values
  | none => throw (.violated .desynchronized)

/-- Waits for all ranks. -/
def barrier : Task α P Unit := ExceptT.lift (.wait (.done ()))

/-- Whether the statement holds on some rank. -/
def onAnyRank (holds : Bool) : Task α P Bool := do
  let flags ← gatherAll (α := α) .flag holds
  return flags.any id

variable [Arithmetic α]

/-- The sum of a number over all ranks, from the first rank to the last. -/
def sumOverRanks (x : α) : Task α P α := do
  let xs ← gatherAll .number x
  return signedSumOf xs

/-- The largest value of a number over all ranks. -/
def maxOverRanks [Magnitude α] (x : α) : Task α P α := do
  let xs ← gatherAll .number x
  return xs.foldl Magnitude.larger Magnitude.lowest

/-- The sum of lists of one length, component by component, from the first list to the last. -/
def sumLists (length : Nat) (lists : List (List α)) : List α :=
  lists.foldl (List.zipWith (· + ·)) (List.replicate length 0)

/-- A sum of lists that are given by functions on the same indices is given by the sums of the
functions. -/
theorem sumLists_map_range (m : Nat) (fs : List (Nat → α)) :
    sumLists m (fs.map fun f => (List.range m).map f) =
      (List.range m).map fun j => sumOf (fs.map fun f => f j) := by
  -- The induction is on the lists added, from any start.
  suffices ∀ start : Nat → α,
      (fs.map fun f => (List.range m).map f).foldl (List.zipWith (· + ·))
          ((List.range m).map start) =
        (List.range m).map fun j => (fs.map fun f => f j).foldl (· + ·) (start j) by
    have hzero : List.replicate m (0 : α) = (List.range m).map fun _ => 0 := by
      simp [List.map_const']
    rw [sumLists, hzero]
    exact this fun _ => 0
  induction fs with
  | nil => exact fun start => rfl
  | cons f fs ih =>
    intro start
    rw [List.map_cons, List.foldl_cons, List.zipWith_map, List.zipWith_self]
    exact ih fun j => start j + f j

/-- The sum of a list of numbers over all ranks, component by component. All ranks have to hand over
lists of the same length. -/
def sumComponents (xs : List α) : Task α P (List α) := do
  let lists ← gatherAll .numbers xs
  if lists.all fun ys => ys.length == xs.length then
    return sumLists xs.length lists
  else
    throw (.violated .bufferLengths)

end Operations

end DualHessian
