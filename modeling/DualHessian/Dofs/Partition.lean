import DualHessian.Sparse.Pattern

/-!
# Partitions of the degrees of freedom

A `Partition n` is what one rank of a group knows about the `n` degrees of freedom: those it owns,
which it alone writes, and those relevant to it, which it can read. Relevant indices that it does
not own are its ghosts.

* `Partition.contiguous` gives every rank a block of nearly the same size.
* `Partition.withGhosts` makes every column coupled to an owned row relevant.
-/

namespace DualHessian

/-- The degrees of freedom that a rank owns, and those it can read. -/
structure Partition (n : Nat) where
  /-- The indices written by this rank only. -/
  owned : DofSet
  /-- The indices this rank can read. -/
  relevant : DofSet
  /-- The owned indices belong to the degrees of freedom. -/
  owned_size : owned.size = n
  /-- The relevant indices belong to the degrees of freedom. -/
  relevant_size : relevant.size = n
  /-- An owned index is relevant. -/
  owned_subset : ∀ i ∈ owned, i ∈ relevant
deriving DecidableEq

namespace Partition

variable {n : Nat}

/-- The partition with the given owned and relevant indices. -/
def ofSets (n : Nat) (owned relevant : DofSet) : Except Violation (Partition n) :=
  if ho : owned.size = n then
    if hr : relevant.size = n then
      if h : owned.isSubset relevant = true then
        .ok ⟨owned, relevant, ho, hr, DofSet.isSubset_iff.1 h⟩
      else .error .ownedNotRelevant
    else .error .spaceOfPartition
  else .error .spaceOfPartition

/-- The block of `0, …, n - 1` that belongs to a rank, without ghosts. The first `n % size` ranks
own one index more than the others. -/
def contiguous (n rank size : Nat) : Except Violation (Partition n) :=
  if rank < size then do
    let base := n / size
    let extra := n % size
    let first := rank * base + min rank extra
    let last := first + base + if rank < extra then 1 else 0
    let owned ← DofSet.ofRange n first last
    ofSets n owned owned
  else
    .error (.rankOutside rank size)

/-- A single rank that owns everything. -/
def serial (n : Nat) : Except Violation (Partition n) := contiguous n 0 1

/-- The partition in which every column that `pattern` couples to an owned row is relevant too. -/
def withGhosts (p : Partition n) (pattern : Pattern) : Except Violation (Partition n) :=
  if pattern.rows = n then do
    let ghosts := p.owned.elements.flatMap pattern.lane
    let relevant ← DofSet.ofList n (p.relevant.elements ++ ghosts)
    ofSets n p.owned relevant
  else
    .error .rowPerDof

/-- Whether this rank owns an index. -/
def owns (p : Partition n) (i : Nat) : Bool := p.owned.contains i

/-- Whether this rank can read an index. -/
def reads (p : Partition n) (i : Nat) : Bool := p.relevant.contains i

@[simp] theorem owns_iff {p : Partition n} {i : Nat} : p.owns i = true ↔ i ∈ p.owned :=
  DofSet.contains_iff

@[simp] theorem reads_iff {p : Partition n} {i : Nat} : p.reads i = true ↔ i ∈ p.relevant :=
  DofSet.contains_iff

/-- An owned index is a degree of freedom. -/
theorem lt_of_mem_owned {p : Partition n} {i : Nat} (h : i ∈ p.owned) : i < n :=
  p.owned_size ▸ p.owned.bounded i h

/-- A relevant index is a degree of freedom. -/
theorem lt_of_mem_relevant {p : Partition n} {i : Nat} (h : i ∈ p.relevant) : i < n :=
  p.relevant_size ▸ p.relevant.bounded i h

/-- Whether two partitions, possibly of different numbers of degrees of freedom, are the same. -/
def agrees {m : Nat} (p : Partition n) (q : Partition m) : Bool :=
  p.owned == q.owned && p.relevant == q.relevant

/-- Partitions of the same degrees of freedom agree if and only if they are equal. -/
theorem agrees_iff {p q : Partition n} : p.agrees q = true ↔ p = q := by
  cases p
  cases q
  simp [agrees]

end Partition

end DualHessian
