import DualHessian.Dofs.Partition
import DualHessian.Rank.Collective

/-!
# Distributed vectors

A `LocalVector α p` is the part of a global vector that a rank with partition `p` holds: one value
for each relevant index. The values of owned indices count; those of ghosts are copies, which may be
out of date until `refreshGhosts` brings them up to date.

Every change of values is a `mapEntries`, which gives each entry a new value computed from its index
and its old value; `get?` reads the value at an index.
-/

namespace DualHessian

/-- The values of a global vector that one rank holds, in the order of its relevant indices. -/
structure LocalVector (α : Type) {n : Nat} (p : Partition n) where
  /-- The values. -/
  values : List α
  /-- There is one value for each relevant index. -/
  length_values : values.length = p.relevant.count

namespace LocalVector

variable {α : Type} {n : Nat} {p : Partition n}

/-- The vector with the same value everywhere. -/
def constant (p : Partition n) (x : α) : LocalVector α p :=
  ⟨List.replicate p.relevant.count x, List.length_replicate⟩

/-- The zero vector. -/
def zeros [Zero α] (p : Partition n) : LocalVector α p := constant p 0

/-- The relevant entries of a global vector. -/
def ofVector (p : Partition n) (x : Vector α n) : LocalVector α p :=
  ⟨p.relevant.elements.attach.map fun i => x.get ⟨i.1, p.lt_of_mem_relevant i.2⟩, by
    simp [DofSet.count]⟩

/-- The relevant entries of a global vector, if it has one entry per degree of freedom. -/
def ofList (p : Partition n) (xs : List α) : Except Violation (LocalVector α p) :=
  if h : xs.toArray.size = n then .ok (ofVector p ⟨xs.toArray, h⟩) else .error .entryPerDof

/-- The values with their indices, in ascending order. -/
def entries (v : LocalVector α p) : List (Nat × α) := p.relevant.elements.zip v.values

/-- The values of owned indices with their indices, in ascending order. -/
def ownedEntries (v : LocalVector α p) : List (Nat × α) := v.entries.filter fun e => p.owns e.1

/-- The value at an index, if it is relevant. -/
def get? (v : LocalVector α p) (i : Nat) : Option α := v.entries.lookup i

/-- Gives every entry a new value, computed from its index and its old value. -/
def mapEntries (f : Nat → α → α) (v : LocalVector α p) : LocalVector α p where
  values := List.zipWith f p.relevant.elements v.values
  length_values := by
    have := v.length_values
    simp only [DofSet.count] at this ⊢
    simp [this]

private theorem zip_zipWith_self {β : Type} (f : Nat → β → β) (is : List Nat) (xs : List β) :
    is.zip (List.zipWith f is xs) = (is.zip xs).map fun e => (e.1, f e.1 e.2) := by
  induction is generalizing xs with
  | nil => simp
  | cons i is ih =>
    cases xs with
    | nil => simp
    | cons x xs => simp [ih]

private theorem lookup_map_snd {β : Type} (f : Nat → β → β) (i : Nat) (es : List (Nat × β)) :
    (es.map fun e => (e.1, f e.1 e.2)).lookup i = (es.lookup i).map (f i) := by
  induction es with
  | nil => rfl
  | cons e es ih =>
    obtain ⟨j, x⟩ := e
    by_cases h : i = j
    · subst h
      simp
    · have : (i == j) = false := by simpa using h
      simp [List.lookup_cons, this, ih]

/-- The entries after a change of values. -/
theorem entries_mapEntries (f : Nat → α → α) (v : LocalVector α p) :
    (v.mapEntries f).entries = v.entries.map fun e => (e.1, f e.1 e.2) :=
  zip_zipWith_self f p.relevant.elements v.values

/-- The value at an index after a change of values. -/
@[simp] theorem get?_mapEntries (f : Nat → α → α) (v : LocalVector α p) (i : Nat) :
    (v.mapEntries f).get? i = (v.get? i).map (f i) := by
  rw [get?, entries_mapEntries, lookup_map_snd, get?]

/-- The indices of the entries are the relevant indices. -/
theorem map_fst_entries (v : LocalVector α p) : v.entries.map (·.1) = p.relevant.elements :=
  List.map_fst_zip (Nat.le_of_eq v.length_values.symm)

/-- The values of the entries are the values. -/
theorem map_snd_entries (v : LocalVector α p) : v.entries.map (·.2) = v.values :=
  List.map_snd_zip (Nat.le_of_eq v.length_values)

private theorem isSome_lookup_iff {β : Type} {i : Nat} {es : List (Nat × β)} :
    (es.lookup i).isSome = true ↔ i ∈ es.map (·.1) := by
  induction es with
  | nil => simp
  | cons e es ih =>
    obtain ⟨j, x⟩ := e
    by_cases h : i = j
    · subst h
      simp
    · have h' : (i == j) = false := by simpa using h
      simp only [List.lookup_cons, h', List.map_cons, List.mem_cons, h, false_or]
      exact ih

/-- A value can be read exactly at the relevant indices. -/
@[simp] theorem isSome_get?_iff {v : LocalVector α p} {i : Nat} :
    (v.get? i).isSome = true ↔ i ∈ p.relevant := by
  rw [get?, isSome_lookup_iff, map_fst_entries]
  exact Iff.rfl

/-- Changes the value at one index; nothing happens if it is not relevant. -/
def modify (v : LocalVector α p) (i : Nat) (f : α → α) : LocalVector α p :=
  v.mapEntries fun j x => if j = i then f x else x

/-- A change at one index shows there and nowhere else. -/
theorem get?_modify (v : LocalVector α p) (i j : Nat) (f : α → α) :
    (v.modify i f).get? j = (v.get? j).map fun x => if j = i then f x else x :=
  get?_mapEntries _ v j

/-- Sets the value at one index; nothing happens if it is not relevant. -/
def set (v : LocalVector α p) (i : Nat) (x : α) : LocalVector α p := v.modify i fun _ => x

/-- Sets the value at one index, and says whether it is relevant. -/
def put (v : LocalVector α p) (i : Nat) (x : α) : Bool × LocalVector α p :=
  ((v.get? i).isSome, v.set i x)

/-- Sets values one after the other. -/
def setAll (v : LocalVector α p) (pairs : List (Nat × α)) : LocalVector α p :=
  pairs.foldl (fun v e => v.set e.1 e.2) v

/-- Sets every value. -/
def fill (v : LocalVector α p) (x : α) : LocalVector α p := v.mapEntries fun _ _ => x

section Collective

variable [Arithmetic α] {P : Interface}

/-- Gives every entry the value that its owner holds. -/
def refreshGhosts (v : LocalVector α p) : Task α P (LocalVector α p) := do
  let parts ← gatherAll .pairs v.ownedEntries
  return parts.foldl setAll v

/-- The global vector that holds the given values, and zero where there are none. Of two values for
one index the later one counts. -/
def assembleVector (n : Nat) (parts : List (List (Nat × α))) : Vector α n :=
  parts.foldl (fun x part => part.foldl (fun x e => x.setIfInBounds e.1 e.2) x) (.replicate n 0)

/-- The global vector, made of the owned entries of all ranks. They have to belong to it, as they do
if the ranks agree on the number of degrees of freedom. -/
def global (v : LocalVector α p) : Task α P (Vector α n) := do
  let parts ← gatherAll .pairs v.ownedEntries
  if parts.flatten.all fun e => decide (e.1 < n) then
    return assembleVector n parts
  else
    throw (.violated .noSuchEntry)

/-- This rank's share of an inner product: the products of owned entries, added in ascending
order. -/
def dotShare {m : Nat} {q : Partition m} (v : LocalVector α p) (w : LocalVector α q) : α :=
  signedSumOf (((v.entries.zip w.values).filter fun e => p.owns e.1.1).map fun e => e.1.2 * e.2)

/-- The inner product of two vectors over all ranks. -/
def dot {m : Nat} {q : Partition m} (v : LocalVector α p) (w : LocalVector α q) : Task α P α :=
  if p.agrees q then sumOverRanks (v.dotShare w) else throw (.violated .differentPartitions)

end Collective

/-- Whether two vectors are distributed in the same way and hold the same numbers. -/
def same [Magnitude α] {m : Nat} {q : Partition m} (v : LocalVector α p) (w : LocalVector α q) :
    Bool :=
  p.agrees q && (v.values.zip w.values).all fun (x, y) => Magnitude.same x y

end LocalVector

end DualHessian
