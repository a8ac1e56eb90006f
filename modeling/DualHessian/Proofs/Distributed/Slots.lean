import DualHessian.Proofs.Distributed.Values
import DualHessian.Proofs.Dofs.Canonical

/-!
# A distributed vector as a map

A distributed vector keeps its values one behind the other and is accessed by index. It works as a
map on the relevant indices that forgets nothing and mixes nothing up.

* `Slots` is a list of values beside a list of indices, with nothing known about either. An index is
  searched by halving, and its place is that of its value. `LocalVector.slots` is what a distributed
  vector shows of itself.
* `Write` is a change of values, and `latest` the value that a history of changes has left at an
  index.
* `LocalVector.get?_written` says that this value is read, and `LocalVector.slots_written` that the
  slots are those that the same changes leave by place.
* `LocalVector.works_as_map` collects what holds of every vector that can come about.
-/

namespace DualHessian

/-! ## Values by place -/

/-- Values in the order of a list of indices, with nothing known about them. -/
structure Slots (α : Type) where
  /-- The indices. -/
  indices : List Nat
  /-- The values. -/
  values : List α

namespace Slots

variable {α : Type}

/-- The value at the place of an index. -/
def get? (s : Slots α) (i : Nat) : Option α := (bisect s.indices i).bind fun k => s.values[k]?

/-- Changes the value at the place of an index, and says whether there is one. -/
def modify (s : Slots α) (i : Nat) (f : α → α) : Bool × Slots α :=
  match bisect s.indices i with
  | some k => (true, { s with values := s.values.modify k f })
  | none => (false, s)

/-- Changes all values to the same one. -/
def fill (s : Slots α) (x : α) : Slots α := { s with values := .replicate s.values.length x }

end Slots

/-! ## Histories -/

/-- A change of the values of a vector. -/
inductive Write (α : Type) where
  /-- The value at an index is set. -/
  | set (i : Nat) (x : α)
  /-- The value at an index is changed, by what stands there. -/
  | update (i : Nat) (f : α → α)
  /-- All values are set to the same one. -/
  | fill (x : α)

/-- How a vector begins. -/
inductive Origin (α : Type) where
  /-- With zeros. -/
  | zeros
  /-- With the entries of a global vector. -/
  | global (xs : List α)

namespace Origin

variable {α : Type} [Zero α]

/-- The value with which an index begins. -/
def value : Origin α → Nat → α
  | zeros, _ => 0
  | global xs, i => xs.getD i 0

/-- A global vector has one entry for each degree of freedom. -/
def Fits (n : Nat) : Origin α → Prop
  | zeros => True
  | global xs => xs.length = n

/-- The vector, or why there is none. -/
def make {n : Nat} (p : Partition n) : Origin α → Except Violation (LocalVector α p)
  | zeros => .ok (.zeros p)
  | global xs => LocalVector.ofList p xs

/-- The values of listed indices. -/
def slots (is : List Nat) : Origin α → Slots α
  | zeros => ⟨is, .replicate is.length 0⟩
  | global xs => ⟨is, is.map fun i => xs.getD i 0⟩

end Origin

/-- The value that a history has left at an index. The newest change comes first. -/
def latest {α : Type} [Zero α] (origin : Origin α) (i : Nat) : List (Write α) → α
  | [] => origin.value i
  | .set j x :: earlier => if i = j then x else latest origin i earlier
  | .update j f :: earlier => if i = j then f (latest origin i earlier) else latest origin i earlier
  | .fill x :: _ => x

namespace Slots

variable {α : Type}

/-- Makes a change by place. -/
def write (s : Slots α) : Write α → Slots α
  | .set i x => (s.modify i fun _ => x).2
  | .update i f => (s.modify i f).2
  | .fill x => s.fill x

/-- Makes the changes of a history by place, the newest one last. -/
def written (s : Slots α) : List (Write α) → Slots α
  | [] => s
  | w :: earlier => (s.written earlier).write w

end Slots

namespace LocalVector

variable {α : Type} {n : Nat} {p : Partition n}

/-- What a vector shows of itself. -/
def slots (v : LocalVector α p) : Slots α := ⟨p.relevant.elements, v.values⟩

/-- Makes a change. -/
def write (v : LocalVector α p) : Write α → LocalVector α p
  | .set i x => (v.put i x).2
  | .update i f => v.modify i f
  | .fill x => v.fill x

/-- Makes the changes of a history, the newest one last. -/
def written (v : LocalVector α p) : List (Write α) → LocalVector α p
  | [] => v
  | w :: earlier => (v.written earlier).write w

/-! ## Places of values -/

private theorem lookup_zip {i : Nat} {is : List Nat} {xs : List α} :
    (is.zip xs).lookup i = (is.idxOf? i).bind fun k => xs[k]? := by
  induction is generalizing xs with
  | nil => rfl
  | cons j is ih =>
    cases xs with
    | nil => simp
    | cons x xs =>
      by_cases hij : i = j
      · subst hij
        simp [List.idxOf?_cons]
      · have hji : (j == i) = false := beq_false_of_ne (Ne.symm hij)
        have hij' : (i == j) = false := beq_false_of_ne hij
        simp [List.idxOf?_cons, List.lookup_cons, hji, hij', ih, Option.bind_map]

/-- The value of an entry is in the slot at its place. -/
theorem get?_eq (v : LocalVector α p) (i : Nat) :
    v.get? i = (p.relevant.position? i).bind fun k => v.values[k]? := lookup_zip

/-- The value at an index stands at the place of the index. -/
theorem get?_of_place {v : LocalVector α p} {i k : Nat} (h : p.relevant.position? i = some k) :
    v.get? i = v.values[k]? := by
  rw [get?_eq, h, Option.bind_some]

/-- Entries that are not relevant have no value. -/
theorem get?_eq_none {v : LocalVector α p} {i : Nat} (h : i ∉ p.relevant) : v.get? i = none :=
  Option.not_isSome_iff_eq_none.1 fun hsome => h (isSome_get?_iff.1 hsome)

/-- Every relevant entry has a place. -/
theorem exists_place {i : Nat} (h : i ∈ p.relevant) : ∃ k, p.relevant.position? i = some k :=
  Option.isSome_iff_exists.1 (DofSet.isSome_position?_iff.2 h)

/-- Bisecting the relevant entries finds the place. -/
theorem bisect_relevant (p : Partition n) (i : Nat) :
    bisect p.relevant.elements i = p.relevant.position? i := p.relevant.position?_listing i

/-- Reading by the place of an entry reads its value. -/
theorem get?_slots (v : LocalVector α p) (i : Nat) : v.slots.get? i = v.get? i := by
  rw [get?_eq, ← bisect_relevant]
  rfl

/-- A change at an index that is not relevant changes nothing. -/
theorem modify_of_not_mem {v : LocalVector α p} {i : Nat} (h : i ∉ p.relevant) (f : α → α) :
    v.modify i f = v := by
  refine ext_get? fun j hj => ?_
  have hji : j ≠ i := fun heq => h (heq ▸ hj)
  simp only [get?_modify, if_neg hji, Option.map_id']

/-- A change at one index is one at its place. -/
theorem values_modify {v : LocalVector α p} {i k : Nat} (h : p.relevant.position? i = some k)
    (f : α → α) : (v.modify i f).values = v.values.modify k f := by
  -- The vector with the change made by place answers every index as the changed vector does.
  let w : LocalVector α p := ⟨v.values.modify k f, by rw [List.length_modify, v.length_values]⟩
  have hw : v.modify i f = w := by
    refine ext_get? fun j hj => ?_
    obtain ⟨m, hm⟩ := exists_place hj
    -- Two indices are the same if and only if their places are.
    have hplace : j = i ↔ k = m := by
      constructor
      · rintro rfl
        exact Option.some.inj (h.symm.trans hm)
      · rintro rfl
        exact Option.some.inj ((DofSet.position?_eq_some_iff.1 hm).symm.trans
          (DofSet.position?_eq_some_iff.1 h))
    rw [get?_modify, get?_of_place hm, get?_of_place hm, List.getElem?_modify]
    simp only [hplace]
    rfl
  rw [hw]

/-- Changing the slot at the place of an entry changes its value. -/
theorem slots_modify (v : LocalVector α p) (i : Nat) (f : α → α) :
    v.slots.modify i f = ((v.get? i).isSome, (v.modify i f).slots) := by
  have hsearch : bisect v.slots.indices i = p.relevant.position? i := bisect_relevant p i
  rw [Slots.modify, hsearch]
  cases h : p.relevant.position? i with
  | none =>
    have hi : i ∉ p.relevant := by rw [← DofSet.isSome_position?_iff, h]; exact Bool.false_ne_true
    rw [get?_eq_none hi, modify_of_not_mem hi]
    rfl
  | some k =>
    have hi : i ∈ p.relevant := by rw [← DofSet.isSome_position?_iff, h]; rfl
    rw [isSome_get?_iff.2 hi, slots, slots, values_modify h]

/-- A constant vector holds the constant in every relevant entry. -/
theorem get?_constant (p : Partition n) (x : α) {i : Nat} (h : i ∈ p.relevant) :
    (constant p x).get? i = some x := by
  obtain ⟨k, hk⟩ := exists_place h
  have hlt : k < p.relevant.count :=
    (List.getElem?_eq_some_iff.1 (DofSet.position?_eq_some_iff.1 hk)).1
  rw [get?_of_place hk, constant, List.getElem?_replicate, if_pos hlt]

/-- Filling the slots fills the vector. -/
theorem slots_fill (v : LocalVector α p) (x : α) : v.slots.fill x = (v.fill x).slots := by
  have hfill : v.fill x = constant p x := by
    refine ext_get? fun i hi => ?_
    obtain ⟨y, hy⟩ := Option.isSome_iff_exists.1 (isSome_get?_iff (v := v).2 hi)
    rw [fill, get?_mapEntries, hy, get?_constant p x hi, Option.map_some]
  rw [hfill, Slots.fill, slots, slots, constant, v.length_values]

/-- Writing to the slots writes to the vector. -/
theorem slots_write (v : LocalVector α p) (w : Write α) :
    v.slots.write w = (v.write w).slots := by
  cases w with
  | set i x => rw [Slots.write, slots_modify]; rfl
  | update i f => rw [Slots.write, slots_modify]; rfl
  | fill x => exact v.slots_fill x

/-! ## What a history leaves -/

/-- The slots are those that the same changes leave by place. -/
theorem slots_written (v : LocalVector α p) (history : List (Write α)) :
    (v.written history).slots = v.slots.written history := by
  induction history with
  | nil => rfl
  | cons w earlier ih => rw [written, Slots.written, ← ih, slots_write]

variable [Zero α]

/-- One change makes the value at an index what it leaves there. -/
theorem get?_write {v : LocalVector α p} {i : Nat} {origin : Origin α} {earlier : List (Write α)}
    (h : v.get? i = some (latest origin i earlier)) (w : Write α) :
    (v.write w).get? i = some (latest origin i (w :: earlier)) := by
  cases w with
  | set j x => simp only [write, put, set, get?_modify, h, Option.map_some, latest]
  | update j f => simp only [write, get?_modify, h, Option.map_some, latest]
  | fill x => simp only [write, fill, get?_mapEntries, h, Option.map_some, latest]

/-- After any history of writes, an entry holds the latest of them. -/
theorem get?_written {v : LocalVector α p} {i : Nat} {origin : Origin α}
    (h : v.get? i = some (origin.value i)) (history : List (Write α)) :
    (v.written history).get? i = some (latest origin i history) := by
  induction history with
  | nil => exact h
  | cons w earlier ih => exact get?_write ih w

/-- An origin that fits the partition makes a vector. -/
theorem make_of_fits {origin : Origin α} (h : origin.Fits n) : ∃ v, origin.make p = .ok v := by
  cases origin with
  | zeros => exact ⟨_, rfl⟩
  | global xs =>
    have hlength : xs.toArray.size = n := h
    exact ⟨_, dif_pos hlength⟩

/-- One that does not is refused. -/
theorem make_of_not_fits {origin : Origin α} (h : ¬ origin.Fits n) :
    origin.make p = .error .entryPerDof := by
  cases origin with
  | zeros => exact absurd trivial h
  | global xs =>
    have hlength : ¬ xs.toArray.size = n := h
    exact dif_neg hlength

/-- A new vector holds what its origin says. -/
theorem get?_make {origin : Origin α} {v : LocalVector α p} (h : origin.make p = .ok v) {i : Nat}
    (hi : i ∈ p.relevant) : v.get? i = some (origin.value i) := by
  cases origin with
  | zeros =>
    obtain rfl := Except.ok.inj h
    exact get?_constant p 0 hi
  | global xs =>
    have hlength : xs.toArray.size = n := by
      by_contra hne
      have herror : (Origin.global xs).make p = .error .entryPerDof := make_of_not_fits hne
      cases herror.symm.trans h
    have hv : ofVector p ⟨xs.toArray, hlength⟩ = v :=
      Except.ok.inj ((dif_pos hlength).symm.trans h)
    have hlt : i < xs.length := Nat.lt_of_lt_of_eq (p.lt_of_mem_relevant hi) hlength.symm
    rw [← hv, get?_ofVector, if_pos hi]
    simp [Origin.value, List.getD_eq_getElem?_getD, hlt]

/-- So do its slots. -/
theorem slots_make {origin : Origin α} {v : LocalVector α p} (h : origin.make p = .ok v) :
    v.slots = origin.slots p.relevant.elements := by
  rw [slots, values_eq_map fun i hi => get?_make h hi]
  cases origin with
  | zeros => exact congrArg (Slots.mk _) (List.map_const' ..)
  | global xs => rfl

/-- A distributed vector, with whatever partition, is a map on the relevant indices.

It begins with zeros or with the entries of a global vector, which has to have one for each degree
of freedom. After any history of changes there is one value for each relevant index, in their
ascending order, and these are the values that the same changes leave by place. Each relevant index
has the value that was left there last, and no other index has any. Setting a value succeeds exactly
at a relevant index and changes nothing elsewhere. The entries are the relevant indices with their
values, and the owned entries those of them that are owned. -/
theorem works_as_map (p : Partition n) (origin : Origin α) (history : List (Write α)) :
    (origin.Fits n → ∃ v, origin.make p = .ok v) ∧
    (¬ origin.Fits n → origin.make p = .error .entryPerDof) ∧
    Ascending p.relevant.elements ∧
    ∀ v, origin.make p = .ok v → ∀ w, v.written history = w →
      w.slots = (origin.slots p.relevant.elements).written history ∧
      w.values.length = p.relevant.elements.length ∧
      (∀ i, w.get? i = if i ∈ p.relevant then some (latest origin i history) else none) ∧
      (∀ i, w.slots.get? i = w.get? i) ∧
      (∀ i x, w.slots.modify i (fun _ => x) = ((w.put i x).1, (w.put i x).2.slots) ∧
        ((w.put i x).1 = true ↔ i ∈ p.relevant) ∧
        ∀ j, (w.put i x).2.get? j = if j = i ∧ i ∈ p.relevant then some x else w.get? j) ∧
      w.entries = p.relevant.elements.map (fun i => (i, latest origin i history)) ∧
      w.ownedEntries = p.owned.elements.map (fun i => (i, latest origin i history)) := by
  refine ⟨make_of_fits, make_of_not_fits, p.relevant.sorted, ?_⟩
  rintro v hv w rfl
  have hread : ∀ i ∈ p.relevant, (v.written history).get? i = some (latest origin i history) :=
    fun i hi => get?_written (get?_make hv hi) history
  have hentries := entries_eq_map hread
  refine ⟨?_, (v.written history).length_values, fun i => ?_, get?_slots _,
    fun i x => ⟨slots_modify _ i _, isSome_get?_iff, fun j => ?_⟩, hentries, ?_⟩
  · rw [slots_written, slots_make hv]
  · by_cases hi : i ∈ p.relevant
    · rw [hread i hi, if_pos hi]
    · rw [get?_eq_none hi, if_neg hi]
  · by_cases hi : i ∈ p.relevant
    · by_cases hj : j = i
      · subst hj
        rw [if_pos ⟨rfl, hi⟩, put, set, get?_modify, hread j hi, Option.map_some, if_pos rfl]
      · simp only [put, set, get?_modify, hj, false_and, if_false, Option.map_id']
    · rw [if_neg fun h => hi h.2, put, set, modify_of_not_mem hi]
  · rw [ownedEntries, hentries, List.filter_map, ← filter_owns p]
    rfl

end LocalVector

end DualHessian
