import DualHessian.Proofs.Distributed.Values
import Mathlib.Algebra.Field.Rat

/-!
# Bringing ghosts up to date

A group keeps one authoritative value for each degree of freedom, that of its owner. Copies on other
ranks may be out of date, and they count for nothing when the ranks gather the global vector or
bring their copies up to date. No law of arithmetic is used.

* `Group.ownersVector_congr` says that the gathered vector depends on what the owners hold only.
* `Group.refreshed` is what the ranks hold when all copies are up to date, and
  `Group.achieves_refreshGhosts` says that they come to hold it.
* `Group.ghosts_follow_owners` puts gathering and updating together.
-/

namespace DualHessian

namespace Group

variable {α : Type} [Arithmetic α] {n size : Nat} {p : Fin size → Partition n}

/-- Copies that are out of date do not show in the vector that the ranks gather. -/
theorem ownersVector_congr (hdivide : Partition.Divide p)
    {v w : (r : Fin size) → LocalVector α (p r)}
    (h : ∀ r, ∀ i ∈ (p r).owned, (w r).get? i = (v r).get? i) :
    ownersVector w = ownersVector v := by
  refine ownersVector_eq hdivide fun r => LocalVector.entriesOf_ownedEntries_iff.2 fun i hi => ?_
  rw [getElem?_ownersVector hdivide v hi, h r i hi]

/-- What the ranks hold when every copy is the value of the owner. -/
def refreshed (v : (r : Fin size) → LocalVector α (p r)) (r : Fin size) : LocalVector α (p r) :=
  .ofVector (p r) (ownersVector v)

theorem get?_refreshed (hdivide : Partition.Divide p) (v : (r : Fin size) → LocalVector α (p r))
    {r owner : Fin size} {i : Nat} (hr : i ∈ (p r).relevant) (howner : i ∈ (p owner).owned) :
    (refreshed v r).get? i = (v owner).get? i := by
  rw [refreshed, LocalVector.get?_ofVector, if_pos hr, getElem?_ownersVector hdivide v howner]

theorem ownersVector_refreshed (hdivide : Partition.Divide p)
    (v : (r : Fin size) → LocalVector α (p r)) : ownersVector (refreshed v) = ownersVector v :=
  ownersVector_ofVector hdivide (ownersVector v)

/-- Each rank sets its entries to the owned ones of all ranks, among which all indices occur. -/
private theorem foldl_setAll_eq (hdivide : Partition.Divide p)
    (v : (r : Fin size) → LocalVector α (p r)) (r : Fin size) :
    (List.ofFn fun s => (v s).ownedEntries).foldl LocalVector.setAll (v r) = refreshed v r := by
  let sent := (List.ofFn fun s => (v s).ownedEntries).flatten
  have hflat : (List.ofFn fun s => (v s).ownedEntries).foldl LocalVector.setAll (v r) =
      (v r).setAll sent := List.foldl_flatten.symm
  have hentries : EntriesOf (ownersVector v) sent.reverse := by
    intro e he
    obtain ⟨s, hs⟩ := mem_flatten_ownedEntries.1 (List.mem_reverse.1 he)
    have hread : ∀ i ∈ (p s).owned, (ownersVector v)[i]? = (v s).get? i := fun i hi =>
      getElem?_ownersVector hdivide v hi
    exact LocalVector.entriesOf_ownedEntries_iff.2 hread e hs
  -- What the last one of the senders says counts, hence the reversal; but there is only one.
  rw [hflat]
  refine LocalVector.ext_get? fun i hi => ?_
  -- The owner of the index sends its value, so one is found, and it takes the place of the old one.
  obtain ⟨owner, howner, _⟩ := hdivide i ((p r).lt_of_mem_relevant hi)
  have hsent : i ∈ sent.reverse.map (·.1) := by
    obtain ⟨e, he, rfl⟩ := List.mem_map.1 (LocalVector.mem_ownedEntries (v := v owner).2 howner)
    exact List.mem_map.2 ⟨e, List.mem_reverse.2 (mem_flatten_ownedEntries.2 ⟨owner, he⟩), rfl⟩
  obtain ⟨old, hold⟩ := Option.isSome_iff_exists.1 (LocalVector.isSome_get?_iff (v := v r).2 hi)
  obtain ⟨new, hnew⟩ := Option.isSome_iff_exists.1
    (LocalVector.isSome_get?_iff (v := v owner).2 ((p owner).owned_subset i howner))
  rw [LocalVector.get?_setAll, hentries.lookup, if_pos hsent, get?_refreshed hdivide v hi howner,
    getElem?_ownersVector hdivide v howner, hold, hnew]
  rfl

/-- All ranks bring their copies up to date. -/
theorem achieves_refreshGhosts {P : Interface} {R : Replies P size}
    (hdivide : Partition.Divide p) (v : (r : Fin size) → LocalVector α (p r)) :
    Achieves R (fun w => w = refreshed v) fun r =>
      ((v r).refreshGhosts : Task α P (LocalVector α (p r))) := by
  refine (achieves_gatherAll .pairs fun r => (v r).ownedEntries).andThen _ ?_
  rintro _ rfl
  exact .of_eq_pure (fun r => congrArg Pure.pure (foldl_setAll_eq hdivide v r)) rfl

/-! ## Gathering and updating -/

/-- All ranks gather the same vector from what they hold. -/
def Gathers (v : (r : Fin size) → LocalVector α (p r)) (x : Vector α n) : Prop :=
  Returns (fun r => ((v r).global : Task α .closed (Vector α n)).run) fun _ => .ok x

/-- Bringing the copies up to date, the ranks come to hold other parts. -/
def Refreshes (v w : (r : Fin size) → LocalVector α (p r)) : Prop :=
  Returns (fun r => ((v r).refreshGhosts : Task α .closed (LocalVector α (p r))).run)
    fun r => .ok (w r)

theorem gathers_ownersVector (hdivide : Partition.Divide p)
    (v : (r : Fin size) → LocalVector α (p r)) : Gathers v (ownersVector v) :=
  (achieves_ownersVector hdivide v).returns_ok

theorem refreshes_refreshed (hdivide : Partition.Divide p)
    (v : (r : Fin size) → LocalVector α (p r)) : Refreshes v (refreshed v) :=
  (achieves_refreshGhosts hdivide v).returns_ok

/-- Gathering and updating follow the owners. From whatever the ranks hold, they gather the values
of the owners, and the same if any copies are changed; from the parts of a vector they gather that
vector. When they bring their copies up to date, every rank holds the owners' values, so the owners
keep theirs and all ranks agree where they hold the same entry; doing it once more changes nothing,
and the ranks still gather the same vector. -/
theorem ghosts_follow_owners (hdivide : Partition.Divide p)
    (v : (r : Fin size) → LocalVector α (p r)) :
    ∃ (x : Vector α n) (w : (r : Fin size) → LocalVector α (p r)),
      Gathers v x ∧
      (∀ r, ∀ i ∈ (p r).owned, x[i]? = (v r).get? i) ∧
      (∀ v' : (r : Fin size) → LocalVector α (p r),
        (∀ r, ∀ i ∈ (p r).owned, (v' r).get? i = (v r).get? i) → Gathers v' x) ∧
      (∀ y : Vector α n, ∃ parts : (r : Fin size) → LocalVector α (p r),
        (∀ r, LocalVector.ofList (p r) y.toList = .ok (parts r)) ∧ Gathers parts y) ∧
      Refreshes v w ∧
      (∀ r owner, ∀ i ∈ (p r).relevant, i ∈ (p owner).owned →
        (w r).get? i = (v owner).get? i) ∧
      (∀ r, ∀ i ∈ (p r).owned, (w r).get? i = (v r).get? i) ∧
      (∀ r s, ∀ i ∈ (p r).relevant, i ∈ (p s).relevant → (w r).get? i = (w s).get? i) ∧
      Refreshes w w ∧
      Gathers w x := by
  have hcurrent : ∀ r owner, ∀ i ∈ (p r).relevant, i ∈ (p owner).owned →
      (refreshed v r).get? i = (v owner).get? i :=
    fun r owner i hr howner => get?_refreshed hdivide v hr howner
  refine ⟨ownersVector v, refreshed v, gathers_ownersVector hdivide v,
    fun r i hi => getElem?_ownersVector hdivide v hi, fun v' h => ?_, fun y => ?_,
    refreshes_refreshed hdivide v, hcurrent,
    fun r i hi => hcurrent r r i ((p r).owned_subset i hi) hi, fun r s i hr hs => ?_, ?_, ?_⟩
  · exact ownersVector_congr hdivide h ▸ gathers_ownersVector hdivide v'
  · -- The parts of a vector hold its values everywhere, so at the owners as well.
    refine ⟨fun r => .ofVector (p r) y, fun r => LocalVector.ofList_toList (p r) y, ?_⟩
    have hgathers := gathers_ownersVector hdivide fun r => LocalVector.ofVector (p r) y
    rwa [ownersVector_ofVector hdivide y] at hgathers
  · -- Both hold the value of the owner.
    obtain ⟨owner, howner, _⟩ := hdivide i ((p r).lt_of_mem_relevant hr)
    rw [hcurrent r owner i hr howner, hcurrent s owner i hs howner]
  · -- An update depends on the owners' values, and has left these alone.
    have hsame : refreshed (refreshed v) = refreshed v := by
      funext r
      rw [refreshed, ownersVector_refreshed hdivide v, refreshed]
    have hagain := refreshes_refreshed hdivide (refreshed v)
    rwa [hsame] at hagain
  · exact ownersVector_refreshed hdivide v ▸ gathers_ownersVector hdivide (refreshed v)

/-- Two ranks that hold each other's entry, both copies out of date. -/
theorem ghosts_follow_owners_two_ranks :
    let v : (r : Fin 2) → LocalVector Rat (Partition.mirrored r) := fun r =>
      ⟨if r = 0 then [1, 7] else [5, 2], by revert r; decide⟩
    Gathers v #v[1, 2] ∧
      ∃ w, Refreshes v w ∧ (w 0).get? 0 = some 1 ∧ (w 0).get? 1 = some 2 ∧
        (w 1).get? 0 = some 1 ∧ (w 1).get? 1 = some 2 ∧ Refreshes w w ∧ Gathers w #v[1, 2] := by
  intro v
  obtain ⟨x, w, hx, howned, -, -, hw, hcurrent, -, -, hagain, hgathered⟩ :=
    ghosts_follow_owners Partition.divide_mirrored v
  have hvalue : x = #v[1, 2] := by
    have hzero : x[0]? = some 1 := howned 0 0 (by decide)
    have hone : x[1]? = some 2 := howned 1 1 (by decide)
    ext i hi
    match i, hi with
    | 0, _ => simpa using hzero
    | 1, _ => simpa using hone
  subst hvalue
  exact ⟨hx, w, hw, hcurrent 0 0 0 (by decide) (by decide), hcurrent 0 1 1 (by decide) (by decide),
    hcurrent 1 0 0 (by decide) (by decide), hcurrent 1 1 1 (by decide) (by decide), hagain,
    hgathered⟩

end Group

end DualHessian
