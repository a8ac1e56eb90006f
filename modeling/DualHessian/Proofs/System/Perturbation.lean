import DualHessian.Proofs.Distributed.Values

/-!
# Perturbed solutions

What a local vector holds while offsets are added to it, and that the saved entries bring it back.

* `shift` adds the offsets to a global vector; a rank that holds a part of the vector then holds the
  part of the shifted vector, `LocalVector.perturb_ofVector`.
* `LocalVector.get?_perturb` says what the entries of a perturbed vector are.
* `shift_gridPerturbations` says that the perturbations of the sampling grid lead to the points at
  which a mixed derivative is sampled.
* `LocalVector.setAll_perturb` says that every entry gets its value back, also where indices repeat
  or are not relevant.
-/

namespace DualHessian

variable {α : Type} {n : Nat} {p : Partition n}

/-! ## Shifting -/

/-- A global vector with offsets added to its entries, one after the other. -/
def shift [Add α] (x : Vector α n) (perturbations : List (Perturbation α)) : Vector α n :=
  perturbations.foldl
    (fun x d => x.mapIdx fun i y => if i = d.index then y + d.offset else y) x

/-- A perturbed part of a global vector is the part of the shifted vector. -/
theorem LocalVector.perturb_ofVector [Add α] (p : Partition n) (x : Vector α n)
    (perturbations : List (Perturbation α)) :
    (ofVector p x).perturb perturbations = ofVector p (shift x perturbations) := by
  induction perturbations generalizing x with
  | nil => rfl
  | cons d perturbations ih =>
    have hstep : (ofVector p x).modify d.index (· + d.offset) =
        ofVector p (x.mapIdx fun i y => if i = d.index then y + d.offset else y) :=
      mapEntries_ofVector _ x
    exact (congrArg (perturb · perturbations) hstep).trans (ih _)

/-- The perturbations of the grid lead to the points at which a mixed derivative is sampled. -/
theorem shift_gridPerturbations [Arithmetic α] (x : Vector α n) (i j : Fin n) (h : α)
    (d : Int × Int) : shift x (gridPerturbations h i j d) = perturbed x i j h d := by
  ext k hk
  show _ = (perturbed x i j h d).get ⟨k, hk⟩
  rw [get_perturbed]
  unfold shift gridPerturbations
  simp only [List.foldl_cons, List.foldl_nil, Vector.getElem_mapIdx, Fin.ext_iff]
  rfl

/-- The offsets added to one entry, in their order. -/
def offsetsAt (perturbations : List (Perturbation α)) (i : Nat) : List α :=
  (perturbations.filter (·.index == i)).map (·.offset)

/-- A perturbed entry has all its offsets added in their order, and any other entry is as it was. -/
theorem LocalVector.get?_perturb [Add α] (v : LocalVector α p)
    (perturbations : List (Perturbation α)) (i : Nat) :
    (v.perturb perturbations).get? i =
      (v.get? i).map fun x => (offsetsAt perturbations i).foldl (· + ·) x := by
  induction perturbations generalizing v with
  | nil => simp [perturb, offsetsAt]
  | cons d perturbations ih =>
    have hstep : v.perturb (d :: perturbations) =
        (v.modify d.index (· + d.offset)).perturb perturbations := rfl
    rw [hstep, ih, get?_modify, Option.map_map]
    refine congrArg (Option.map · (v.get? i)) (funext fun x => ?_)
    by_cases hi : i = d.index
    · simp [offsetsAt, hi]
    · simp [offsetsAt, hi, Ne.symm hi]

/-! ## Restoring -/

namespace LocalVector

variable {perturbations : List (Perturbation α)}

theorem get?_perturb_of_not_mem [Add α] {v : LocalVector α p} {i : Nat}
    (h : i ∉ perturbations.map (·.index)) : (v.perturb perturbations).get? i = v.get? i := by
  have hnone : perturbations.filter (·.index == i) = [] := by
    apply List.filter_eq_nil_iff.2
    intro d hd hi
    exact h (List.mem_map.2 ⟨d, hd, by simpa using hi⟩)
  rw [get?_perturb, offsetsAt, hnone]
  exact Option.map_id'

-- The induction is on the perturbations, from any indices that have been collected before.
private theorem mem_foldl_indices {v : LocalVector α p} {i : Nat} {is : List Nat} :
    i ∈ perturbations.foldl (fun is d =>
        if (v.get? d.index).isSome && !is.contains d.index then is ++ [d.index] else is) is ↔
      i ∈ is ∨ i ∈ perturbations.map (·.index) ∧ i ∈ p.relevant := by
  induction perturbations generalizing is with
  | nil => simp
  | cons d perturbations ih =>
    rw [List.foldl_cons, ih, List.map_cons, List.mem_cons]
    have hsome : (v.get? d.index).isSome = true ↔ d.index ∈ p.relevant := isSome_get?_iff
    -- The index is either collected now, or not relevant, or there already.
    split
    · rename_i hnew
      rw [Bool.and_eq_true, hsome] at hnew
      rw [List.mem_append, List.mem_singleton]
      constructor
      · rintro ((hi | rfl) | ⟨hi, hr⟩)
        · exact .inl hi
        · exact .inr ⟨.inl rfl, hnew.1⟩
        · exact .inr ⟨.inr hi, hr⟩
      · rintro (hi | ⟨rfl | hi, hr⟩)
        · exact .inl (.inl hi)
        · exact .inl (.inr rfl)
        · exact .inr ⟨hi, hr⟩
    · rename_i hold
      constructor
      · rintro (hi | ⟨hi, hr⟩)
        · exact .inl hi
        · exact .inr ⟨.inr hi, hr⟩
      · rintro (hi | ⟨rfl | hi, hr⟩)
        · exact .inl hi
        · -- A relevant index that is passed over has been met before.
          left
          simpa [hsome.2 hr] using hold
        · exact .inr ⟨hi, hr⟩

/-- The perturbed indices are the relevant ones among those of the perturbations. -/
theorem mem_perturbedIndices {v : LocalVector α p} {i : Nat} :
    i ∈ v.perturbedIndices perturbations ↔
      i ∈ perturbations.map (·.index) ∧ i ∈ p.relevant := by
  rw [perturbedIndices, mem_foldl_indices]
  simp

private theorem lookup_filterMap {f : Nat → Option α} {is : List Nat} {i : Nat} :
    (is.filterMap fun j => (f j).map fun x => (j, x)).lookup i = if i ∈ is then f i else none := by
  induction is with
  | nil => rfl
  | cons j is ih =>
    by_cases hij : i = j
    · subst hij
      rw [if_pos List.mem_cons_self]
      cases hi : f i with
      | none =>
        rw [List.filterMap_cons_none (by rw [hi, Option.map_none]), ih, hi, ite_self]
      | some x =>
        rw [List.filterMap_cons_some (b := (i, x)) (by rw [hi, Option.map_some]), List.lookup_cons,
          beq_self_eq_true]
    · have hmem : i ∈ j :: is ↔ i ∈ is := by simp [hij]
      simp only [hmem]
      cases hj : f j with
      | none => rw [List.filterMap_cons_none (by rw [hj, Option.map_none]), ih]
      | some x =>
        rw [List.filterMap_cons_some (b := (j, x)) (by rw [hj, Option.map_some]), List.lookup_cons,
          beq_false_of_ne hij, ih]

theorem lookup_perturbedEntries {v : LocalVector α p} {i : Nat} (h : i ∈ p.relevant) :
    (v.perturbedEntries perturbations).lookup i =
      if i ∈ perturbations.map (·.index) then v.get? i else none := by
  rw [perturbedEntries, lookup_filterMap]
  simp [mem_perturbedIndices, h]

/-- Setting the perturbed entries to the saved values undoes the perturbation. -/
theorem setAll_perturb [Add α] (v : LocalVector α p) (perturbations : List (Perturbation α)) :
    (v.perturb perturbations).setAll (v.perturbedEntries perturbations).reverse = v := by
  apply ext_get?
  intro i hi
  rw [get?_setAll, List.reverse_reverse, lookup_perturbedEntries hi]
  by_cases hmem : i ∈ perturbations.map (·.index)
  · -- The value is overwritten, whatever has been added to it.
    obtain ⟨x, hx⟩ := Option.isSome_iff_exists.1 (isSome_get?_iff.2 hi : (v.get? i).isSome = true)
    obtain ⟨y, hy⟩ := Option.isSome_iff_exists.1
      (isSome_get?_iff.2 hi : ((v.perturb perturbations).get? i).isSome = true)
    rw [if_pos hmem, hx, hy]
    rfl
  · rw [if_neg hmem, get?_perturb_of_not_mem hmem]
    simp

end LocalVector

end DualHessian
