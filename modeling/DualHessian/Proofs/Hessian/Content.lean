import DualHessian.Proofs.Differences.Pointwise
import DualHessian.Proofs.Hessian.Lockstep
import DualHessian.Proofs.Sparse.Entries

/-!
# What an assembled Hessian holds

Every position of an assembled Hessian gets its value from one pair: that of the smaller and the
larger index. A rank deposits the value of a pair once for the position and, off the diagonal, once
for the transposed position, if it owns the row.

* `Tally.valuesAt_deposits` is this for a single rank, for any tally with pairs `i ≤ j`, and
  `Tally.valuesAt_ofFound` for one that has found a value for every pair.
* `Assembler.valuesAt_found` is this for a group whose ranks obtain the same estimates, and
  `Assembler.get?_found` what the owner of a row reads.
-/

namespace DualHessian

variable {α : Type} {n : Nat}

/-! ## One rank -/

namespace Tally

/-- The derivatives kept are those found whose magnitudes are not below the tolerance. -/
theorem kept_ofFound [Magnitude α] (tolerance : α) (found : List (Fin n × Fin n × α)) :
    (ofFound tolerance found).kept =
      found.filter fun e => !Magnitude.less (Magnitude.abs e.2.2) tolerance := by
  induction found using List.reverseRecOn with
  | nil => rfl
  | append_singleton before e ih =>
    rw [ofFound_append, add, List.filter_append]
    cases hless : Magnitude.less (Magnitude.abs e.2.2) tolerance with
    | true =>
      rw [if_pos rfl, List.filter_cons_of_neg (by simp [hless]), List.filter_nil, List.append_nil]
      exact ih
    | false =>
      rw [if_neg (by simp), List.filter_cons_of_pos (by simp [hless]), ← ih]
      rfl

variable {p : Partition n} {a b : Fin n}

private theorem valuesAt_ite {c : Prop} [Decidable c] (i j : Fin n) (value : α) :
    valuesAt (if c then [Entry.mk i.val j.val value] else []) a b =
      if c ∧ i = a ∧ j = b then [value] else [] := by
  by_cases hc : c
  · by_cases hat : i = a ∧ j = b
    · obtain ⟨rfl, rfl⟩ := hat
      simp [valuesAt, hc, Entry.isAt]
    · have hne : (Entry.mk i.val j.val value).isAt a b = false := by
        simpa [Entry.isAt, Fin.val_inj] using hat
      rw [if_pos hc, if_neg fun h => hat h.2, valuesAt, List.filter_cons_of_neg (by simp [hne])]
      rfl
  · rw [if_neg hc, if_neg fun h => hc h.1, valuesAt_nil]

private theorem valuesAt_ownEntries (ha : a.val ∈ p.owned) {i j : Fin n} (hij : i ≤ j) (value : α) :
    valuesAt (ownEntries p i j value) a b =
      if i = min a b ∧ j = max a b then [value] else [] := by
  rw [ownEntries, valuesAt_append, valuesAt_ite, valuesAt_ite]
  have howns : p.owns a = true := Partition.owns_iff.2 ha
  -- The position itself and the transposed one are the same only on the diagonal.
  by_cases hfirst : i = a ∧ j = b
  · obtain ⟨rfl, rfl⟩ := hfirst
    have hsecond : ¬((i ≠ j ∧ p.owns j = true) ∧ j = i ∧ i = j) := fun h => h.1.1 h.2.2
    rw [if_pos ⟨howns, rfl, rfl⟩, if_neg hsecond, min_eq_left hij, max_eq_right hij,
      if_pos ⟨rfl, rfl⟩]
    rfl
  · rw [if_neg fun h => hfirst h.2, List.nil_append]
    refine if_congr ?_ rfl rfl
    constructor
    · rintro ⟨_, rfl, rfl⟩
      exact ⟨(min_eq_right hij).symm, (max_eq_left hij).symm⟩
    · rintro ⟨rfl, rfl⟩
      -- The pair is not the position itself, so it is the transposed one.
      rcases le_total a b with hle | hle
      · exact absurd ⟨min_eq_left hle, max_eq_right hle⟩ hfirst
      · rw [min_eq_right hle, max_eq_left hle] at hfirst ⊢
        exact ⟨⟨fun h => hfirst ⟨h, h.symm⟩, howns⟩, rfl, rfl⟩

/-- What a rank has deposited for a position of a row that it owns: the values of the pair of the
smaller and the larger index. -/
theorem valuesAt_deposits (ha : a.val ∈ p.owned) {t : Tally α n} (ht : ∀ e ∈ t.kept, e.1 ≤ e.2.1) :
    valuesAt (t.deposits p).entries a b =
      (t.kept.filter fun e => decide (e.1 = min a b ∧ e.2.1 = max a b)).map (·.2.2) := by
  show valuesAt (t.kept.flatMap fun e => ownEntries p e.1 e.2.1 e.2.2) a b = _
  generalize t.kept = kept at ht ⊢
  induction kept with
  | nil => rfl
  | cons e kept ih =>
    rw [List.flatMap_cons, valuesAt_append, ih fun e' he' => ht e' (List.mem_cons_of_mem e he'),
      valuesAt_ownEntries ha (ht e List.mem_cons_self)]
    by_cases hpair : e.1 = min a b ∧ e.2.1 = max a b
    · rw [if_pos hpair, List.filter_cons_of_pos (by simpa using hpair), List.map_cons]
      rfl
    · rw [if_neg hpair, List.filter_cons_of_neg (by simpa using hpair), List.nil_append]

/-- What a rank that has found the values of all pairs deposits for a position of a row that it
owns: the value of the pair of the smaller and the larger index, if the pair is present and the
magnitude of the value is not below the tolerance. -/
theorem valuesAt_ofFound [Magnitude α] {tolerance : α} {present : Nat → Nat → Bool}
    {value : Fin n → Fin n → α} (ha : a.val ∈ p.owned) :
    valuesAt ((ofFound tolerance (((upperPairs n).filter fun e => present e.1 e.2).map
      fun e => (e.1, e.2, value e.1 e.2))).deposits p).entries a b =
        if present (min a b : Fin n) (max a b : Fin n) = true ∧
            Magnitude.less (Magnitude.abs (value (min a b) (max a b))) tolerance = false then
          [value (min a b) (max a b)]
        else [] := by
  -- The pair is listed once.
  have hsingle : (upperPairs n).filter (fun e => decide (e = (min a b, max a b))) =
      [(min a b, max a b)] := by
    have hmem : (min a b, max a b) ∈ upperPairs n :=
      mem_upperPairs.2 ((min_le_left a b).trans (le_max_left a b))
    rw [List.filter_eq, List.count_eq_one_of_mem (nodup_upperPairs n) hmem, List.replicate_one]
  -- It is kept if it is present and its derivative is not too small.
  have hkept : (ofFound tolerance (((upperPairs n).filter fun e => present e.1 e.2).map
      fun e => (e.1, e.2, value e.1 e.2))).kept = ((upperPairs n).filter fun e =>
        present e.1 e.2 && !Magnitude.less (Magnitude.abs (value e.1 e.2)) tolerance).map
          fun e => (e.1, e.2, value e.1 e.2) := by
    rw [kept_ofFound, List.filter_map, List.filter_filter]
    refine congrArg (List.map _) (List.filter_congr fun e _ => ?_)
    exact Bool.and_comm ..
  have hle : ∀ e ∈ (ofFound tolerance (((upperPairs n).filter fun e => present e.1 e.2).map
      fun e => (e.1, e.2, value e.1 e.2))).kept, e.1 ≤ e.2.1 := by
    intro e he
    rw [hkept] at he
    obtain ⟨pair, hpair, rfl⟩ := List.mem_map.1 he
    exact mem_upperPairs.1 (List.mem_filter.1 hpair).1
  have hpair : ∀ e : Fin n × Fin n,
      decide (e.1 = min a b ∧ e.2 = max a b) = decide (e = (min a b, max a b)) := by
    intro e
    rw [decide_eq_decide, Prod.ext_iff]
  rw [valuesAt_deposits ha hle, hkept, List.filter_map, List.map_map, List.filter_filter]
  simp only [Function.comp_def, hpair, Bool.and_comm (decide _)]
  rw [← List.filter_filter, hsingle]
  split
  · rename_i h
    rw [List.filter_cons_of_pos (by rw [h.1, h.2]; rfl)]
    rfl
  · rename_i h
    rw [List.filter_cons_of_neg (by simpa using h)]
    rfl

end Tally

/-! ## A group -/

namespace Assembler

/-- The ranks together see all of a pattern: the owner of a row sees that row. -/
theorem anyHolds_restrict {size : Nat} {p : Fin size → Partition n}
    (hdivide : Partition.Divide p) (pattern : Pattern) {i : Nat} (hi : i < n) (j : Nat) :
    anyHolds (fun r => (pattern.restrict (p r).owns).occupancy) i j = pattern.contains i j := by
  obtain ⟨owner, howner, _⟩ := hdivide i hi
  rw [Bool.eq_iff_iff, anyHolds, decide_eq_true_eq]
  simp only [Pattern.occupancy, Pattern.contains_restrict]
  constructor
  · rintro ⟨r, -, hr⟩
    exact hr
  · intro h
    exact ⟨owner, Partition.owns_iff.2 howner, h⟩

variable [Arithmetic α] [Magnitude α] {size : Nat}
  {S : List (Perturbation α) → (Fin size → α) → Prop}

/-- What a group has found whose ranks obtain the same estimates. -/
theorem found_eq {h tolerance : α} {present : Nat → Nat → Bool} {pairs : List (Fin n × Fin n)}
    {t : Fin size → Tally α n} (hfound : Found S h (fun _ => tolerance) present pairs t)
    {value : Fin n → Fin n → α}
    (hvalue : ∀ (i j : Fin n) v, Estimate S h i j v → v = fun _ => value i j) (r : Fin size) :
    t r = Tally.ofFound tolerance
      ((pairs.filter fun e => present e.1 e.2).map fun e => (e.1, e.2, value e.1 e.2)) := by
  obtain ⟨found, hpairs, hestimates, rfl⟩ := hfound
  rw [← hpairs, List.map_map]
  refine congrArg (Tally.ofFound tolerance) (List.map_congr_left fun e he => ?_)
  have hown : e.2.2 r = value e.1 e.2.1 := congrFun (hvalue _ _ _ (hestimates e he)) r
  rw [hown]
  rfl

/-- What the owner of a row deposits for a position: the estimate of the pair of the smaller and the
larger index, if the pair is present and the magnitude of the estimate is not below the
tolerance. -/
theorem valuesAt_found {h tolerance : α} {present : Nat → Nat → Bool} {t : Fin size → Tally α n}
    (hfound : Found S h (fun _ => tolerance) present (upperPairs n) t) {value : Fin n → Fin n → α}
    (hvalue : ∀ (i j : Fin n) v, Estimate S h i j v → v = fun _ => value i j) {r : Fin size}
    {p : Partition n} {a b : Fin n} (ha : a.val ∈ p.owned) :
    valuesAt ((t r).deposits p).entries a b =
      if present (min a b : Fin n) (max a b : Fin n) = true ∧
          Magnitude.less (Magnitude.abs (value (min a b) (max a b))) tolerance = false then
        [value (min a b) (max a b)]
      else [] := by
  rw [found_eq hfound hvalue r]
  exact Tally.valuesAt_ofFound ha

/-- What the owner of a row reads from the matrix made of its deposits. -/
theorem get?_found {h tolerance : α} {present : Nat → Nat → Bool} {t : Fin size → Tally α n}
    (hfound : Found S h (fun _ => tolerance) present (upperPairs n) t) {value : Fin n → Fin n → α}
    (hvalue : ∀ (i j : Fin n) v, Estimate S h i j v → v = fun _ => value i j) {r : Fin size}
    {p : Partition n} {a : Fin n} (ha : a.val ∈ p.owned) (b : Fin n) :
    (RowMatrix.ofEntries p n ((t r).deposits p).entries).get? a b = some
      (if present (min a b : Fin n) (max a b : Fin n) = true ∧
          Magnitude.less (Magnitude.abs (value (min a b) (max a b))) tolerance = false then
        value (min a b) (max a b)
      else 0) := by
  rw [RowMatrix.get?_ofEntries, if_pos ⟨ha, b.isLt⟩, valuesAt_found hfound hvalue ha]
  split
  · rfl
  · rfl

end Assembler

end DualHessian
