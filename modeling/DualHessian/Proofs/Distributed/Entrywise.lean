import DualHessian.Proofs.Distributed.Dense
import DualHessian.Proofs.Distributed.Sums

/-!
# Matrices entry by entry

With exact numbers the norms of a matrix that a group holds are functions of its entries. It does
not matter which rank holds a row, whether a zero is stored, or how many ranks there are.

* `GroupMatrix.Holds` says which entries the ranks read from their rows.
* `GroupMatrix.Holds.frobenius_eq`, `columnNorm_eq` and `rowNorm_eq` are the norms in terms of the
  entries alone, and `dense_eq` the matrix that all ranks gather.
-/

namespace DualHessian

/-! ## Sums and maxima of lists -/

/-- A sum over a list whose members have keys, key by key. -/
theorem sum_map_eq_sum_filter {K X κ : Type} [AddCommMonoid K] [BEq κ] [LawfulBEq κ]
    (s : Finset κ) (key : X → κ) (f : X → K) {xs : List X} (h : ∀ x ∈ xs, key x ∈ s) :
    (xs.map f).sum = ∑ k ∈ s, ((xs.filter fun x => key x == k).map f).sum := by
  classical
  induction xs with
  | nil => simp
  | cons x xs ih =>
    -- The first member counts at its own key.
    have hfirst : ∀ k, (((x :: xs).filter fun x => key x == k).map f).sum =
        (if key x = k then f x else 0) + ((xs.filter fun x => key x == k).map f).sum := by
      intro k
      by_cases hk : key x = k
      · simp [hk]
      · simp [hk, beq_false_of_ne hk]
    have hmem : key x ∈ s := h x List.mem_cons_self
    simp only [hfirst]
    rw [Finset.sum_add_distrib, Finset.sum_ite_eq, if_pos hmem, List.map_cons, List.sum_cons,
      ih fun y hy => h y (List.mem_cons_of_mem x hy)]

theorem sum_map_filter {K X : Type} [AddCommMonoid K] (f : X → K) (keep : X → Bool) (xs : List X) :
    ((xs.filter keep).map f).sum = (xs.map fun x => if keep x then f x else 0).sum := by
  induction xs with
  | nil => rfl
  | cons x xs ih =>
    cases hx : keep x with
    | true => simp [hx, ih]
    | false => simp [hx, ih]

/-- The bounds of a maximum. -/
theorem foldl_max_le_iff {K : Type} [LinearOrder K] {xs : List K} {start bound : K} :
    xs.foldl max start ≤ bound ↔ start ≤ bound ∧ ∀ x ∈ xs, x ≤ bound := by
  induction xs generalizing start with
  | nil => simp
  | cons x xs ih => rw [List.foldl_cons, ih, max_le_iff, List.forall_mem_cons, and_assoc]

namespace SparseMatrix

variable {K : Type} [Field K] (A : SparseMatrix K)

/-- A sum over what is stored is one over all positions. -/
theorem sum_entries (g : Nat → Nat → K → K) (hg : ∀ i j, g i j 0 = 0) :
    (A.entries.map fun e => g e.row e.column e.value).sum =
      ∑ i ∈ Finset.range A.rows, ∑ j ∈ Finset.range A.columns, g i j ((A.stored? i j).getD 0) := by
  have hinside : ∀ e ∈ A.entries,
      (e.row, e.column) ∈ Finset.range A.rows ×ˢ Finset.range A.columns := by
    intro e he
    simpa [Entry.isInside] using isInside_of_mem_entries he
  rw [sum_map_eq_sum_filter _ (fun e : Entry K => (e.row, e.column)) _ hinside,
    Finset.sum_product]
  refine Finset.sum_congr rfl fun i _ => Finset.sum_congr rfl fun j _ => ?_
  -- At most one entry is listed for a position.
  have hvalue : ∀ e ∈ A.entries.filter (Entry.isAt i j),
      g e.row e.column e.value = g i j e.value := by
    intro e he
    have hat := (List.mem_filter.1 he).2
    rw [Entry.isAt, Bool.and_eq_true, beq_iff_eq, beq_iff_eq] at hat
    rw [hat.1, hat.2]
  have hvalues : (A.entries.filter (Entry.isAt i j)).map (fun e => g e.row e.column e.value) =
      (A.stored? i j).toList.map (g i j) := by
    rw [List.map_congr_left hvalue, ← valuesAt_entries, valuesAt, List.map_map]
    rfl
  refine (congrArg List.sum hvalues).trans ?_
  cases A.stored? i j with
  | none => exact (hg i j).symm
  | some x => exact List.sum_singleton

/-- A sum over a row is one over all columns. -/
theorem sum_lane (i : Nat) {g : K → K} (hg : g 0 = 0) :
    ((A.lane i).map fun e => g e.2).sum =
      ∑ j ∈ Finset.range A.columns, g ((A.stored? i j).getD 0) := by
  have hinside : ∀ e ∈ A.lane i, e.1 ∈ Finset.range A.columns :=
    fun e he => Finset.mem_range.2 (bounded_lane he)
  rw [sum_map_eq_sum_filter _ (fun e : Nat × K => e.1) _ hinside]
  refine Finset.sum_congr rfl fun j _ => ?_
  have hvalues : ((A.lane i).filter (·.1 == j)).map (fun e => g e.2) =
      (A.stored? i j).toList.map g := by
    rw [stored?, ← filter_column (A.sorted_lane i), List.map_map]
    rfl
  refine (congrArg List.sum hvalues).trans ?_
  cases A.stored? i j with
  | none => exact hg.symm
  | some x => exact List.sum_singleton

end SparseMatrix

/-! ## The entries of a matrix -/

namespace GroupMatrix

variable {K : Type} [Field K] {n size : Nat} {p : Fin size → Partition n}

/-- The ranks read the given entries from their rows. -/
structure Holds (A : GroupMatrix K p) (columns : Nat) (entry : Nat → Nat → K) : Prop where
  /-- They agree on the number of columns. -/
  columns_eq : ∀ r, (A r).columns = columns
  /-- An entry is read by the owner of its row. -/
  get?_eq : ∀ r, ∀ i ∈ (p r).owned, ∀ j < columns, (A r).get? i j = some (entry i j)

namespace Holds

variable {A : GroupMatrix K p} {columns : Nat} {entry : Nat → Nat → K}

/-- What a rank has of an entry: all of it, if it owns the row, and nothing otherwise. -/
theorem getD_stored? (h : A.Holds columns entry) (r : Fin size) (i : Nat) {j : Nat}
    (hj : j < columns) :
    ((A r).part.stored? i j).getD 0 = if i ∈ (p r).owned then entry i j else 0 := by
  split
  · rename_i hi
    exact (RowMatrix.get?_eq_some_iff.1 (h.get?_eq r i hi j hj)).2
  · rename_i hi
    rw [(A r).stored?_of_not_mem hi]
    rfl

/-- What the ranks add up over the entries that they store is a sum over all entries. -/
theorem sum_entries (h : A.Holds columns entry) (hdivide : Partition.Divide p)
    (g : Nat → Nat → K → K) (hg : ∀ i j, g i j 0 = 0) :
    ∑ r, ((A r).part.entries.map fun e => g e.row e.column e.value).sum =
      ∑ i ∈ Finset.range n, ∑ j ∈ Finset.range columns, g i j (entry i j) := by
  have hpart : ∀ r, ((A r).part.entries.map fun e => g e.row e.column e.value).sum =
      ∑ i ∈ Finset.range n, if i ∈ (p r).owned then
        ∑ j ∈ Finset.range columns, g i j (entry i j) else 0 := by
    intro r
    have hcolumns : (A r).part.columns = columns := h.columns_eq r
    rw [SparseMatrix.sum_entries _ g hg, (A r).rows_part, hcolumns]
    refine Finset.sum_congr rfl fun i _ => ?_
    rw [Finset.sum_congr rfl fun j hj => congrArg (g i j)
      (h.getD_stored? r i (Finset.mem_range.1 hj))]
    split
    · rfl
    · exact Finset.sum_eq_zero fun j _ => hg i j
  simp only [hpart]
  exact hdivide.sum_owned _

/-- The Frobenius norm is the square root of the sum of the squares of the entries. -/
theorem frobenius_eq [SquareRoot K] (h : A.Holds columns entry) (hdivide : Partition.Divide p) :
    A.frobenius = sqrt (∑ i ∈ Finset.range n, ∑ j ∈ Finset.range columns,
      entry i j * entry i j) := by
  have hshare : ∀ r, signedSumOf ((A r).part.values.map fun x => x * x) =
      ((A r).part.entries.map fun e => e.value * e.value).sum := by
    intro r
    rw [signedSumOf_eq_sum, ← SparseMatrix.map_value_entries, List.map_map]
    rfl
  simp only [frobenius, hshare]
  rw [signedSumOf_eq_sum, List.sum_ofFn,
    h.sum_entries hdivide (fun _ _ x => x * x) fun _ _ => zero_mul 0]

/-- The matrix that all ranks gather has the entries. -/
theorem dense_eq (h : A.Holds columns entry) (hdivide : Partition.Divide p) :
    Group.dense A columns =
      ⟨columns, (List.range n).map fun i => (List.range columns).map (entry i)⟩ := by
  refine Group.dense_eq hdivide A fun r i hi j hj => ?_
  have hvalue : ((A r).part.stored? i j).getD 0 = entry i j :=
    (RowMatrix.get?_eq_some_iff.1 (h.get?_eq r i hi j hj)).2
  rw [← hvalue, sumOf_eq_sum]
  cases (A r).part.stored? i j with
  | none => rfl
  | some x => exact List.sum_singleton

variable [LinearOrder K] [IsStrictOrderedRing K] [Magnitude K] [ExactOrder K]

/-- A column sum is the sum of the magnitudes of the entries in the column. -/
theorem columnSum_eq (h : A.Holds columns entry)
    (hdivide : Partition.Divide p) {j : Nat} (hj : j < columns) :
    A.columnSum j = ∑ i ∈ Finset.range n, |entry i j| := by
  have hshare : ∀ r, A.columnShare r j =
      ((A r).part.entries.map fun e => if e.column == j then |e.value| else 0).sum := by
    intro r
    simp only [columnShare, ExactOrder.abs_eq]
    rw [sumOf_eq_sum, sum_map_filter]
  rw [columnSum, sumOf_eq_sum, List.sum_ofFn]
  simp only [hshare]
  rw [h.sum_entries hdivide (fun _ k x => if k == j then |x| else 0) (by simp)]
  refine Finset.sum_congr rfl fun i _ => ?_
  simp only [beq_iff_eq]
  rw [Finset.sum_ite_eq', if_pos (Finset.mem_range.2 hj)]

theorem columnNorm_eq (h : A.Holds columns entry)
    (hdivide : Partition.Divide p) :
    A.columnNorm columns =
      largestOf ((List.range columns).map fun j => ∑ i ∈ Finset.range n, |entry i j|) := by
  refine congrArg largestOf (List.map_congr_left fun j hj => ?_)
  exact h.columnSum_eq hdivide (List.mem_range.1 hj)

/-- The rows of one rank, as sums over the entries. -/
theorem rowSums_eq (h : A.Holds columns entry) (r : Fin size) :
    (A r).rowSums = (List.range n).map fun i =>
      if i ∈ (p r).owned then ∑ j ∈ Finset.range columns, |entry i j| else 0 := by
  simp only [RowMatrix.rowSums, (A r).part.lanes_eq, (A r).rows_part, List.map_map,
    ExactOrder.abs_eq]
  refine List.map_congr_left fun i _ => ?_
  have hcolumns : (A r).part.columns = columns := h.columns_eq r
  show signedSumOf (((A r).part.lane i).map fun e => |e.2|) = _
  rw [signedSumOf_eq_sum, SparseMatrix.sum_lane _ i abs_zero, hcolumns,
    Finset.sum_congr rfl fun j hj => congrArg abs (h.getD_stored? r i (Finset.mem_range.1 hj))]
  split
  · rfl
  · exact Finset.sum_eq_zero fun j _ => abs_zero

/-- The row norm is the largest sum of magnitudes in a row. Rows of other ranks count as zero on a
rank, and a maximum of magnitudes starts there anyway. -/
theorem rowNorm_eq (h : A.Holds columns entry) (hdivide : Partition.Divide p) (hsize : 0 < size) :
    A.rowNorm = max Magnitude.lowest
      (largestOf ((List.range n).map fun i => ∑ j ∈ Finset.range columns, |entry i j|)) := by
  have hlarger : (Magnitude.larger : K → K → K) = max := by
    funext x y
    exact ExactOrder.larger_eq x y
  -- Both sides have the same upper bounds.
  refine eq_of_forall_ge_iff fun bound => ?_
  simp only [rowNorm, largestOf, hlarger, foldl_max_le_iff, max_le_iff, List.forall_mem_ofFn_iff,
    h.rowSums_eq, List.forall_mem_map, List.mem_range]
  refine and_congr_right fun _ => ⟨fun hall => ?_, fun hall r => ?_⟩
  · refine ⟨(hall ⟨0, hsize⟩).1, fun i hi => ?_⟩
    obtain ⟨r, hr, _⟩ := hdivide i hi
    have hrow := (hall r).2 i hi
    rwa [if_pos hr] at hrow
  · refine ⟨hall.1, fun i hi => ?_⟩
    split
    · exact hall.2 i hi
    · exact hall.1

end Holds

end GroupMatrix

end DualHessian
