import DualHessian.Proofs.Distributed.DenseNorms
import DualHessian.Proofs.Verify.Independence
import Mathlib.Algebra.Order.BigOperators.Group.Finset

/-!
# The verdict of a comparison

With exact numbers the report of a comparison is the one that its definition asks for: it depends on
the dense forms of both matrices alone, and the reference passes exactly if no column of their
difference is larger than the tolerance allows.

* `Tolerances.reach` is what discrepancies are relative to, in terms of both dense forms.
* `GroupMatrix.Holds.pass_iff` says when the reference passes, and `Group.compare_verdict` is the
  whole comparison.
-/

namespace DualHessian

/-! ## The verdict -/

section Verdict

variable {K : Type} [Field K] [SquareRoot K]

variable [LinearOrder K]

/-- What discrepancies of two matrices are relative to: one, if the second of them is nearly zero,
and the larger norm otherwise. -/
def Tolerances.reach (t : Tolerances K) (rows columns : Nat) (F A : Nat → Nat → K) : K :=
  if frobeniusOf rows columns A < t.degenerateNorm then 1
  else max (frobeniusOf rows columns A) (frobeniusOf rows columns F)

variable [IsStrictOrderedRing K] {n size columns : Nat} {p : Fin size → Partition n}
  {t : Tolerances K} {F A : Nat → Nat → K}

theorem Tolerances.reach_pos (ht : 0 < t.degenerateNorm) : 0 < t.reach n columns F A := by
  unfold reach
  split
  · exact one_pos
  · rename_i hnorm
    exact ht.trans_le ((not_lt.1 hnorm).trans (le_max_left _ _))

variable [Magnitude K] [ExactOrder K]

omit [IsStrictOrderedRing K] in
theorem Tolerances.scale_eq (t : Tolerances K) :
    t.scale (frobeniusOf n columns A) (frobeniusOf n columns F) = t.reach n columns F A := by
  unfold scale reach
  rw [ExactOrder.larger_eq]
  exact if_congr ExactOrder.less_iff rfl rfl

omit [SquareRoot K] [IsStrictOrderedRing K] in
theorem Tolerances.verdict_eq_pass_iff {relative : K} :
    t.verdict relative = .pass ↔ relative ≤ t.tolerance := by
  rw [← less_eq_false_iff, verdict]
  cases Magnitude.less t.tolerance relative <;> simp

variable {fd ad : GroupMatrix K p}

/-- The report of matrices with the given entries. -/
theorem GroupMatrix.Holds.report_eq (hfd : fd.Holds columns F) (had : ad.Holds columns A)
    (hdivide : Partition.Divide p) (hsize : 0 < size) (hlowest : (Magnitude.lowest : K) ≤ 0)
    (t : Tolerances K) :
    fd.report t columns ad = t.report (frobeniusOf n columns A) (frobeniusOf n columns F)
      (largestOf ((List.range columns).map fun j => ∑ i ∈ Finset.range n, |F i j - A i j|))
      (largestOf ((List.range n).map fun i => ∑ j ∈ Finset.range columns, |F i j - A i j|)) := by
  have hdifference : ∀ i j, F i j + -1 * A i j = F i j - A i j := fun i j => by
    rw [neg_one_mul, sub_eq_add_neg]
  have hminus := hfd.minus had
  simp only [hdifference] at hminus
  rw [report, had.frobenius_eq hdivide, hfd.frobenius_eq hdivide, hminus.columnNorm_eq hdivide,
    hminus.rowNorm_eq_largest hdivide hsize hlowest]
  rfl

section Parts

variable (hfd : fd.Holds columns F) (had : ad.Holds columns A) (hdivide : Partition.Divide p)
  (hsize : 0 < size) (hlowest : (Magnitude.lowest : K) ≤ 0) (ht : 0 < t.degenerateNorm)

include hfd had hdivide hsize hlowest ht

/-- What is relative to a positive number is multiplied by it again. -/
theorem GroupMatrix.Holds.relativeColumn_mul_reach :
    (fd.report t columns ad).relativeColumn * t.reach n columns F A =
      largestOf ((List.range columns).map fun j => ∑ i ∈ Finset.range n, |F i j - A i j|) := by
  rw [hfd.report_eq had hdivide hsize hlowest t, Tolerances.report, t.scale_eq]
  exact div_mul_cancel₀ _ (t.reach_pos ht).ne'

theorem GroupMatrix.Holds.relativeRow_mul_reach :
    (fd.report t columns ad).relativeRow * t.reach n columns F A =
      largestOf ((List.range n).map fun i => ∑ j ∈ Finset.range columns, |F i j - A i j|) := by
  rw [hfd.report_eq had hdivide hsize hlowest t, Tolerances.report, t.scale_eq]
  exact div_mul_cancel₀ _ (t.reach_pos ht).ne'

/-- The maximum starts at zero, which is where the condition on the tolerance comes from. -/
theorem GroupMatrix.Holds.pass_iff :
    (fd.report t columns ad).verdict = .pass ↔ 0 ≤ t.tolerance ∧ ∀ j < columns,
      ∑ i ∈ Finset.range n, |F i j - A i j| ≤ t.tolerance * t.reach n columns F A := by
  have hverdict : (fd.report t columns ad).verdict = .pass ↔
      (fd.report t columns ad).relativeColumn ≤ t.tolerance := t.verdict_eq_pass_iff
  have hreach : 0 < t.reach n columns F A := t.reach_pos ht
  rw [hverdict, ← mul_le_mul_iff_left₀ hreach,
    hfd.relativeColumn_mul_reach had hdivide hsize hlowest ht, largestOf_le_iff,
    mul_nonneg_iff_of_pos_right hreach]
  simp only [List.forall_mem_map, List.mem_range]

end Parts

omit [IsStrictOrderedRing K] in
/-- A larger tolerance leaves everything that is measured as it is. -/
theorem GroupMatrix.pass_of_tolerance_le {t' : Tolerances K}
    (hdegenerate : t'.degenerateNorm = t.degenerateNorm) (hle : t.tolerance ≤ t'.tolerance)
    (h : (fd.report t columns ad).verdict = .pass) : (fd.report t' columns ad).verdict = .pass := by
  have hrelative : (fd.report t' columns ad).relativeColumn =
      (fd.report t columns ad).relativeColumn := by
    show _ / t'.scale _ _ = _ / t.scale _ _
    rw [Tolerances.scale, hdegenerate]
    rfl
  exact Tolerances.verdict_eq_pass_iff.2
    (hrelative.le.trans ((Tolerances.verdict_eq_pass_iff.1 h).trans hle))

/-- A reference passes that has the entries of the matrix it is compared with. -/
theorem Findings.pass_of_agree {rows columns : Nat} {F A : Nat → Nat → K}
    (h : ∀ i < rows, ∀ j < columns, F i j = A i j) {t : Tolerances K} (ht : 0 < t.degenerateNorm)
    (htolerance : 0 ≤ t.tolerance) :
    let report := (ofEntries t rows columns F A).report
    report.columnDiscrepancy = 0 ∧ report.verdict = .pass ∧ 0 < report.scale := by
  intro report
  have hcolumns : report.columnDiscrepancy = 0 := by
    refine largestOf_eq_zero fun sum hsum => ?_
    obtain ⟨j, hj, rfl⟩ := List.mem_map.1 hsum
    refine Finset.sum_eq_zero fun i hi => ?_
    show |F i j + -1 * A i j| = 0
    rw [h i (Finset.mem_range.1 hi) j (List.mem_range.1 hj), neg_one_mul, add_neg_cancel, abs_zero]
  have hscale : report.scale = t.reach rows columns F A := t.scale_eq
  refine ⟨hcolumns, Tolerances.verdict_eq_pass_iff.2 ?_, hscale ▸ t.reach_pos ht⟩
  show report.columnDiscrepancy / report.scale ≤ t.tolerance
  rwa [hcolumns, zero_div]

/-- The comparison of two matrices with dense forms `F` and `A` computes the verdict that is defined
by them. The tolerance must not be negative, which makes a difference for matrices without columns
only. -/
theorem Group.compare_verdict (hdivide : Partition.Divide p) (hsize : 0 < size)
    (hlowest : (Magnitude.lowest : K) ≤ 0) (t : Tolerances K) (ht : 0 < t.degenerateNorm)
    (hfd : ∀ r, (fd r).columns = columns) (had : ∀ r, (ad r).columns = columns)
    (hF : Group.dense fd columns = .tabulate n columns F)
    (hA : Group.dense ad columns = .tabulate n columns A) :
    let N := t.reach n columns F A
    let report := fd.report t columns ad
    Returns
      (fun r => (compare t (fd r) (ad r) :
        Task K .closed (Except MatrixConflict (Report K × RowMatrix K (p r)))).run)
      (fun r => .ok (.ok (report, fd.minus ad r))) ∧
    0 < N ∧
    (report.verdict = .pass ↔
      0 ≤ t.tolerance ∧ ∀ j < columns, ∑ i ∈ Finset.range n, |F i j - A i j| ≤ t.tolerance * N) ∧
    IsLargest columns (fun j => ∑ i ∈ Finset.range n, |F i j - A i j|)
      (report.relativeColumn * N) ∧
    IsLargest n (fun i => ∑ j ∈ Finset.range columns, |F i j - A i j|) (report.relativeRow * N) ∧
    Returns (fun r => ((fd.minus ad r).dense : Task K .closed (Dense K)).run)
      (fun _ => .ok (.tabulate n columns fun i j => F i j - A i j)) ∧
    Returns (fun r => ((ad r).dense : Task K .closed (Dense K)).run)
      (fun _ => .ok (.tabulate n columns A)) ∧
    (report.verdict = .pass → ∀ i < n, ∀ j < columns, |F i j - A i j| ≤ t.tolerance * N) ∧
    ∀ t' : Tolerances K, t'.degenerateNorm = t.degenerateNorm → t.tolerance ≤ t'.tolerance →
      report.verdict = .pass → (fd.report t' columns ad).verdict = .pass := by
  intro N report
  -- The ranks read the entries of the dense forms, so the report is the one of these entries.
  have hfd' := GroupMatrix.holds_of_dense hdivide hfd hF
  have had' := GroupMatrix.holds_of_dense hdivide had hA
  have hminus : (fd.minus ad).Holds columns fun i j => F i j - A i j := by
    simpa only [neg_one_mul, ← sub_eq_add_neg] using hfd'.minus had'
  have hpass := hfd'.pass_iff had' hdivide hsize hlowest ht
  refine ⟨returns_compare t fd ad hfd had, t.reach_pos ht, hpass, ?_, ?_,
    hminus.returns_dense hdivide, had'.returns_dense hdivide, fun h i hi j hj => ?_,
    fun t' hdegenerate hle h => GroupMatrix.pass_of_tolerance_le hdegenerate hle h⟩
  · rw [hfd'.relativeColumn_mul_reach had' hdivide hsize hlowest ht]
    exact isLargest_largestOf fun j _ => Finset.sum_nonneg fun i _ => abs_nonneg _
  · rw [hfd'.relativeRow_mul_reach had' hdivide hsize hlowest ht]
    exact isLargest_largestOf fun i _ => Finset.sum_nonneg fun j _ => abs_nonneg _
  · -- An entry is one of the magnitudes that its column adds up.
    exact (Finset.single_le_sum (fun i _ => abs_nonneg (F i j - A i j))
      (Finset.mem_range.2 hi)).trans ((hpass.1 h).2 j hj)

end Verdict

/-- A diagonal matrix on two ranks, with one row each. -/
def GroupMatrix.diagonal (first second : Rat) : GroupMatrix Rat Partition.mirrored :=
  fun r => .ofEntries (Partition.mirrored r) 2 [⟨0, 0, first⟩, ⟨1, 1, second⟩]

/-- Two diagonal matrices of norm five with their entries swapped. Each column of the difference is
of size one, which a tolerance of a fifth just allows. -/
theorem Group.compare_verdict_swapped :
    let fd := GroupMatrix.diagonal 4 3
    let ad := GroupMatrix.diagonal 3 4
    let t : Tolerances Rat := ⟨1 / 5, 1 / 100⟩
    Returns
      (fun r => (compare t (fd r) (ad r) :
        Task Rat .closed (Except MatrixConflict (Report Rat × RowMatrix Rat _))).run)
      (fun r => .ok (.ok (fd.report t 2 ad, fd.minus ad r))) ∧
    (fd.report t 2 ad).verdict = .pass ∧
    IsLargest 2 (fun _ => 1) ((fd.report t 2 ad).relativeColumn * 5) := by
  intro fd ad t
  let entry (a b : Rat) (i j : Nat) : Rat := if i = j then if i = 0 then a else b else 0
  have hfd : Group.dense fd 2 = .tabulate 2 2 (entry 4 3) := by decide +kernel
  have had : Group.dense ad 2 = .tabulate 2 2 (entry 3 4) := by decide +kernel
  obtain ⟨hreturns, -, hpass, hcolumn, -⟩ := compare_verdict Partition.divide_mirrored (by decide)
    (by decide +kernel) t (by norm_num [t]) (fun _ => rfl) (fun _ => rfl) hfd had
  have hsums : ∀ j < 2, ∑ i ∈ Finset.range 2, |entry 4 3 i j - entry 3 4 i j| = 1 := by
    decide +kernel
  have hnorm : frobeniusOf 2 2 (entry 4 3) = 5 ∧ frobeniusOf 2 2 (entry 3 4) = 5 := by
    decide +kernel
  have hN : t.reach 2 2 (entry 4 3) (entry 3 4) = 5 := by
    rw [Tolerances.reach, hnorm.1, hnorm.2]
    decide +kernel
  rw [hN] at hpass hcolumn
  refine ⟨hreturns, hpass.2 ⟨by norm_num [t], fun j hj => ?_⟩, hcolumn.congr hsums⟩
  rw [hsums j hj]
  norm_num [t]

/-- Two matrices without columns. No column of their difference is too large for a tolerance below
zero, but the largest of no magnitudes is zero, and the reference does not pass. -/
theorem Group.negative_tolerance_never_passes :
    let M : GroupMatrix Rat (fun _ : Fin 1 => Partition.single) := fun _ => .zeros _ 0
    let t : Tolerances Rat := ⟨-1, 1⟩
    let A : Nat → Nat → Rat := fun _ _ => 0
    Partition.Divide (fun _ : Fin 1 => Partition.single) ∧
    Group.dense M 0 = .tabulate 1 0 A ∧
    Returns
      (fun r => (compare t (M r) (M r) :
        Task Rat .closed (Except MatrixConflict (Report Rat × RowMatrix Rat _))).run)
      (fun r => .ok (.ok (M.report t 0 M, M.minus M r))) ∧
    ¬((M.report t 0 M).verdict = .pass ↔
      ∀ j < 0, ∑ i ∈ Finset.range 1, |A i j - A i j| ≤ t.tolerance * t.reach 1 0 A A) := by
  intro M t A
  refine ⟨Partition.divide_single, rfl, returns_compare t M M (fun _ => rfl) (fun _ => rfl),
    fun h => ?_⟩
  have hfail : (M.report t 0 M).verdict = .fail := by decide +kernel
  rw [hfail] at h
  exact Verdict.noConfusion (h.2 fun j hj => absurd hj j.not_lt_zero)

end DualHessian
