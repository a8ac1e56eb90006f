import DualHessian.Proofs.Dofs.Blocks
import DualHessian.Proofs.Numbers.Binary64
import DualHessian.Proofs.Sparse.Entries
import DualHessian.Proofs.Verify.Comparison

/-!
# What a pass is worth

A comparison passes unless the largest quotient of a column sum by the scale exceeds the tolerance.
With doubles that is less than it seems: the maximum passes over column sums that are not numbers,
and a quotient that is not a number does not exceed anything.

* `GroupMatrix.AllNumbers` and `GroupMatrix.WithinTolerance` are what a pass ought to mean: every
  entry of the difference is a number, and every column sum is within the tolerance.
* `GroupMatrix.Comparable` says that no column sum is infinite or zero together with the scale. If
  it is so, and the difference has numbers only, a pass means what it ought to; otherwise it does
  not.
-/

namespace DualHessian

open Magnitude DoubleLaws

namespace GroupMatrix

variable {α : Type} [Arithmetic α] [Magnitude α] {n size : Nat} {p : Fin size → Partition n}

/-- Every stored entry is a number. -/
def AllNumbers (A : GroupMatrix α p) : Prop := ∀ r, ∀ e ∈ (A r).part.entries, IsNumber e.value

/-- Every column sum, relative to the scale, is within the tolerance. -/
def WithinTolerance (A : GroupMatrix α p) (columns : Nat) (scale tolerance : α) : Prop :=
  ∀ j < columns, AtMost (A.columnSum j / scale) tolerance

/-- No column sum is infinite together with the scale, or zero together with it. -/
def Comparable (A : GroupMatrix α p) (columns : Nat) (scale : α) : Prop :=
  ∀ j < columns, ¬(IsInfinite (A.columnSum j) ∧ IsInfinite scale) ∧
    ¬(IsZero (A.columnSum j) ∧ IsZero scale)

instance (A : GroupMatrix α p) : Decidable A.AllNumbers :=
  inferInstanceAs (Decidable (∀ r, ∀ e ∈ (A r).part.entries, IsNumber e.value))

instance (A : GroupMatrix α p) (columns : Nat) (scale tolerance : α) :
    Decidable (A.WithinTolerance columns scale tolerance) :=
  inferInstanceAs (Decidable (∀ j < columns, AtMost (A.columnSum j / scale) tolerance))

instance (A : GroupMatrix α p) (columns : Nat) (scale : α) :
    Decidable (A.Comparable columns scale) :=
  inferInstanceAs (Decidable (∀ j < columns, ¬(IsInfinite (A.columnSum j) ∧ IsInfinite scale) ∧
    ¬(IsZero (A.columnSum j) ∧ IsZero scale)))

variable [SquareRoot α] [DoubleLaws α]

/-- The column sums of a matrix with numbers only are numbers that are not negative. -/
theorem columnSum_nonneg {A : GroupMatrix α p} (h : A.AllNumbers) (j : Nat) :
    AtMost 0 (A.columnSum j) := by
  apply sumOf_nonneg
  intro x hx
  obtain ⟨r, rfl⟩ := (List.mem_ofFn' _ x).1 hx
  apply sumOf_nonneg
  intro y hy
  obtain ⟨e, he, rfl⟩ := List.mem_map.1 hy
  exact abs_nonneg (h r e (List.mem_filter.1 he).1)

/-- In a matrix with numbers only the largest column sum is at least every column sum. -/
theorem columnSum_atMost_columnNorm {A : GroupMatrix α p} (h : A.AllNumbers) {columns j : Nat}
    (hj : j < columns) : AtMost (A.columnSum j) (A.columnNorm columns) := by
  have hmem : A.columnSum j ∈ (List.range columns).map A.columnSum :=
    List.mem_map.2 ⟨j, List.mem_range.2 hj, rfl⟩
  exact atMost_largestOf hmem (number_of_atMost (columnSum_nonneg h j)).2

theorem frobenius_nonneg {A : GroupMatrix α p} (h : A.AllNumbers) : AtMost 0 A.frobenius := by
  refine sqrt_nonneg (signedSumOf_nonneg fun x hx => ?_)
  obtain ⟨r, rfl⟩ := (List.mem_ofFn' _ x).1 hx
  apply signedSumOf_nonneg
  intro y hy
  obtain ⟨z, hz, rfl⟩ := List.mem_map.1 hy
  rw [← SparseMatrix.map_value_entries] at hz
  obtain ⟨e, he, rfl⟩ := List.mem_map.1 hz
  exact mul_self_nonneg (h r e he)

/-- The scale of a comparison is a number that is not negative, if both matrices have numbers
only. -/
theorem scale_nonneg (t : Tolerances α) {A B : GroupMatrix α p} (hA : A.AllNumbers)
    (hB : B.AllNumbers) : AtMost 0 (t.scale A.frobenius B.frobenius) := by
  unfold Tolerances.scale
  split
  · exact zero_atMost_one
  · rcases larger_eq A.frobenius B.frobenius with heq | heq
    · rw [heq]
      exact frobenius_nonneg hA
    · rw [heq]
      exact frobenius_nonneg hB

/-- What is not a number in one of two matrices is not a number in their difference. -/
theorem allNumbers_of_minus {A B : GroupMatrix α p} {columns : Nat}
    (hA : ∀ r, (A r).columns = columns) (hB : ∀ r, (B r).columns = columns)
    (h : (A.minus B).AllNumbers) : A.AllNumbers ∧ B.AllNumbers := by
  -- Every entry of either matrix goes into a sum of the difference.
  have hterm : ∀ r, ∀ e ∈ (A r).part.entries ++ (B r).part.entries.map (Entry.map ((-1) * ·)),
      e.row ∈ (p r).owned ∧ e.column < (A r).columns → IsNumber e.value := by
    intro r e he hinside
    obtain ⟨s, hs, xs, hsum, hmem⟩ := RowMatrix.exists_sum_of_mem he hinside
    cases xs with
    | nil => cases hmem
    | cons y ys =>
      obtain ⟨hy, hys⟩ := number_of_foldl_add (Option.some.inj hsum ▸ h r s hs)
      rcases List.mem_cons.1 hmem with heq | hmem
      · rw [heq]
        exact hy
      · exact hys _ hmem
  refine ⟨fun r e he => ?_, fun r e he => ?_⟩
  · exact hterm r e (List.mem_append_left _ he) (RowMatrix.mem_owned_of_mem_entries he)
  · have hinside := RowMatrix.mem_owned_of_mem_entries he
    rw [hB r, ← hA r] at hinside
    have hproduct : IsNumber ((-1) * e.value) :=
      hterm r (e.map ((-1) * ·)) (List.mem_append_right _ (List.mem_map_of_mem he)) hinside
    exact (number_of_mul hproduct).2

/-- The largest column sum has a quotient by the scale, if every column sum has and there is one. -/
private theorem number_columnNorm_div {A : GroupMatrix α p} (h : A.AllNumbers) {columns : Nat}
    {scale : α} (hscale : AtMost 0 scale) (hcomparable : A.Comparable columns scale) {j : Nat}
    (hj : j < columns) : IsNumber (A.columnNorm columns / scale) := by
  refine number_div_iff.2 ⟨number_largestOf _, (number_of_atMost hscale).2, ?_, ?_⟩
  · rintro ⟨hnorm, hinfinite⟩
    rcases largestOf_eq ((List.range columns).map A.columnSum) with heq | hmem
    · -- A zero is not infinite.
      rw [columnNorm, heq] at hnorm
      have hfinite := hnorm.2
      rw [finite_zero.2] at hfinite
      cases hfinite
    · obtain ⟨k, hk, heq⟩ := List.mem_map.1 hmem
      rw [columnNorm, ← heq] at hnorm
      exact (hcomparable k (List.mem_range.1 hk)).1 ⟨hnorm, hinfinite⟩
  · rintro ⟨hnorm, hzero⟩
    -- A column sum between zero and a zero is a zero itself.
    refine (hcomparable j hj).2 ⟨same_of_atMost ?_ (columnSum_nonneg h j), hzero⟩
    exact atMost_trans (columnSum_atMost_columnNorm h hj) (.inr hnorm)

/-- If the largest column sum is within the tolerance, or cannot be compared with it, every column
sum that can be compared is within it. -/
theorem withinTolerance_of_not_exceeds {A : GroupMatrix α p} (h : A.AllNumbers) {columns : Nat}
    {scale tolerance : α} (hscale : AtMost 0 scale) (hcomparable : A.Comparable columns scale)
    (htolerance : IsNumber tolerance)
    (hpass : less tolerance (A.columnNorm columns / scale) = false) :
    A.WithinTolerance columns scale tolerance := by
  intro j hj
  obtain ⟨hinfinite, hzero⟩ := hcomparable j hj
  have hsum : AtMost 0 (A.columnSum j) := columnSum_nonneg h j
  have hquotient : IsNumber (A.columnSum j / scale) := number_div_iff.2
    ⟨(number_of_atMost hsum).2, (number_of_atMost hscale).2, hinfinite, hzero⟩
  have hlargest : IsNumber (A.columnNorm columns / scale) :=
    number_columnNorm_div h hscale hcomparable hj
  have hle : AtMost (A.columnSum j / scale) (A.columnNorm columns / scale) :=
    div_atMost_div hsum (columnSum_atMost_columnNorm h hj) hscale hquotient hlargest
  exact atMost_trans hle (atMost_of_not_less hlargest htolerance hpass)

/-- A column sum within the tolerance has a quotient by the scale. -/
theorem comparable_of_withinTolerance {A : GroupMatrix α p} {columns : Nat} {scale tolerance : α}
    (h : A.WithinTolerance columns scale tolerance) : A.Comparable columns scale := by
  intro j hj
  obtain ⟨_, _, hrest⟩ := number_div_iff.1 (number_of_atMost (h j hj)).1
  exact hrest

end GroupMatrix

/-- The matrix with one entry, on a single rank. -/
def GroupMatrix.single {α : Type} [Add α] (x : α) :
    GroupMatrix α fun _ : Fin 1 => Partition.single :=
  fun _ => .ofEntries .single 1 [⟨0, 0, x⟩]

variable {α : Type} [Arithmetic α] [Magnitude α] [SquareRoot α] {n size : Nat}
  {p : Fin size → Partition n}

/-- All ranks that compare two matrices obtain the same report. If it is a pass, then it means that
every entry of the difference is a number and every column sum is within the tolerance, exactly if
every entry of the difference is a number and no column sum is infinite or zero together with the
scale. -/
theorem Group.pass_sound_iff [DoubleLaws α] (t : Tolerances α) (htolerance : IsNumber t.tolerance)
    {columns : Nat} {differences reference : GroupMatrix α p}
    (hdifferences : ∀ r, (differences r).columns = columns)
    (hreference : ∀ r, (reference r).columns = columns) :
    ∃ (report : Report α) (discrepancy : GroupMatrix α p),
      Group.Returns
        (fun r => (compare t (differences r) (reference r) :
          Task α .closed (Except MatrixConflict (Report α × RowMatrix α (p r)))).run)
        (fun r => .ok (.ok (report, discrepancy r))) ∧
      (report.verdict = .pass →
        (discrepancy.AllNumbers ∧
            discrepancy.WithinTolerance columns report.scale t.tolerance ↔
          discrepancy.AllNumbers ∧ discrepancy.Comparable columns report.scale)) := by
  refine ⟨differences.report t columns reference, differences.minus reference,
    returns_compare t differences reference hdifferences hreference, ?_⟩
  intro hverdict
  refine and_congr_right fun hnumbers => ⟨GroupMatrix.comparable_of_withinTolerance, fun h => ?_⟩
  have hpass : less t.tolerance ((differences.minus reference).columnNorm columns /
      (differences.report t columns reference).scale) = false := by
    have hcases : t.verdict ((differences.minus reference).columnNorm columns /
        (differences.report t columns reference).scale) = .pass := hverdict
    unfold Tolerances.verdict at hcases
    split at hcases
    · cases hcases
    · rename_i hless
      simpa using hless
  obtain ⟨hdiff, href⟩ := GroupMatrix.allNumbers_of_minus hdifferences hreference hnumbers
  exact GroupMatrix.withinTolerance_of_not_exceeds hnumbers (GroupMatrix.scale_nonneg t href hdiff)
    h htolerance hpass

/-- A matrix passes that differs from one in its last place, and all of its difference is a number
within the tolerance. -/
theorem Group.nearby_entry_pass_sound :
    ∃ (report : Report Float) (discrepancy : GroupMatrix Float fun _ : Fin 1 => Partition.single),
      Group.Returns
        (fun r => (compare ⟨1e-4, 1e-12⟩ (GroupMatrix.single 1.0000000000000002 r)
            (GroupMatrix.single 1 r) :
          Task Float .closed
            (Except MatrixConflict (Report Float × RowMatrix Float Partition.single))).run)
        (fun r => .ok (.ok (report, discrepancy r))) ∧
      report.verdict = .pass ∧ discrepancy.AllNumbers ∧
        discrepancy.WithinTolerance 1 report.scale 1e-4 := by
  have hcolumns : ∀ (x : Float) r, (GroupMatrix.single x r).columns = 1 := fun _ _ => rfl
  obtain ⟨report, discrepancy, hreturns, hsound⟩ :=
    pass_sound_iff (⟨1e-4, 1e-12⟩ : Tolerances Float) (rfl : same (1e-4 : Float) 1e-4 = true)
      (hcolumns 1.0000000000000002) (hcolumns 1)
  -- The report and the difference are the ones that can be computed.
  have hcomputed := hreturns.unique (returns_compare (⟨1e-4, 1e-12⟩ : Tolerances Float) _ _
    (hcolumns 1.0000000000000002) (hcolumns 1))
  have hparts := fun r => Except.ok.inj (Except.ok.inj (congrFun hcomputed r))
  have hreport : report = GroupMatrix.report ⟨1e-4, 1e-12⟩ 1 (.single 1.0000000000000002)
      (.single 1) := congrArg Prod.fst (hparts 0)
  have hdiscrepancy : discrepancy = GroupMatrix.minus (.single 1.0000000000000002) (.single 1) :=
    funext fun r => congrArg Prod.snd (hparts r)
  subst hreport hdiscrepancy
  have hpass : (GroupMatrix.report (⟨1e-4, 1e-12⟩ : Tolerances Float) 1
      (.single 1.0000000000000002) (.single 1)).verdict = .pass := by decide +kernel
  exact ⟨_, _, hreturns, hpass, (hsound hpass).2 (by decide +kernel)⟩

/-- A matrix with an infinite entry passes, compared with one where the entry is one: the column sum
and the scale are infinite, and their quotient does not exceed the tolerance. -/
theorem Group.infinite_entry_passes :
    ∃ (report : Report Float) (discrepancy : GroupMatrix Float fun _ : Fin 1 => Partition.single),
      Group.Returns
        (fun r => (compare ⟨1e-4, 1e-12⟩ (GroupMatrix.single (1 / 0) r) (GroupMatrix.single 1 r) :
          Task Float .closed
            (Except MatrixConflict (Report Float × RowMatrix Float Partition.single))).run)
        (fun r => .ok (.ok (report, discrepancy r))) ∧
      report.verdict = .pass ∧ ¬ discrepancy.WithinTolerance 1 report.scale 1e-4 := by
  have hreturns := returns_compare (⟨1e-4, 1e-12⟩ : Tolerances Float) (.single (1 / 0)) (.single 1)
    (fun _ => rfl) fun _ => rfl
  exact ⟨_, _, hreturns, by decide +kernel, by decide +kernel⟩

end DualHessian
