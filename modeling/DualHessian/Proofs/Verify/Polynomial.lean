import DualHessian.Proofs.Differences.Exactness
import DualHessian.Proofs.Verify.Verdict

/-!
# Verifying polynomial systems

With exact numbers, differences of a residual whose components are polynomials of total degree at
most five are no estimates: the matrix of differences is the Hessian, but for the entries that are
too small to be stored, and a system that assembles its Hessian passes.

* `PolynomialSystem` is such a system, `PolynomialSystem.hessian` its Hessian at the solution.
* `PolynomialSystem.estimates_eq` says that all estimates are exact.
* `PolynomialSystem.Finds` says what a verification of such a system has to find. It is followed
  from the description of the system to the matrices and the report on all ranks.
-/

namespace DualHessian

open MvPolynomial

/-- Mixed derivatives do not depend on the order. -/
theorem pderiv_comm {K : Type} [Field K] {n : Nat} (i j : Fin n) (F : MvPolynomial (Fin n) K) :
    pderiv i (pderiv j F) = pderiv j (pderiv i F) := by
  ext m
  -- Both sides take the coefficient at `m` with both exponents raised, times a number for each.
  rw [coeff_pderiv, coeff_pderiv, coeff_pderiv, coeff_pderiv, add_right_comm]
  by_cases h : i = j
  · rw [h]
  · have hi : (m + Finsupp.single j 1 : Fin n →₀ Nat) i = m i := by simp [h]
    have hj : (m + Finsupp.single i 1 : Fin n →₀ Nat) j = m j := by simp [Ne.symm h]
    rw [hi, hj]
    ring

/-- A system whose residual has polynomials of total degree at most five as components. -/
structure PolynomialSystem (K : Type) [Field K] where
  /-- The positions at which the Hessian may differ from zero. -/
  pattern : Pattern
  /-- The Hessian is square. -/
  square : pattern.columns = pattern.rows
  /-- The components of the residual. -/
  component : Fin pattern.rows → MvPolynomial (Fin pattern.rows) K
  /-- Their total degrees are at most five. -/
  degree_le : ∀ k, (component k).totalDegree ≤ 5
  /-- The solution. -/
  solution : Vector K pattern.rows
  /-- The dual. -/
  dual : Vector K pattern.rows

namespace PolynomialSystem

variable {K : Type} [Field K] (S : PolynomialSystem K)

/-- The number of degrees of freedom. -/
abbrev dofs : Nat := S.pattern.rows

/-- The residual at a state. -/
noncomputable def residual (y : Vector K S.dofs) : Vector K S.dofs :=
  .ofFn fun k => eval y.get (S.component k)

/-- The inner product of the residual and a dual, as a polynomial in the state. -/
noncomputable def weighted (dual : Vector K S.dofs) : MvPolynomial (Fin S.dofs) K :=
  ∑ k, C (dual.get k) * S.component k

/-- The second derivatives at the solution of the inner product of the residual and a dual. -/
noncomputable def hessian (dual : Vector K S.dofs) (i j : Fin S.dofs) : K :=
  eval S.solution.get (pderiv i (pderiv j (S.weighted dual)))

/-- The pattern has every position at which the Hessian differs from zero. -/
def Covers (dual : Vector K S.dofs) : Prop :=
  ∀ i j : Fin S.dofs, S.hessian dual i j ≠ 0 → S.pattern.contains i j = true

/-- An entry of the matrix of differences: the second derivative, unless it is too small to be
stored. -/
noncomputable def kept [LinearOrder K] (settings : Settings K) (i j : Fin S.dofs) : K :=
  if |S.hessian (settings.dual.dualOf S.dual) i j| < settings.dropTolerance then 0
  else S.hessian (settings.dual.dualOf S.dual) i j

/-- What a verification finds if the differences are exact and the reference is the given matrix. -/
structure Finds [LinearOrder K] (settings : Settings K) (H : SparseMatrix K)
    (findings : Findings K) : Prop where
  /-- The matrix of differences is the Hessian, with zeros for the entries that are too small. -/
  differences : findings.differences = ⟨S.dofs, List.ofFn fun i => List.ofFn (S.kept settings i)⟩
  /-- The reference is the given matrix. -/
  reference : findings.reference =
    ⟨S.dofs, List.ofFn fun i : Fin S.dofs => List.ofFn fun j : Fin S.dofs =>
      (H.stored? i j).getD 0⟩
  /-- If nothing is dropped and the reference is the Hessian itself, there is no discrepancy, and
  the reference passes, relative to a positive number. -/
  pass : 0 < settings.degenerateNorm → settings.dropTolerance ≤ 0 → 0 ≤ settings.tolerance →
    (∀ i j : Fin S.dofs,
      (H.stored? i j).getD 0 = S.hessian (settings.dual.dualOf S.dual) i j) →
    findings.report.columnDiscrepancy = 0 ∧ findings.report.verdict = .pass ∧
      0 < findings.report.scale

/-! ## The Hessian -/

theorem totalDegree_weighted_le (dual : Vector K S.dofs) : (S.weighted dual).totalDegree ≤ 5 := by
  apply totalDegree_finsetSum_le
  intro k _
  refine (totalDegree_mul _ _).trans ?_
  rw [totalDegree_C, zero_add]
  exact S.degree_le k

/-- The Hessian is symmetric, so the pairs that are evaluated suffice. -/
theorem hessian_min_max (dual : Vector K S.dofs) (i j : Fin S.dofs) :
    S.hessian dual (min i j) (max i j) = S.hessian dual i j := by
  rcases le_total i j with h | h
  · rw [min_eq_left h, max_eq_right h]
  · rw [min_eq_right h, max_eq_left h, hessian, hessian, pderiv_comm]

/-- The function that the ranks sample is the polynomial. -/
theorem sampled_eq (dual : Vector K S.dofs) :
    (fun y => ∑ k, (S.residual y).get k * dual.get k) =
      fun y => eval y.get (S.weighted dual) := by
  funext y
  rw [weighted, map_sum]
  refine Finset.sum_congr rfl fun k _ => ?_
  have hcomponent : (S.residual y).get k = eval y.get (S.component k) := by
    show (S.residual y)[k.val] = _
    rw [residual, Vector.getElem_ofFn]
  rw [map_mul, eval_C, hcomponent, mul_comm]

/-- Every estimate is the derivative, whatever the step is. -/
theorem mixedPartial_eq_hessian [CharZero K] (dual : Vector K S.dofs) {h : K} (hh : h ≠ 0)
    (i j : Fin S.dofs) :
    (mixedPartial (m := Id) (fun y => eval y.get (S.weighted dual)) S.solution i j h).1 =
      S.hessian dual i j := by
  rw [mixedPartial_eq, hessian,
    ← Stencil.fourthOrder_exact (S.totalDegree_weighted_le dual) S.solution i j hh]
  rfl

variable [LinearOrder K] [IsStrictOrderedRing K] [Magnitude K] [ExactOrder K]

/-- The matrix of differences is the Hessian, but for the entries that are too small to be
stored. -/
theorem estimates_eq {settings : Settings K} (hcovers : S.Covers (settings.dual.dualOf S.dual))
    (step : Step K) (i j : Fin S.dofs) :
    Group.estimates
      (fun y => ∑ k, (S.residual y).get k * (settings.dual.dualOf S.dual).get k) S.solution
      ⟨step, settings.dropTolerance⟩ S.pattern i j = S.kept settings i j := by
  have hstep : step.size ≠ 0 := by
    have hadmissible := step.admissible
    rw [Bool.and_eq_true, ExactOrder.less_iff] at hadmissible
    exact ne_of_gt hadmissible.1
  simp only [Group.estimates, dif_pos i.isLt, dif_pos j.isLt, Fin.eta, S.sampled_eq,
    S.mixedPartial_eq_hessian _ hstep, hessian_min_max, ExactOrder.abs_eq]
  unfold kept
  by_cases hsmall : |S.hessian (settings.dual.dualOf S.dual) i j| < settings.dropTolerance
  · rw [if_pos hsmall, if_neg fun h => not_le.2 hsmall (less_eq_false_iff.1 h.2)]
  · -- The entry is not too small, and present unless it is zero.
    rw [if_neg hsmall]
    by_cases hzero : S.hessian (settings.dual.dualOf S.dual) i j = 0
    · -- A zero may be stored or not.
      split
      · rfl
      · exact hzero.symm
    · have hpresent : S.pattern.contains (min i j : Fin S.dofs) (max i j : Fin S.dofs) = true := by
        apply hcovers
        rwa [hessian_min_max]
      rw [if_pos ⟨hpresent, less_eq_false_iff.2 (not_lt.1 hsmall)⟩]

/-! ## The verification -/

variable [SquareRoot K]

/-- The findings of exact differences. -/
theorem finds_ofEntries {settings : Settings K} {a : Nat → Nat → K}
    (ha : ∀ i j : Fin S.dofs, a i j = S.kept settings i j) (H : SparseMatrix K) :
    S.Finds settings H
      (.ofEntries settings.tolerances S.dofs S.dofs a fun i j => (H.stored? i j).getD 0) where
  differences := Dense.tabulate_eq_ofFn ha
  reference := Dense.tabulate_eq_ofFn fun _ _ => rfl
  pass hdegenerate hdrop htolerance hH := by
    refine Findings.pass_of_agree (fun i hi j hj => ?_) hdegenerate htolerance
    have hkept := ha ⟨i, hi⟩ ⟨j, hj⟩
    -- No magnitude is below a tolerance that is not positive, so nothing is dropped.
    rw [kept, if_neg (not_lt.2 (hdrop.trans (abs_nonneg _))), ← hH] at hkept
    exact hkept

/-- Differences of polynomial residuals are exact, end to end: the ranks build their systems from
one description, and the matrix of differences that they assemble in a verification is the Hessian
with the entries below the tolerance replaced by zero, whatever the step is and whatever can be
written. Where files can be written, all ranks obtain the report of these findings. -/
theorem verify_exact {d : Description K} {rule : HessianRule K}
    (hd : d.Gives S.pattern S.residual rule S.solution S.dual) (settings : Settings K)
    (hstep : 0 < settings.step) (hcovers : S.Covers (settings.dual.dualOf S.dual))
    {H : SparseMatrix K} (hH : rule S.dofs S.solution (settings.dual.dualOf S.dual) = .ok H)
    (hshape : H.rows = S.dofs ∧ H.columns = S.dofs) {size : Nat} (hsize : 0 < size)
    {c : Fin size → Place} (hc : ∀ r, (c r).rank = r ∧ (c r).size = size) :
    ∃ findings : Findings K, S.Finds settings H findings ∧
      d.Assembles settings c findings.differences ∧ d.Verifies settings c findings ∧
      ∀ {σ : Type} {n : Nat} {p : Partition n} (D : Discretization σ K (Console K) p),
        D.verify settings = Findings.report <$> D.verifyOpenly settings := by
  obtain ⟨step, hstep'⟩ := Step.exists_ofSize hstep
  refine ⟨_, S.finds_ofEntries (S.estimates_eq hcovers step) H,
    Description.assembles hd settings hstep' hH hshape hsize hc,
    Description.verifies hd settings hstep' hH hshape hsize hc, fun D => D.verify_eq settings⟩

/-! ## A system with two degrees of freedom -/

/-- The system with the product of both coordinates as its components. -/
noncomputable def bilinear : PolynomialSystem Rat where
  pattern := .banded 2 1
  square := rfl
  component := fun _ => (X 0 * X 1 : MvPolynomial (Fin 2) Rat)
  degree_le _ := by
    have h := totalDegree_mul (X 0 : MvPolynomial (Fin 2) Rat) (X 1)
    rw [totalDegree_X, totalDegree_X] at h
    exact h.trans (by decide)
  solution := (#v[4, 5] : Vector Rat 2)
  dual := (#v[1, 2] : Vector Rat 2)

/-- The second derivatives of the product, for the dual `(1, 2)`. -/
def bilinearHessian : SparseMatrix Rat := .ofEntries 2 2 [⟨0, 1, 3⟩, ⟨1, 0, 3⟩]

private theorem stored?_bilinearHessian (i j : Fin 2) :
    (bilinearHessian.stored? i j).getD 0 =
      eval (#v[4, 5] : Vector Rat 2).get (pderiv i (pderiv j (∑ k : Fin 2,
        C ((#v[1, 2] : Vector Rat 2).get k) * (X 0 * X 1 : MvPolynomial (Fin 2) Rat)))) := by
  have hdual : (#v[1, 2] : Vector Rat 2).get 0 = 1 ∧ (#v[1, 2] : Vector Rat 2).get 1 = 2 :=
    ⟨rfl, rfl⟩
  have hstored : (bilinearHessian.stored? 0 0).getD 0 = 0 ∧
      (bilinearHessian.stored? 0 1).getD 0 = 3 ∧ (bilinearHessian.stored? 1 0).getD 0 = 3 ∧
        (bilinearHessian.stored? 1 1).getD 0 = 0 := ⟨rfl, rfl, rfl, rfl⟩
  rw [Fin.sum_univ_two, hdual.1, hdual.2]
  match i, j with
  | 0, 0 => simp [pderiv_X, hstored]
  | 0, 1 => simp [pderiv_X, hstored]; norm_num
  | 1, 0 => simp [pderiv_X, hstored]; norm_num
  | 1, 1 => simp [pderiv_X, hstored]

/-- A description that fits the system. -/
noncomputable def bilinearDescription : Description Rat where
  residual? := some fun n y =>
    if h : n = 2 then .ok (.ofFn fun _ => y.get ⟨0, by omega⟩ * y.get ⟨1, by omega⟩)
    else .error .noSuchEntry
  hessian? := some fun _ _ _ => .ok bilinearHessian
  pattern? := some (.banded 2 1)
  solution? := some [4, 5]
  dual? := some [1, 2]

private theorem eval_product (y : Vector Rat 2) :
    eval y.get (X 0 * X 1 : MvPolynomial (Fin 2) Rat) = y.get 0 * y.get 1 := by
  rw [map_mul, eval_X, eval_X]

private theorem gives_bilinear : bilinearDescription.Gives bilinear.pattern bilinear.residual
    (fun _ _ _ => .ok bilinearHessian) bilinear.solution bilinear.dual where
  pattern_eq := rfl
  square := rfl
  residual_eq := by
    refine ⟨_, rfl, fun y => ?_⟩
    refine (dif_pos rfl).trans (congrArg Except.ok (Vector.ext fun k hk => ?_))
    rw [residual, Vector.getElem_ofFn, Vector.getElem_ofFn]
    exact (eval_product y).symm
  hessian_eq := rfl
  solution_eq := rfl
  dual_eq := rfl

private theorem contains_bilinear (i j : Fin 2) :
    (Pattern.banded 2 1).contains i j = true := by
  revert i j
  decide

/-- Two ranks that verify the system with a step of one tenth find that nothing differs. -/
theorem verify_exact_two_ranks :
    let settings : Settings Rat := ⟨1 / 10, 1 / 100, 0, 1, ".", 5, .keep⟩
    ∃ findings : Findings Rat, findings.differences = ⟨2, [[0, 3], [3, 0]]⟩ ∧
      findings.reference = ⟨2, [[0, 3], [3, 0]]⟩ ∧ findings.report.columnDiscrepancy = 0 ∧
      findings.report.verdict = .pass ∧
      ∃ (n : Nat) (p : Fin 2 → Partition n) (system : (r : Fin 2) → ClosureSystem Rat (p r))
        (state s : (r : Fin 2) → ClosureState Rat (p r)),
        (∀ r, bilinearDescription.build (.member r.val 2 r.isLt) =
          .ok ⟨n, p r, system r, state r⟩) ∧
        Group.Returns
          (fun r => (((system r).discretization.verify settings).run (state r)).settle
            (Group.acceptAll Rat) ())
          (fun r => ((.ok findings.report, s r), ())) := by
  intro settings
  obtain ⟨findings, hfinds, -, ⟨n, p, system, state, hbuild, hverify⟩, -⟩ :=
    bilinear.verify_exact gives_bilinear settings (by norm_num [settings])
      (fun i j _ => contains_bilinear i j) (H := bilinearHessian) rfl ⟨rfl, rfl⟩
      (by decide : 0 < 2) (c := fun r => .member r.val 2 r.isLt) (fun _ => ⟨rfl, rfl⟩)
  obtain ⟨hzero, hpass, -⟩ := hfinds.pass (by norm_num [settings]) le_rfl
    (by norm_num [settings]) stored?_bilinearHessian
  have hreference : findings.reference = ⟨2, [[0, 3], [3, 0]]⟩ := hfinds.reference
  -- Nothing is dropped, so the matrix of differences is the Hessian, and so is the reference.
  have hkept : ∀ i j : Fin 2,
      bilinear.kept settings i j = (bilinearHessian.stored? i j).getD 0 := fun i j =>
    (if_neg (not_lt.2 (abs_nonneg _))).trans (stored?_bilinearHessian i j).symm
  have hdifferences : findings.differences = ⟨2, [[0, 3], [3, 0]]⟩ := by
    rw [hfinds.differences, ← hreference, hfinds.reference]
    exact congrArg (Dense.mk 2) (congrArg List.ofFn (funext fun i =>
      congrArg List.ofFn (funext (hkept i))))
  obtain ⟨⟨s, t, hreturns⟩, -⟩ := hverify (fun _ => Group.acceptAll Rat) (fun _ => ())
    fun _ => Group.accepts_acceptAll Rat
  exact ⟨findings, hdifferences, hreference, hzero, hpass, n, p, system, state, s, hbuild,
    hreturns⟩

end PolynomialSystem

end DualHessian
