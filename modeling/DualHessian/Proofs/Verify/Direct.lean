import DualHessian.Proofs.Numbers.Exact
import DualHessian.Proofs.Verify.Outcome

/-!
# Differences taken directly

The ranks of a group perturb a distributed solution in place and add up their shares of each sample.
What they obtain is what `mixedPartial` and `hessian` compute from the sampled function itself, at a
point that is moved from one perturbation to the next. Both do the same operations in the same
order, so no law of arithmetic is used.

* `Group.proceeds_evaluate` is this for one pair of directions.
* `Group.agrees_with_direct` follows a sample, an evaluation and an assembly to their ends.
-/

namespace DualHessian

namespace Group

open ClosureState

variable {α : Type} [Arithmetic α] {n size : Nat} {p : Fin size → Partition n}
  {R : Replies (Console α) size} {x dual : Vector α n}
  {states : (r : Fin size) → ClosureState α (p r)}

/-- All ranks obtain the mixed derivative of the sampled function. -/
theorem proceeds_evaluate (hown : ∀ q, R.shared q = false)
    (S : (r : Fin size) → ClosureSystem α (p r)) (hdivide : Partition.Divide p)
    {residual : Fin size → Vector α n → Vector α n}
    (hresidual : ∀ r y, (S r).residual n y = .ok (residual r y)) (h : Share x dual states)
    (step : α) (i j : Fin n) :
    Proceeds R states
      (fun out _ => out = fun _ =>
        .ok (mixedPartial (m := Id) (sampled p residual dual) x i j step).1)
      fun r => ((S r).discretization : Discretization _ α (Console α) (p r)).sample.runProgram
        Discretization.recordProgress (evaluate step i j) := by
  have hevaluate := (Assembler.issues_evaluate (S := Samples p residual x dual) step i j).attains
  refine (Attains.serve hevaluate (answers_sample hown S hdivide hresidual) h).mono ?_
  rintro _ s ⟨⟨v, hv, rfl⟩, -⟩
  rw [eq_of_estimate hv]

variable [Magnitude α]

/-- What the owner of a row reads from the matrix of differences, if every pair is present. -/
theorem Estimated.get?_eq_hessian {residual : Fin size → Vector α n → Vector α n} {a : Assembler α}
    {pattern : Fin size → Occupancy} {differences : GroupMatrix α p}
    (h : Estimated residual x dual a pattern differences)
    (hall : ∀ i j : Fin n, i ≤ j → Assembler.anyHolds pattern i j = true) {r : Fin size} {i : Fin n}
    (hi : i.val ∈ (p r).owned) (j : Fin n) :
    let entry := ((hessian (m := Id) (sampled p residual dual) x a.step.size).1.get i).get j
    (differences r).get? i j = some
      (if Magnitude.less (Magnitude.abs entry) a.dropTolerance = true then 0 else entry) := by
  have hpresent := hall _ _ ((min_le_left i j).trans (le_max_left i j))
  rw [h.get?_eq hi j, get_hessian]
  simp only [hpresent, true_and, ← Bool.not_eq_true, ite_not]

/-- The ranks obtain by distributed samples what is computed from the sampled function directly. A
sample without perturbations is the value of the function; an evaluation is its mixed derivative;
and if every pair `i ≤ j` belongs to the pattern of some rank, the owner of a row reads from the
assembled matrix the entries of the matrix of all second derivatives, and zero for entries that are
too small. -/
theorem agrees_with_direct (S : (r : Fin size) → ClosureSystem α (p r))
    (hdivide : Partition.Divide p) {residual : Fin size → Vector α n → Vector α n}
    (hresidual : ∀ r y, (S r).residual n y = .ok (residual r y)) (h : Share x dual states)
    {τ : Fin size → Type}
    (answer : (r : Fin size) → (q : (Console α).Request) → StateM (τ r) ((Console α).Reply q))
    (surroundings : (r : Fin size) → τ r) :
    (∃ (s : (r : Fin size) → ClosureState α (p r)) (t : (r : Fin size) → τ r), Returns
      (fun r => (((S r).discretization.sample []).run (states r)).settle (answer r)
        (surroundings r))
      (fun r => ((.ok (sampled p residual dual x), s r), t r))) ∧
    (∀ (step : Step α) (i j : Fin n),
      ∃ (s : (r : Fin size) → ClosureState α (p r)) (t : (r : Fin size) → τ r), Returns
        (fun r => (((S r).discretization.sample.runProgram Discretization.recordProgress
          (evaluate step.size i j)).run (states r)).settle (answer r) (surroundings r))
        (fun r => ((.ok (.ok (mixedPartial (m := Id) (sampled p residual dual) x i j
          step.size).1), s r), t r))) ∧
    ∀ (a : Assembler α) (pattern : Fin size → Occupancy),
      (∀ r, (pattern r).rows = n ∧ (pattern r).columns = n) →
      (∀ i j : Fin n, i ≤ j → Assembler.anyHolds pattern i j = true) →
      ∃ (matrices : GroupMatrix α p) (s : (r : Fin size) → ClosureState α (p r))
        (t : (r : Fin size) → τ r),
        Returns
          (fun r => (((S r).discretization.differenceMatrix a (pattern r)).run (states r)).settle
            (answer r) (surroundings r))
          (fun r => ((.ok (matrices r), s r), t r)) ∧
        ∀ r (i : Fin n), i.val ∈ (p r).owned → ∀ j : Fin n,
          let entry := ((hessian (m := Id) (sampled p residual dual) x a.step.size).1.get i).get j
          (matrices r).get? i j = some
            (if Magnitude.less (Magnitude.abs entry) a.dropTolerance = true then 0 else entry) := by
  -- The surroundings are only told of the progress, so any will do.
  have hown : ∀ q, (Replies.any (Console α) size).shared q = false := fun _ => rfl
  refine ⟨?_, fun step i j => ?_, fun a pattern hshape hall => ?_⟩
  · obtain ⟨_, s, t, ⟨rfl, _⟩, hreturns⟩ :=
      (proceeds_sample (R := .any (Console α) size) S hdivide h [] fun r =>
        hresidual r x).settled answer hown (fun _ _ _ => trivial) surroundings
    exact ⟨s, t, hreturns⟩
  · obtain ⟨_, s, t, rfl, hreturns⟩ :=
      (proceeds_evaluate hown S hdivide hresidual h step.size i j).settled answer hown
        (fun _ _ _ => trivial) surroundings
    exact ⟨s, t, hreturns⟩
  · obtain ⟨matrices, s, t, ⟨hestimated, _⟩, hreturns⟩ :=
      (proceeds_differenceMatrix hown S hdivide hresidual h a pattern hshape).settled answer hown
        (fun _ _ _ => trivial) surroundings
    exact ⟨matrices, s, t, hreturns, fun r i hi j => hestimated.get?_eq_hessian hall hi j⟩

/-- Two ranks, each with a copy of what the other one owns, obtain the mixed derivative of the
product of both coordinates, three times. -/
theorem agrees_with_direct_two_ranks :
    let system (r : Fin 2) : ClosureSystem Rat (Partition.mirrored r) :=
      ⟨.member r.val 2 r.isLt, .banded 2 1, fun _ y => .ok (.ofFn fun _ => y.toList.prod), none⟩
    let state (r : Fin 2) : ClosureState Rat (Partition.mirrored r) :=
      .initial (Partition.mirrored r) #v[4, 5] #v[1, 2]
    ∃ (s : (r : Fin 2) → ClosureState Rat (Partition.mirrored r)) (t : Fin 2 → Unit), Returns
      (fun r => (((system r).discretization.sample.runProgram Discretization.recordProgress
        (evaluate 1 0 1)).run (state r)).settle (acceptAll Rat) ())
      (fun r => ((.ok (.ok 3), s r), t r)) := by
  intro system state
  let residual (_ : Fin 2) (y : Vector Rat 2) : Vector Rat 2 := .ofFn fun _ => y.toList.prod
  have hresidual : ∀ r y, (system r).residual 2 y = .ok (residual r y) := fun _ _ => rfl
  have hdirect := agrees_with_direct system Partition.divide_mirrored hresidual
    (share_initial Partition.mirrored #v[4, 5] #v[1, 2]) (fun _ => acceptAll Rat) fun _ => ()
  have hvalue : (mixedPartial (m := Id) (sampled Partition.mirrored residual #v[1, 2])
      #v[4, 5] 0 1 1).1 = 3 := by
    decide +kernel
  have hevaluate := hdirect.2.1 ⟨1, rfl⟩ 0 1
  rwa [hvalue] at hevaluate

end Group

end DualHessian
