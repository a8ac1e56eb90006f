import DualHessian.Proofs.Distributed.Entrywise
import DualHessian.Proofs.Verify.Outcome
import Mathlib.Tactic.NormNum

/-!
# Independence of the number of ranks

With exact numbers a verification finds the same on any number of ranks as on a single one. The
ranks hold other rows, see other parts of the pattern and add in another order, but all that they
gather and report is determined by the entries of two matrices, and those do not depend on how the
degrees of freedom are divided.

* `Group.findings_eq` says that what a comparison finds follows from the entries.
* `Group.Estimated.holds` gives the entries of the matrix of differences.
* `Description.Verifies` says what the ranks find that build their systems from one description,
  `Description.Assembles` which matrix of differences they assemble, and
  `Description.verifies_same` that all groups find the same.
-/

namespace DualHessian

/-! ## Comparisons -/

section Comparisons

variable {K : Type} [Field K] {n size columns : Nat} {p : Fin size → Partition n}
  {A B : GroupMatrix K p} {a b : Nat → Nat → K}

/-- What is read from a sum, if nothing counts as zero. -/
theorem getD_sum? (factor : K) (x y : Option K) :
    (sum? factor x y).getD 0 = x.getD 0 + factor * y.getD 0 := by
  cases x <;> cases y <;> simp [sum?]

/-- The entries of a difference are the differences of the entries. -/
theorem GroupMatrix.Holds.minus (hA : A.Holds columns a) (hB : B.Holds columns b) :
    (A.minus B).Holds columns fun i j => a i j + -1 * b i j where
  columns_eq := hA.columns_eq
  get?_eq r i hi j hj := by
    obtain ⟨hinside, ha⟩ := RowMatrix.get?_eq_some_iff.1 (hA.get?_eq r i hi j hj)
    obtain ⟨-, hb⟩ := RowMatrix.get?_eq_some_iff.1 (hB.get?_eq r i hi j hj)
    refine RowMatrix.get?_eq_some_iff.2 ⟨hinside, ?_⟩
    rw [GroupMatrix.minus, RowMatrix.stored?_plus ((hA.columns_eq r).trans (hB.columns_eq r).symm),
      getD_sum?, ha, hb]

variable [LinearOrder K] [Magnitude K] [SquareRoot K]

/-- What is found in a comparison of matrices with the given entries. -/
def Findings.ofEntries (t : Tolerances K) (rows columns : Nat) (a b : Nat → Nat → K) :
    Findings K :=
  let norm (a : Nat → Nat → K) : K :=
    sqrt (∑ i ∈ Finset.range rows, ∑ j ∈ Finset.range columns, a i j * a i j)
  let dense (a : Nat → Nat → K) : Dense K :=
    ⟨columns, (List.range rows).map fun i => (List.range columns).map (a i)⟩
  let difference (i j : Nat) : K := a i j + -1 * b i j
  { report := t.report (norm b) (norm a)
      (largestOf ((List.range columns).map fun j => ∑ i ∈ Finset.range rows, |difference i j|))
      (max Magnitude.lowest
        (largestOf ((List.range rows).map fun i => ∑ j ∈ Finset.range columns, |difference i j|)))
    differences := dense a
    reference := dense b
    discrepancy := dense difference }

/-- The findings of a group follow from the entries of both matrices. -/
theorem Group.findings_eq [IsStrictOrderedRing K] [ExactOrder K] (hA : A.Holds columns a)
    (hB : B.Holds columns b) (hdivide : Partition.Divide p) (hsize : 0 < size)
    (t : Tolerances K) : findings t columns A B = .ofEntries t n columns a b := by
  have hminus := hA.minus hB
  simp only [findings, GroupMatrix.report, Findings.ofEntries]
  rw [hA.frobenius_eq hdivide, hB.frobenius_eq hdivide, hminus.columnNorm_eq hdivide,
    hminus.rowNorm_eq hdivide hsize, hA.dense_eq hdivide, hB.dense_eq hdivide,
    hminus.dense_eq hdivide]

end Comparisons

/-! ## Entries -/

namespace Group

variable {K : Type} [Field K] [Magnitude K] {n size : Nat} {p : Fin size → Partition n}

/-- The estimates for a function at the positions of a pattern, and zero elsewhere and where they
are too small. -/
def estimates (f : Vector K n → K) (x : Vector K n) (a : Assembler K) (pattern : Pattern)
    (i j : Nat) : K :=
  if hi : i < n then
    if hj : j < n then
      let k : Fin n := ⟨i, hi⟩
      let l : Fin n := ⟨j, hj⟩
      let value := (mixedPartial (m := Id) f x (min k l) (max k l) a.step.size).1
      if pattern.contains (min k l : Fin n) (max k l : Fin n) = true ∧
          Magnitude.less (Magnitude.abs value) a.dropTolerance = false then value
        else 0
    else 0
  else 0

omit [Magnitude K] in
/-- The ranks sample the same function, however the degrees of freedom are divided. -/
theorem sampled_eq_sum (hdivide : Partition.Divide p) (residual : Vector K n → Vector K n)
    (dual : Vector K n) :
    sampled p (fun _ => residual) dual = fun y => ∑ k, (residual y).get k * dual.get k :=
  funext fun y => product_eq hdivide (residual y) dual

/-- The entries of the matrix of differences, if every rank sees its own rows of one pattern. -/
theorem Estimated.holds (hdivide : Partition.Divide p) {residual : Vector K n → Vector K n}
    {x dual : Vector K n} {a : Assembler K} {pattern : Pattern} {differences : GroupMatrix K p}
    (h : Estimated (fun _ => residual) x dual a (fun r => (pattern.restrict (p r).owns).occupancy)
      differences) :
    differences.Holds n
      (estimates (fun y => ∑ k, (residual y).get k * dual.get k) x a pattern) where
  columns_eq := h.columns_eq
  get?_eq r i hi j hj := by
    have hin : i < n := (p r).lt_of_mem_owned hi
    have hvalue := h.get?_eq (i := ⟨i, hin⟩) hi ⟨j, hj⟩
    rw [Assembler.anyHolds_restrict hdivide _ (min _ _ : Fin n).isLt,
      sampled_eq_sum hdivide] at hvalue
    rw [estimates, dif_pos hin, dif_pos hj]
    exact hvalue

omit [Magnitude K] in
/-- The entries of the reference, if every rank keeps its own rows of one matrix. -/
theorem holds_of_restrict {H : SparseMatrix K} (hcolumns : H.columns = n)
    {reference : GroupMatrix K p} (h : ∀ r, (reference r).part = H.restrict (p r).owns) :
    reference.Holds n fun i j => (H.stored? i j).getD 0 where
  columns_eq r := (RowMatrix.columns_of_restrict (h r)).trans hcolumns
  get?_eq r _ hi _ hj := RowMatrix.get?_of_restrict (h r) hi (hcolumns ▸ hj)

/-- What is found follows from the sampled function and from the matrix that the rule gives. -/
theorem Estimated.findings_eq [LinearOrder K] [IsStrictOrderedRing K] [SquareRoot K]
    [ExactOrder K] (hdivide : Partition.Divide p) (hsize : 0 < size)
    {residual : Vector K n → Vector K n} {x dual : Vector K n} {a : Assembler K}
    {pattern : Pattern} {differences reference : GroupMatrix K p}
    (h : Estimated (fun _ => residual) x dual a (fun r => (pattern.restrict (p r).owns).occupancy)
      differences) {H : SparseMatrix K} (hcolumns : H.columns = n)
    (hpart : ∀ r, (reference r).part = H.restrict (p r).owns) (t : Tolerances K) :
    findings t n differences reference = .ofEntries t n n
      (estimates (fun y => ∑ k, (residual y).get k * dual.get k) x a pattern)
      fun i j => (H.stored? i j).getD 0 :=
  Group.findings_eq (h.holds hdivide) (holds_of_restrict hcolumns hpart) hdivide hsize t

end Group

/-! ## Verifications -/

/-- Every positive number is a step. -/
theorem Step.exists_ofSize {K : Type} [Field K] [LinearOrder K] [Magnitude K] [ExactOrder K]
    {h : K} (hh : 0 < h) : ∃ step, Step.ofSize h = .ok step := by
  have hadmissible : (Magnitude.less 0 h && Magnitude.finite h) = true := by
    rw [ExactOrder.less_iff.2 hh, ExactOrder.finite_eq]
    rfl
  exact ⟨⟨h, hadmissible⟩, dif_pos hadmissible⟩

namespace Description

variable {K : Type} [Field K]

/-- The description gives everything that a verification needs. -/
structure Gives (d : Description K) (pattern : Pattern)
    (residual : Vector K pattern.rows → Vector K pattern.rows) (rule : HessianRule K)
    (solution dual : Vector K pattern.rows) : Prop where
  /-- The pattern is given. -/
  pattern_eq : d.pattern? = some pattern
  /-- It is square. -/
  square : pattern.columns = pattern.rows
  /-- The residual is given. -/
  residual_eq : ∃ f, d.residual? = some f ∧ ∀ y, f pattern.rows y = .ok (residual y)
  /-- The Hessian is given by the rule. -/
  hessian_eq : d.hessian? = some rule
  /-- The solution is given, or it is zero. -/
  solution_eq : vectorOr pattern.rows d.solution? = solution.toList
  /-- The dual is given, or it is zero. -/
  dual_eq : vectorOr pattern.rows d.dual? = dual.toList

section Building

variable {d : Description K} {pattern : Pattern}
  {residual : Vector K pattern.rows → Vector K pattern.rows} {rule : HessianRule K}
  {solution dual : Vector K pattern.rows}

/-- The ranks build their systems, each with its own rows of the pattern. -/
theorem Gives.build_ok (hd : d.Gives pattern residual rule solution dual) {size : Nat}
    (hsize : 0 < size) {c : Fin size → Place} (hc : ∀ r, (c r).rank = r ∧ (c r).size = size) :
    ∃ (p : Fin size → Partition pattern.rows) (system : (r : Fin size) → ClosureSystem K (p r)),
      Partition.Divide p ∧
      (∀ r, d.build (c r) =
        .ok ⟨pattern.rows, p r, system r, .initial (p r) solution dual⟩) ∧
      (∀ r y, (system r).residual pattern.rows y = .ok (residual y)) ∧
      (∀ r, (system r).pattern = pattern.restrict (p r).owns) ∧
      ∀ r, (system r).hessian? = some rule := by
  obtain ⟨f, hf, hresidual⟩ := hd.residual_eq
  obtain ⟨p, hdivide, hbuild⟩ := Description.build_ok hsize hc d hf hd.pattern_eq hd.square
    hd.solution_eq hd.dual_eq
  exact ⟨p, fun r => ⟨c r, pattern.restrict (p r).owns, f, d.hessian?⟩, hdivide, hbuild,
    fun _ => hresidual, fun _ => rfl, fun _ => hd.hessian_eq⟩

/-- The part of a pattern that a rank sees has the shape of the pattern. -/
theorem Gives.shape (hd : d.Gives pattern residual rule solution dual) {size : Nat}
    {p : Fin size → Partition pattern.rows} {system : (r : Fin size) → ClosureSystem K (p r)}
    (hpattern : ∀ r, (system r).pattern = pattern.restrict (p r).owns) (r : Fin size) :
    (system r).pattern.rows = pattern.rows ∧ (system r).pattern.columns = pattern.rows := by
  rw [hpattern r]
  exact ⟨Pattern.rows_restrict .., hd.square⟩

end Building

variable [LinearOrder K] [Magnitude K] [SquareRoot K]

/-- The ranks at the given places all build their systems from the description, and all of them find
the same in a verification: the report that it returns, and the matrices that it gathers. -/
def Verifies (d : Description K) (settings : Settings K) {size : Nat} (c : Fin size → Place)
    (findings : Findings K) : Prop :=
  ∃ (n : Nat) (p : Fin size → Partition n) (system : (r : Fin size) → ClosureSystem K (p r))
    (state : (r : Fin size) → ClosureState K (p r)),
    (∀ r, d.build (c r) = .ok ⟨n, p r, system r, state r⟩) ∧
    ∀ {τ : Fin size → Type}
      (answer : (r : Fin size) → (q : (Console K).Request) → StateM (τ r) ((Console K).Reply q))
      (surroundings : (r : Fin size) → τ r), (∀ r, Group.Accepts (answer r)) →
      (∃ (s : (r : Fin size) → ClosureState K (p r)) (t : (r : Fin size) → τ r), Group.Returns
        (fun r => (((system r).discretization.verify settings).run (state r)).settle (answer r)
          (surroundings r))
        (fun r => ((.ok findings.report, s r), t r))) ∧
      ∃ (s : (r : Fin size) → ClosureState K (p r)) (t : (r : Fin size) → τ r), Group.Returns
        (fun r => (((system r).discretization.verifyOpenly settings).run (state r)).settle
          (answer r) (surroundings r))
        (fun r => ((.ok findings, s r), t r))

/-- The ranks at the given places all build their systems from the description, and assemble in a
verification, whatever can be written, matrices of differences that all of them gather as the given
one. -/
def Assembles (d : Description K) (settings : Settings K) {size : Nat} (c : Fin size → Place)
    (differences : Dense K) : Prop :=
  ∃ (n : Nat) (p : Fin size → Partition n) (system : (r : Fin size) → ClosureSystem K (p r))
    (state : (r : Fin size) → ClosureState K (p r)),
    (∀ r, d.build (c r) = .ok ⟨n, p r, system r, state r⟩) ∧
    ∀ {τ : Fin size → Type}
      (answer : (r : Fin size) → (q : (Console K).Request) → StateM (τ r) ((Console K).Reply q))
      (surroundings : (r : Fin size) → τ r),
      ∃ (matrices reference : GroupMatrix K p) (s : (r : Fin size) → ClosureState K (p r))
        (t : (r : Fin size) → τ r), Group.Returns
          (fun r => (((system r).discretization.bothMatrices settings).run (state r)).settle
            (answer r) (surroundings r))
          (fun r => ((.ok (matrices r, reference r), s r), t r)) ∧
        Group.dense matrices n = differences

variable [IsStrictOrderedRing K] [ExactOrder K] {d : Description K} {pattern : Pattern}
  {residual : Vector K pattern.rows → Vector K pattern.rows} {rule : HessianRule K}
  {solution dual : Vector K pattern.rows} {H : SparseMatrix K}

/-- What is found follows from the description alone. -/
theorem verifies (hd : d.Gives pattern residual rule solution dual) (settings : Settings K)
    {step : Step K} (hstep : Step.ofSize settings.step = .ok step)
    (hH : rule pattern.rows solution (settings.dual.dualOf dual) = .ok H)
    (hshape : H.rows = pattern.rows ∧ H.columns = pattern.rows) {size : Nat} (hsize : 0 < size)
    {c : Fin size → Place} (hc : ∀ r, (c r).rank = r ∧ (c r).size = size) :
    d.Verifies settings c
      (.ofEntries settings.tolerances pattern.rows pattern.rows
        (Group.estimates (fun y => ∑ k, (residual y).get k * (settings.dual.dualOf dual).get k)
          solution ⟨step, settings.dropTolerance⟩ pattern)
        fun i j => (H.stored? i j).getD 0) := by
  obtain ⟨p, system, hdivide, hbuild, hresidual, hpattern, hrule⟩ := hd.build_ok hsize hc
  have hshare := ClosureState.share_initial p solution dual
  generalize hfindings : Findings.ofEntries settings.tolerances _ _ _ _ = findings
  have hopenly : Group.Proceeds (Group.accepting K size) (fun r => .initial (p r) solution dual)
      (fun out _ => out = fun _ => findings)
      fun r => (system r).discretization.verifyOpenly settings := by
    refine (Group.proceeds_verifyOpenly (Group.writable_accepting K size) system hdivide
      hresidual hshare hstep (hd.shape hpattern) hrule hH hshape).mono ?_
    rintro _ _ ⟨differences, reference, hestimated, hpart, rfl⟩
    -- The ranks see parts of one pattern, so their findings are those of the whole.
    simp only [hpattern] at hestimated
    rw [hestimated.findings_eq hdivide hsize hshape.2 hpart, hfindings]
  refine ⟨_, p, system, _, hbuild, fun answer surroundings haccepts => ⟨?_, ?_⟩⟩
  · obtain ⟨_, s, t, rfl, hreturns⟩ := (Group.proceeds_verify hopenly).settled answer
      (fun _ => rfl) (fun r => (haccepts r).alone r) surroundings
    exact ⟨s, t, hreturns⟩
  · obtain ⟨_, s, t, rfl, hreturns⟩ := hopenly.settled answer (fun _ => rfl)
      (fun r => (haccepts r).alone r) surroundings
    exact ⟨s, t, hreturns⟩

omit [LinearOrder K] [SquareRoot K] [IsStrictOrderedRing K] [ExactOrder K] in
/-- So does the matrix of differences, whatever can be written. -/
theorem assembles (hd : d.Gives pattern residual rule solution dual) (settings : Settings K)
    {step : Step K} (hstep : Step.ofSize settings.step = .ok step)
    (hH : rule pattern.rows solution (settings.dual.dualOf dual) = .ok H)
    (hshape : H.rows = pattern.rows ∧ H.columns = pattern.rows) {size : Nat} (hsize : 0 < size)
    {c : Fin size → Place} (hc : ∀ r, (c r).rank = r ∧ (c r).size = size) :
    d.Assembles settings c (.tabulate pattern.rows pattern.rows
      (Group.estimates (fun y => ∑ k, (residual y).get k * (settings.dual.dualOf dual).get k)
        solution ⟨step, settings.dropTolerance⟩ pattern)) := by
  obtain ⟨p, system, hdivide, hbuild, hresidual, hpattern, hrule⟩ := hd.build_ok hsize hc
  refine ⟨_, p, system, _, hbuild, fun answer surroundings => ?_⟩
  obtain ⟨matrices, s, t, ⟨hestimated, _⟩, hreturns⟩ :=
    (Group.proceeds_bothMatrices (R := .any (Console K) size) (fun _ => rfl) system hdivide
      hresidual (ClosureState.share_initial p solution dual) hstep (hd.shape hpattern) hrule hH
      hshape).settled answer (fun _ => rfl) (fun _ _ _ => trivial) surroundings
  simp only [hpattern] at hestimated
  exact ⟨_, _, s, t, hreturns, (hestimated.holds hdivide).dense_eq hdivide⟩

/-- A verification finds the same on any number of ranks as on a single one: the same report, and
the same matrices. -/
theorem verifies_same (hd : d.Gives pattern residual rule solution dual) (settings : Settings K)
    (hstep : 0 < settings.step)
    (hH : rule pattern.rows solution (settings.dual.dualOf dual) = .ok H)
    (hshape : H.rows = pattern.rows ∧ H.columns = pattern.rows) :
    ∃ findings : Findings K, d.Verifies settings (fun _ : Fin 1 => .alone) findings ∧
      ∀ size, 0 < size →
        d.Verifies settings (fun r : Fin size => .member r.val size r.isLt) findings := by
  obtain ⟨step, hstep'⟩ := Step.exists_ofSize hstep
  refine ⟨_, verifies hd settings hstep' hH hshape Nat.one_pos fun r => ?_,
    fun size hsize => verifies hd settings hstep' hH hshape hsize fun _ => ⟨rfl, rfl⟩⟩
  exact ⟨(Fin.val_eq_zero r).symm, rfl⟩

/-- A system with two degrees of freedom: each component of its residual is the cube of a
coordinate. -/
def cubic : Description Rat where
  residual? := some fun _ y => .ok (y.map fun v => v * v * v)
  hessian? := some fun n x y => .ok (.ofEntries n n
    ((List.finRange n).map fun i => ⟨i.val, i.val, 6 * x.get i * y.get i⟩))
  pattern? := some (.banded 2 1)
  solution? := some [4, 5]
  dual? := some [1, 2]

/-- Three ranks, of which one owns nothing, find the same as a single one. -/
theorem verifies_same_three_ranks :
    let settings : Settings Rat := ⟨1 / 10, 1 / 100, 0, 1, ".", 5, .unit⟩
    ∃ findings : Findings Rat, cubic.Verifies settings (fun _ : Fin 1 => .alone) findings ∧
      cubic.Verifies settings (fun r : Fin 3 => .member r.val 3 r.isLt) findings := by
  intro settings
  have hd : cubic.Gives (.banded 2 1) (fun y => y.map fun v => v * v * v) _
      (#v[4, 5] : Vector Rat 2) (#v[1, 2] : Vector Rat 2) :=
    ⟨rfl, rfl, ⟨_, rfl, fun _ => rfl⟩, rfl, rfl, rfl⟩
  obtain ⟨findings, halone, hmembers⟩ := verifies_same hd settings (by norm_num [settings]) rfl
    ⟨SparseMatrix.rows_ofEntries .., rfl⟩
  exact ⟨findings, halone, hmembers 3 (by decide)⟩

end Description

end DualHessian
