import Mathlib.Algebra.BigOperators.Ring.List
import Mathlib.Algebra.Field.Rat
import Mathlib.Algebra.Module.LinearMap.Defs
import Mathlib.Algebra.Module.Pi
import Mathlib.Tactic.NormNum
import Mathlib.Tactic.Ring
import DualHessian.Differences.Stencil

/-!
# The two readings of a stencil

The table of a stencil is read in two ways. An estimate goes through the groups, adds or subtracts
every value by its sign and weights the sum of a group. A check of the weights goes through the
coefficients, where weight and sign are folded into one factor. Here both are loops that look every
value up when it is its turn, and stop at the first perturbation that is not on the grid.

* `Stencil.byGroups_eq` says that `combineOnGrid`, which looks at all perturbations beforehand, is
  the loop over the groups, and `Stencil.byCoefficients_eq` does the same for the coefficients. Both
  hold over any numbers, rounded ones too.
* `Stencil.combine_eq` is the estimate as a sum over the coefficients, over a field.
* `Stencil.combineLinear` is the estimate as a linear map.
* `Stencil.readings_agree` puts them together, on and off the grid.
-/

namespace DualHessian

/-! ## The grid -/

/-- The grid holds all pairs of offsets within its radius. -/
theorem mem_grid_iff {di dj : Int} : (di, dj) ∈ grid ↔ onGrid di ∧ onGrid dj := by
  have hmultiple : ∀ d : Int, d ∈ [-2, -1, 0, 1, 2] ↔ onGrid d := by
    intro d
    simp only [List.mem_cons, List.not_mem_nil, or_false, onGrid, Bool.and_eq_true,
      decide_eq_true_eq]
    omega
  -- The grid is the product of the multiples with themselves.
  simp only [grid, List.mem_flatMap, List.mem_map, Prod.mk.injEq, hmultiple]
  constructor
  · rintro ⟨_, hdi, _, hdj, rfl, rfl⟩
    exact ⟨hdi, hdj⟩
  · rintro ⟨hdi, hdj⟩
    exact ⟨di, hdi, dj, hdj, rfl, rfl⟩

/-- A perturbation is refused if and only if it does not belong to the grid. -/
theorem gridViolation?_eq_none_iff {di dj : Int} :
    gridViolation? di dj = none ↔ (di, dj) ∈ grid := by
  rw [mem_grid_iff, gridViolation?]
  cases onGrid di <;> cases onGrid dj <;> simp

/-- The places of the perturbations are those of an array with one value for each. -/
theorem gridPlace_lt {di dj : Int} (hd : (di, dj) ∈ grid) : gridPlace di dj < gridSize :=
  (by decide : ∀ d ∈ grid, gridPlace d.1 d.2 < gridSize) (di, dj) hd

/-! ## Loops that check as they go -/

section Loops

variable {α β γ ε : Type}

/-- A value, unless there is a reason to stop. -/
def stopOr (reason? : Option ε) (a : α) : Except ε α :=
  match reason? with
  | some reason => .error reason
  | none => .ok a

/-- With a reason, the loop stops. -/
@[simp] theorem stopOr_some (reason : ε) (a : α) : stopOr (some reason) a = .error reason := rfl

/-- Without a reason, it goes on. -/
@[simp] theorem stopOr_none (a : α) : stopOr (none : Option ε) a = .ok a := rfl

/-- What follows does not change the reason to stop. -/
theorem stopOr_bind (reason? : Option ε) (a : α) (f : α → β) :
    (do let a ← stopOr reason? a; return f a) = stopOr reason? (f a) := by
  cases reason? <;> rfl

/-- A loop whose steps stop by a check of their own stops as the first check does, and otherwise it
is the loop without the checks. -/
theorem foldlM_stopOr (check : β → Option ε) (f : α → β → α) (xs : List β) (a : α) :
    xs.foldlM (fun a x => stopOr (check x) (f a x)) a =
      stopOr (xs.findSome? check) (xs.foldl f a) := by
  induction xs generalizing a with
  | nil => rfl
  | cons x xs ih =>
    rw [List.foldlM_cons, List.findSome?_cons]
    cases check x with
    | some reason => rfl
    | none => exact ih (f a x)

/-- The first reason in joined lists is the first reason of the first list that has one. -/
theorem findSome?_flatMap (f : α → List β) (check : β → Option γ) (xs : List α) :
    (xs.flatMap f).findSome? check = xs.findSome? fun x => (f x).findSome? check := by
  induction xs with
  | nil => rfl
  | cons x xs ih =>
    rw [List.flatMap_cons, List.findSome?_append, List.findSome?_cons, ih]
    cases (f x).findSome? check <;> rfl

end Loops

namespace Stencil

/-! ## Both readings as loops -/

section Loops

variable {α : Type}

/-- Every value that takes part is on the grid. -/
def OnGrid (s : Stencil α) : Prop :=
  ∀ g ∈ s.groups, ∀ t ∈ g.taps, (t.di, t.dj) ∈ grid

/-- Every value that takes part is added once or subtracted once. -/
def Signed (s : Stencil α) : Prop :=
  ∀ g ∈ s.groups, ∀ t ∈ g.taps, t.sign = 1 ∨ t.sign = -1

instance (s : Stencil α) : Decidable s.OnGrid :=
  inferInstanceAs (Decidable (∀ g ∈ s.groups, ∀ t ∈ g.taps, (t.di, t.dj) ∈ grid))

instance (s : Stencil α) : Decidable s.Signed :=
  inferInstanceAs (Decidable (∀ g ∈ s.groups, ∀ t ∈ g.taps, t.sign = 1 ∨ t.sign = -1))

/-- Why the first perturbation outside the grid does not belong to it. -/
def violation? (s : Stencil α) : Option Violation :=
  (s.groups.flatMap (·.taps)).findSome? fun tap => gridViolation? tap.di tap.dj

/-- No perturbation is refused if and only if the stencil stays on the grid. -/
theorem violation?_eq_none_iff {s : Stencil α} : s.violation? = none ↔ s.OnGrid := by
  simp only [violation?, List.findSome?_eq_none_iff, List.mem_flatMap, gridViolation?_eq_none_iff,
    OnGrid]
  constructor
  · intro hs g hg t ht
    exact hs t ⟨g, hg, ht⟩
  · rintro hs t ⟨g, hg, ht⟩
    exact hs g hg t ht

variable [Arithmetic α]

/-- What is on the grid has its coefficients there. -/
theorem OnGrid.mem_grid {s : Stencil α} (hs : s.OnGrid) {c : Int × Int × α}
    (hc : c ∈ s.coefficients) : (c.1, c.2.1) ∈ grid := by
  obtain ⟨g, hg, hc⟩ := List.mem_flatMap.1 hc
  obtain ⟨t, ht, rfl⟩ := List.mem_map.1 hc
  exact hs g hg t ht

/-- The value at a perturbation, if it belongs to the grid. -/
def sampleAt (samples : Vector α gridSize) (di dj : Int) : Except Violation α := do
  let place ← gridPlaceOf di dj
  return samples.getD place 0

/-- The estimate as the loop over the groups. -/
def byGroups (s : Stencil α) (samples : Vector α gridSize) (h : α) : Except Violation α := do
  let total ← s.groups.foldlM (fun total g => do
    let term ← g.taps.foldlM (fun term tap => do
      let sample ← sampleAt samples tap.di tap.dj
      return if 0 < tap.sign then term + sample else term - sample) 0
    return total + term * g.weight) 0
  return total / (s.denominator * h * h)

/-- The estimate as the loop over the coefficients. -/
def byCoefficients (s : Stencil α) (samples : Vector α gridSize) (h : α) : Except Violation α := do
  let total ← s.coefficients.foldlM (fun total c => do
    let sample ← sampleAt samples c.1 c.2.1
    return total + c.2.2 * sample) 0
  return total / (s.denominator * h * h)

/-- The fourth-order stencil has signs `1` and `-1` only. -/
theorem signed_fourthOrder : (fourthOrder : Stencil α).Signed := of_decide_eq_true rfl

/-- The fourth-order stencil reads on the grid only. -/
theorem onGrid_fourthOrder : (fourthOrder : Stencil α).OnGrid := of_decide_eq_true rfl

/-- A sample is read where it stands on the grid, and off the grid reading stops. -/
theorem sampleAt_eq (samples : Vector α gridSize) (di dj : Int) :
    sampleAt samples di dj =
      stopOr (gridViolation? di dj) (samples.getD (gridPlace di dj) 0) := by
  rw [sampleAt, gridPlaceOf]
  cases gridViolation? di dj <;> rfl

/-- The checked reading is the unchecked one, stopped at the first offset off the grid. -/
theorem combineOnGrid_eq (s : Stencil α) (samples : Vector α gridSize) (h : α) :
    s.combineOnGrid samples h = stopOr s.violation? (s.combine samples h) := by
  rw [combineOnGrid, violation?]
  cases (s.groups.flatMap (·.taps)).findSome? fun tap => gridViolation? tap.di tap.dj <;> rfl

/-- A stencil on the grid never stops. -/
theorem combineOnGrid_of_onGrid {s : Stencil α} (hs : s.OnGrid) (samples : Vector α gridSize)
    (h : α) : s.combineOnGrid samples h = .ok (s.combine samples h) := by
  rw [combineOnGrid_eq, violation?_eq_none_iff.2 hs, stopOr_none]

/-- An estimate is refused if and only if the stencil leaves the grid. -/
theorem combineOnGrid_refused_iff (s : Stencil α) (samples : Vector α gridSize) (h : α) :
    (∃ violation, s.combineOnGrid samples h = .error violation) ↔ ¬ s.OnGrid := by
  rw [combineOnGrid_eq, ← violation?_eq_none_iff]
  cases s.violation? <;> simp

/-- The loop over the groups is the estimate with the check beforehand. -/
theorem byGroups_eq (s : Stencil α) (samples : Vector α gridSize) (h : α) :
    s.byGroups samples h = s.combineOnGrid samples h := by
  -- The loops over the values of a group get their checks in front of them first, for only then are
  -- the steps of the loop over the groups a check and a value.
  simp only [byGroups, sampleAt_eq, stopOr_bind]
  simp only [foldlM_stopOr, stopOr_bind]
  rw [combineOnGrid_eq, violation?, findSome?_flatMap]
  rfl

/-- The loop over the coefficients is their weighted sum with the check beforehand. -/
theorem byCoefficients_eq (s : Stencil α) (samples : Vector α gridSize) (h : α) :
    s.byCoefficients samples h = stopOr s.violation? (s.coefficients.foldl
      (fun total c => total + c.2.2 * samples.getD (gridPlace c.1 c.2.1) 0) 0 /
        (s.denominator * h * h)) := by
  have hviolation : s.coefficients.findSome? (fun c => gridViolation? c.1 c.2.1) =
      s.violation? := by
    simp only [coefficients, violation?, findSome?_flatMap, List.findSome?_map, Function.comp_def]
  rw [byCoefficients]
  simp only [sampleAt_eq, stopOr_bind, foldlM_stopOr, hviolation]

end Loops

/-! ## Agreement over a field -/

section Field

variable {K : Type} [Field K]

/-- Adding and subtracting by the sign is adding the values times their signs. -/
theorem groupSum_eq {taps : List Tap} (hsign : ∀ t ∈ taps, t.sign = 1 ∨ t.sign = -1)
    (samples : Vector K gridSize) :
    groupSum taps samples =
      (taps.map fun t => (t.sign : K) * samples.getD (gridPlace t.di t.dj) 0).sum := by
  -- The code adds to and subtracts from a running sum, so its start has to be arbitrary.
  suffices ∀ start : K, taps.foldl (fun sum t =>
      let sample := samples.getD (gridPlace t.di t.dj) 0
      if 0 < t.sign then sum + sample else sum - sample) start =
        start + (taps.map fun t => (t.sign : K) * samples.getD (gridPlace t.di t.dj) 0).sum by
    rw [groupSum, this 0, zero_add]
  induction taps with
  | nil => exact fun start => (add_zero start).symm
  | cons t taps ih =>
    intro start
    have hrest := ih fun t' ht' => hsign t' (List.mem_cons_of_mem t ht')
    simp only [List.foldl_cons, List.map_cons, List.sum_cons]
    rcases hsign t List.mem_cons_self with hsign | hsign
    · simp only [hsign, Int.one_pos, if_true, hrest, Int.cast_one]
      ring
    · simp only [hsign, Int.reduceNeg, Int.reduceLT, if_false, hrest, Int.cast_neg, Int.cast_one]
      ring

/-- The estimate is the sum of the values times their coefficients, over the constant and the
squared step. -/
theorem combine_eq {s : Stencil K} (hs : s.Signed) (samples : Vector K gridSize) (h : K) :
    s.combine samples h =
      (s.coefficients.map fun c => c.2.2 * samples.getD (gridPlace c.1 c.2.1) 0).sum /
        (s.denominator * h ^ 2) := by
  -- The weight of a group goes to each of its values.
  have hgroup : ∀ g ∈ s.groups, groupSum g.taps samples * g.weight =
      ((g.taps.map fun t => (t.di, t.dj, g.weight * (t.sign : K))).map
        fun c => c.2.2 * samples.getD (gridPlace c.1 c.2.1) 0).sum := by
    intro g hg
    rw [groupSum_eq (hs g hg), ← List.sum_map_mul_right, List.map_map]
    refine congrArg List.sum (List.map_congr_left fun t _ => ?_)
    simp only [Function.comp_apply]
    ring
  have hgroups : s.groups.foldl (fun total g => total + groupSum g.taps samples * g.weight) 0 =
      (s.coefficients.map fun c => c.2.2 * samples.getD (gridPlace c.1 c.2.1) 0).sum := by
    rw [coefficients, List.map_flatMap, List.flatMap_def, List.sum_flatten, List.map_map,
      ← List.foldl_map, ← List.sum_eq_foldl, List.map_congr_left hgroup]
    rfl
  rw [combine, hgroups, pow_two, mul_assoc]

/-- The estimate as a linear map of the values. -/
def combineLinear (s : Stencil K) (hs : s.Signed) (h : K) : (Fin gridSize → K) →ₗ[K] K where
  toFun x := s.combine (.ofFn x) h
  map_add' x y := by
    have hvalue : ∀ place, (Vector.ofFn (x + y)).getD place 0 =
        (Vector.ofFn x).getD place 0 + (Vector.ofFn y).getD place 0 := by
      -- Behind the last value all three read zero.
      intro place
      by_cases hplace : place < gridSize <;> simp [Vector.getD, hplace]
    simp only [combine_eq hs, hvalue, mul_add, List.sum_map_add, add_div]
  map_smul' a x := by
    have hvalue : ∀ place, (Vector.ofFn (a • x)).getD place 0 =
        a * (Vector.ofFn x).getD place 0 := by
      intro place
      by_cases hplace : place < gridSize <;> simp [Vector.getD, hplace]
    simp only [combine_eq hs, hvalue, mul_left_comm _ a, List.sum_map_mul_left, mul_div_assoc,
      RingHom.id_apply, smul_eq_mul]

/-- The linear map has the values of the loop. -/
theorem combineLinear_get (s : Stencil K) (hs : s.Signed) (h : K) (samples : Vector K gridSize) :
    s.combineLinear hs h samples.get = s.combine samples h := by
  have hsamples : Vector.ofFn samples.get = samples := by
    ext k hk
    rw [Vector.getElem_ofFn]
    rfl
  exact congrArg (s.combine · h) hsamples

/-- The estimate goes through the groups, a check of the weights through the coefficients, and both
see the same stencil: off the grid they stop for the same reason, and on the grid the estimate is
the sum over the coefficients, so that it is linear in the values. It is refused if and only if some
perturbation does not belong to the grid. -/
theorem readings_agree {s : Stencil K} (hs : s.Signed) (h : K) :
    (∀ samples, s.byGroups samples h = s.combineOnGrid samples h ∧
      s.byCoefficients samples h = s.combineOnGrid samples h) ∧
    (s.OnGrid → (∀ c ∈ s.coefficients, gridPlace c.1 c.2.1 < gridSize) ∧
      ∀ samples, s.combineOnGrid samples h =
        .ok ((s.coefficients.map fun c => c.2.2 * samples.getD (gridPlace c.1 c.2.1) 0).sum /
          (s.denominator * h ^ 2))) ∧
    (s.OnGrid → ∃ L : (Fin gridSize → K) →ₗ[K] K, ∀ samples,
      s.combineOnGrid samples h = .ok (L samples.get)) ∧
    ∀ samples, (∃ violation, s.combineOnGrid samples h = .error violation) ↔ ¬ s.OnGrid := by
  refine ⟨fun samples => ⟨s.byGroups_eq samples h, ?_⟩,
    fun hgrid => ⟨fun c hc => gridPlace_lt (hgrid.mem_grid hc), fun samples => ?_⟩,
    fun hgrid => ⟨s.combineLinear hs h, fun samples => ?_⟩,
    fun samples => s.combineOnGrid_refused_iff samples h⟩
  · rw [combineOnGrid_eq, byCoefficients_eq, combine_eq hs, ← List.foldl_map, ← List.sum_eq_foldl,
      pow_two, mul_assoc]
  · rw [combineOnGrid_of_onGrid hgrid, combine_eq hs]
  · rw [combineOnGrid_of_onGrid hgrid, combineLinear_get]

/-- A value may take part in several groups and with either sign. -/
theorem readings_agree_repeated :
    let s (di : Int) : Stencil ℚ := ⟨6, [⟨2, [⟨di, 1, 1⟩, ⟨1, -1, -1⟩]⟩, ⟨5, [⟨1, 1, -1⟩]⟩]⟩
    let samples : Vector ℚ gridSize := .ofFn fun k => (k : ℚ)
    (s 1).Signed ∧ (s 1).combineOnGrid samples (1 / 2) = .ok (-172 / 3) ∧
      (s 3).Signed ∧ ∃ violation, (s 3).combineOnGrid samples (1 / 2) = .error violation := by
  intro s samples
  refine ⟨by decide, ?_, by decide, ?_⟩
  · rw [((readings_agree (s := s 1) (by decide) (1 / 2)).2.1 (by decide)).2 samples]
    have hadded : gridPlace 1 1 = 18 := rfl
    have hsubtracted : gridPlace 1 (-1) = 16 := rfl
    norm_num [s, samples, coefficients, hadded, hsubtracted, gridSize, whole, Vector.getD]
  · exact ((readings_agree (s := s 3) (by decide) (1 / 2)).2.2.2 samples).2 (by decide)

end Field

end Stencil

end DualHessian
