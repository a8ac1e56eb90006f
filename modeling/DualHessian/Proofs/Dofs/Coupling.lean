import DualHessian.Proofs.Dofs.Blocks
import DualHessian.Proofs.Dofs.Canonical

/-!
# Ghosts of coupled columns

`Partition.withGhosts` makes the columns that a pattern couples to owned rows relevant. It is
refused only because of such a column that is no degree of freedom. Since there is one partition for
each two sets, what is relevant in the end does not depend on the way there.

* `Partition.Couples` says that a pattern couples a column to an owned row.
* `Partition.withAllGhosts` adds the ghosts of several patterns, one after the other. By
  `Partition.withAllGhosts_ok` and `Partition.withAllGhosts_error` only the patterns count, and
  neither their order nor how often they occur.
* `Partition.adds_coupled_columns` collects what holds of one pattern and of two.
-/

namespace DualHessian

namespace Partition

variable {n : Nat}

/-- Partitions with the same owned indices are equal if the same indices are relevant. -/
theorem ext_relevant {p q : Partition n} (howned : p.owned = q.owned)
    (h : ∀ i, i ∈ p.relevant ↔ i ∈ q.relevant) : p = q := by
  have hrelevant : p.relevant = q.relevant :=
    DofSet.ext_mem (p.relevant_size.trans q.relevant_size.symm) h
  cases p
  cases q
  simp only at howned hrelevant
  subst howned hrelevant
  rfl

/-- A pattern couples a column to some owned row. -/
def Couples (p : Partition n) (pattern : Pattern) (j : Nat) : Prop :=
  ∃ i ∈ p.owned, j ∈ pattern.lane i

theorem couples_congr {p q : Partition n} (h : q.owned = p.owned) (pattern : Pattern) (j : Nat) :
    q.Couples pattern j ↔ p.Couples pattern j := by
  rw [Couples, Couples, h]

/-- A coupled column that is no degree of freedom is refused. -/
theorem withGhosts_error (p : Partition n) {pattern : Pattern} (hrows : pattern.rows = n)
    (h : ∃ j, p.Couples pattern j ∧ n ≤ j) : p.withGhosts pattern = .error (.indexOutside n) := by
  obtain ⟨j, ⟨i, hi, hj⟩, hle⟩ := h
  have hmem : j ∈ p.relevant.elements ++ p.owned.elements.flatMap pattern.lane :=
    List.mem_append_right _ (List.mem_flatMap.2 ⟨i, hi, hj⟩)
  rw [withGhosts, if_pos hrows]
  show (DofSet.ofList n (p.relevant.elements ++ p.owned.elements.flatMap pattern.lane) >>=
    fun relevant => ofSets n p.owned relevant) = _
  rw [DofSet.ofList_error ⟨j, hmem, hle⟩]
  rfl

/-! ## Several patterns -/

/-- Adds the ghosts of several patterns, one after the other. -/
def withAllGhosts (p : Partition n) (patterns : List Pattern) : Except Violation (Partition n) :=
  patterns.foldlM withGhosts p

theorem withAllGhosts_cons (p : Partition n) (pattern : Pattern) (patterns : List Pattern) :
    p.withAllGhosts (pattern :: patterns) =
      p.withGhosts pattern >>= fun q => q.withAllGhosts patterns := rfl

theorem withAllGhosts_single (p : Partition n) (pattern : Pattern) :
    p.withAllGhosts [pattern] = p.withGhosts pattern := bind_pure _

theorem withAllGhosts_pair (p : Partition n) (pattern other : Pattern) :
    p.withAllGhosts [pattern, other] = p.withGhosts pattern >>= fun q => q.withGhosts other :=
  congrArg (p.withGhosts pattern >>= ·) (funext fun q => q.withAllGhosts_single other)

/-- All coupled columns become relevant, and the owned indices stay as they are. -/
theorem withAllGhosts_ok {patterns : List Pattern} (p : Partition n)
    (hrows : ∀ pattern ∈ patterns, pattern.rows = n)
    (h : ∀ pattern ∈ patterns, ∀ j, p.Couples pattern j → j < n) :
    ∃ q, p.withAllGhosts patterns = .ok q ∧ q.owned = p.owned ∧
      ∀ j, j ∈ q.relevant ↔ j ∈ p.relevant ∨ ∃ pattern ∈ patterns, p.Couples pattern j := by
  induction patterns generalizing p with
  | nil => exact ⟨p, rfl, rfl, fun j => by simp⟩
  | cons pattern patterns ih =>
    obtain ⟨q, hq, howned, hrelevant⟩ := p.withGhosts_of_lt (hrows pattern List.mem_cons_self)
      fun i hi j hj => h pattern List.mem_cons_self j ⟨i, hi, hj⟩
    -- The next patterns meet the same owned rows.
    obtain ⟨r, hr, hrowned, hrrelevant⟩ := ih q
      (fun other hother => hrows other (List.mem_cons_of_mem _ hother))
      fun other hother j hj =>
        h other (List.mem_cons_of_mem _ hother) j ((couples_congr howned other j).1 hj)
    refine ⟨r, ?_, hrowned.trans howned, fun j => ?_⟩
    · rw [withAllGhosts_cons, hq]
      exact hr
    · simp only [hrrelevant, hrelevant, couples_congr howned, List.mem_cons, exists_eq_or_imp,
        or_assoc]
      rfl

/-- One coupled column that is no degree of freedom is enough for a refusal. -/
theorem withAllGhosts_error {patterns : List Pattern} (p : Partition n)
    (hrows : ∀ pattern ∈ patterns, pattern.rows = n)
    (h : ∃ pattern ∈ patterns, ∃ j, p.Couples pattern j ∧ n ≤ j) :
    p.withAllGhosts patterns = .error (.indexOutside n) := by
  induction patterns generalizing p with
  | nil => simp at h
  | cons pattern patterns ih =>
    have hpattern : pattern.rows = n := hrows pattern List.mem_cons_self
    rw [withAllGhosts_cons]
    by_cases hfirst : ∃ j, p.Couples pattern j ∧ n ≤ j
    · rw [p.withGhosts_error hpattern hfirst]
      rfl
    · have hbelow : ∀ i ∈ p.owned, ∀ j ∈ pattern.lane i, j < n := fun i hi j hj =>
        Nat.lt_of_not_le fun hle => hfirst ⟨j, ⟨i, hi, hj⟩, hle⟩
      obtain ⟨q, hq, howned, _⟩ := p.withGhosts_of_lt hpattern hbelow
      obtain ⟨other, hother, j, hj, hle⟩ := h
      have hlater : other ∈ patterns := by
        rcases List.mem_cons.1 hother with rfl | hlater
        · exact absurd ⟨j, hj, hle⟩ hfirst
        · exact hlater
      rw [hq]
      exact ih q (fun other hother => hrows other (List.mem_cons_of_mem _ hother))
        ⟨other, hlater, j, (couples_congr howned other j).2 hj, hle⟩

/-- Only the patterns count, neither their order nor how often they occur. -/
theorem withAllGhosts_congr {patterns others : List Pattern} (p : Partition n)
    (hrows : ∀ pattern ∈ patterns, pattern.rows = n)
    (hsame : ∀ pattern, pattern ∈ patterns ↔ pattern ∈ others) :
    p.withAllGhosts patterns = p.withAllGhosts others := by
  have hrows' : ∀ pattern ∈ others, pattern.rows = n := fun pattern hpattern =>
    hrows pattern ((hsame pattern).2 hpattern)
  -- Both lists are refused for the same reason, or make the same indices relevant.
  by_cases h : ∃ pattern ∈ patterns, ∃ j, p.Couples pattern j ∧ n ≤ j
  · have h' : ∃ pattern ∈ others, ∃ j, p.Couples pattern j ∧ n ≤ j := by
      simpa only [hsame] using h
    rw [p.withAllGhosts_error hrows h, p.withAllGhosts_error hrows' h']
  · have hbelow : ∀ pattern ∈ patterns, ∀ j, p.Couples pattern j → j < n :=
      fun pattern hpattern j hj => Nat.lt_of_not_le fun hle => h ⟨pattern, hpattern, j, hj, hle⟩
    obtain ⟨q, hq, howned, hrelevant⟩ := p.withAllGhosts_ok hrows hbelow
    obtain ⟨r, hr, hrowned, hrrelevant⟩ := p.withAllGhosts_ok hrows'
      fun pattern hpattern => hbelow pattern ((hsame pattern).2 hpattern)
    have hqr : q = r := ext_relevant (howned.trans hrowned.symm) fun j => by
      simp only [hrelevant, hrrelevant, hsame]
    rw [hq, hr, hqr]

/-! ## One pattern, and two -/

/-- The ghosts of a pattern with one row for each degree of freedom. They are refused if and only if
an owned row has a column that is no degree of freedom. Otherwise the owned indices stay as they
are, and relevant are those that have been so before and all columns of owned rows. Adding them once
more changes nothing; a wider pattern makes more indices relevant; and of two patterns either one
may come first, also where one of them is refused. -/
theorem adds_coupled_columns (p : Partition n) {pattern : Pattern} (hrows : pattern.rows = n) :
    ((∃ i ∈ p.owned, ∃ j ∈ pattern.lane i, n ≤ j) ↔
      p.withGhosts pattern = .error (.indexOutside n)) ∧
    ((∀ i ∈ p.owned, ∀ j ∈ pattern.lane i, j < n) →
      ∃ q, p.withGhosts pattern = .ok q ∧ q.owned = p.owned ∧
        (∀ j, j ∈ q.relevant ↔ j ∈ p.relevant ∨ ∃ i ∈ p.owned, j ∈ pattern.lane i) ∧
        (∀ i ∈ q.owned, i ∈ q.relevant) ∧ (∀ j ∈ q.relevant, j < n) ∧
        q.withGhosts pattern = .ok q) ∧
    (∀ wider : Pattern, wider.rows = n → (∀ i ∈ p.owned, ∀ j ∈ pattern.lane i, j ∈ wider.lane i) →
      ∀ q', p.withGhosts wider = .ok q' →
        ∃ q, p.withGhosts pattern = .ok q ∧ q.owned = q'.owned ∧
          ∀ j ∈ q.relevant, j ∈ q'.relevant) ∧
    ∀ other : Pattern, other.rows = n →
      (p.withGhosts pattern >>= fun q => q.withGhosts other) =
        p.withGhosts other >>= fun q => q.withGhosts pattern := by
  have hrefused : (∃ i ∈ p.owned, ∃ j ∈ pattern.lane i, n ≤ j) →
      p.withGhosts pattern = .error (.indexOutside n) := by
    rintro ⟨i, hi, j, hj, hle⟩
    exact p.withGhosts_error hrows ⟨j, ⟨i, hi, hj⟩, hle⟩
  refine ⟨⟨hrefused, fun herror => ?_⟩, fun hbelow => ?_, fun wider hwider hsub q' hq' => ?_,
    fun other hother => ?_⟩
  · by_contra hnone
    obtain ⟨q, hq, _⟩ := p.withGhosts_of_lt hrows fun i hi j hj =>
      Nat.lt_of_not_le fun hle => hnone ⟨i, hi, j, hj, hle⟩
    cases hq.symm.trans herror
  · obtain ⟨q, hq, howned, hrelevant⟩ := p.withGhosts_of_lt hrows hbelow
    refine ⟨q, hq, howned, hrelevant, q.owned_subset, fun j => q.lt_of_mem_relevant, ?_⟩
    -- Twice the same pattern is the pattern once.
    have htwice : p.withAllGhosts [pattern, pattern] = p.withAllGhosts [pattern] :=
      p.withAllGhosts_congr (by simpa using hrows) (by simp)
    rw [withAllGhosts_pair, withAllGhosts_single, hq] at htwice
    exact htwice
  · have hbelow : ∀ i ∈ p.owned, ∀ j ∈ wider.lane i, j < n := by
      intro i hi j hj
      by_contra hle
      cases (p.withGhosts_error hwider ⟨j, ⟨i, hi, hj⟩, Nat.le_of_not_lt hle⟩).symm.trans hq'
    obtain ⟨q, hq, howned, hrelevant⟩ := p.withGhosts_of_lt hrows fun i hi j hj =>
      hbelow i hi j (hsub i hi j hj)
    obtain ⟨r, hr, hrowned, hrrelevant⟩ := p.withGhosts_of_lt hwider hbelow
    obtain rfl : r = q' := Except.ok.inj (hr.symm.trans hq')
    refine ⟨q, hq, howned.trans hrowned.symm, fun j hj => (hrrelevant j).2 ?_⟩
    exact ((hrelevant j).1 hj).imp_right fun ⟨i, hi, hj⟩ => ⟨i, hi, hsub i hi j hj⟩
  · have hswap : p.withAllGhosts [pattern, other] = p.withAllGhosts [other, pattern] := by
      refine p.withAllGhosts_congr ?_ fun _ => by simp [or_comm]
      simp [hrows, hother]
    rwa [withAllGhosts_pair, withAllGhosts_pair] at hswap

/-- The middle one of three degrees of freedom, without ghosts. -/
def middle : Partition 3 where
  owned := ⟨3, [1], by decide, by decide⟩
  relevant := ⟨3, [1], by decide, by decide⟩
  owned_size := rfl
  relevant_size := rfl
  owned_subset _ h := h

/-- Both neighbours become relevant, once and for all. A row that is not owned may have any columns,
an owned one may not. -/
theorem adds_coupled_columns_middle :
    (Pattern.banded 3 1).rows = 3 ∧
      (∃ q, middle.withGhosts (.banded 3 1) = .ok q ∧ 0 ∈ q.relevant ∧ 2 ∈ q.relevant ∧
        q.withGhosts (.banded 3 1) = .ok q) ∧
      middle.withGhosts ⟨8, [[], [0, 7], []], by decide, by decide⟩ = .error (.indexOutside 3) := by
  have hrows : (Pattern.banded 3 1).rows = 3 := by decide
  obtain ⟨q, hq, -, hrelevant, -, -, hagain⟩ :=
    (adds_coupled_columns middle hrows).2.1 (by decide)
  refine ⟨hrows, ⟨q, hq, (hrelevant 0).2 (by decide), (hrelevant 2).2 (by decide), hagain⟩, ?_⟩
  exact (adds_coupled_columns middle rfl).1.1 ⟨1, by decide, 7, by decide, by decide⟩

end Partition

end DualHessian
