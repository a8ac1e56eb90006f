import DualHessian.Proofs.System.Consistency

/-!
# Building a system

A rank builds its part of a system from a description. It either obtains its part or reports what is
missing, and the parts of all ranks together lose nothing of the sparsity pattern.

* `Description.Deficient` says that something is missing in a description, or does not fit.
  `Description.build_cases` says that this alone keeps a system from being built.
* `Description.build_local` is what a rank obtains of the pattern.
* `Description.build_restricts` is both of this, with what the ranks of a group obtain together.
-/

namespace DualHessian

/-- A position of a pattern lies in one of its rows. -/
theorem Pattern.row_lt_of_contains {p : Pattern} {i j : Nat} (h : p.contains i j = true) :
    i < p.rows := by
  by_contra hi
  have hlane : p.lane i = [] := by
    rw [lane, List.getD_eq_getElem?_getD, List.getElem?_eq_none (Nat.not_lt.1 hi), Option.getD_none]
  rw [contains_iff, hlane] at h
  cases h

namespace Description

variable {α : Type} [Arithmetic α] {d : Description α} {c : Place} {pattern : Pattern}

/-- The pattern is not square, or an initial vector does not have one entry for each of its rows. -/
def Misfits (d : Description α) (pattern : Pattern) : Prop :=
  pattern.columns ≠ pattern.rows ∨
    (∃ x, d.solution? = some x ∧ x.length ≠ pattern.rows) ∨
      ∃ x, d.dual? = some x ∧ x.length ≠ pattern.rows

/-- Something is missing in the description, or does not fit. -/
def Deficient (d : Description α) : Prop :=
  d.residual? = none ∨ d.pattern? = none ∨
    ∃ pattern, d.pattern? = some pattern ∧ d.Misfits pattern

/-! ## One rank -/

/-- An initial vector fits unless it is given with another length. -/
private theorem length_vectorOr_ne {n : Nat} {x : Option (List α)} :
    (vectorOr n x).length ≠ n ↔ ∃ xs, x = some xs ∧ xs.length ≠ n := by
  cases x with
  | none => simp [vectorOr]
  | some xs => simp [vectorOr]

omit [Arithmetic α] in
private theorem exists_toList {n : Nat} {xs : List α} (h : xs.length = n) :
    ∃ x : Vector α n, xs = x.toList :=
  ⟨⟨xs.toArray, by simpa using h⟩, by simp⟩

/-- A description of which nothing is missing. -/
private theorem exists_parts (h : ¬d.Deficient) :
    ∃ residual pattern, d.residual? = some residual ∧ d.pattern? = some pattern ∧
      pattern.columns = pattern.rows ∧
      ∃ x dual : Vector α pattern.rows, vectorOr pattern.rows d.solution? = x.toList ∧
        vectorOr pattern.rows d.dual? = dual.toList := by
  obtain ⟨hresidual, hpattern, hfits⟩ := not_or.1 h |>.imp_right not_or.1
  obtain ⟨residual, hresidual⟩ := Option.ne_none_iff_exists'.1 hresidual
  obtain ⟨pattern, hpattern⟩ := Option.ne_none_iff_exists'.1 hpattern
  obtain ⟨hsquare, hsolution, hdual⟩ :=
    not_or.1 (not_exists.1 hfits pattern ⟨hpattern, ·⟩) |>.imp_right not_or.1
  obtain ⟨x, hx⟩ := exists_toList (not_not.1 (mt length_vectorOr_ne.1 hsolution))
  obtain ⟨dual, hdual⟩ := exists_toList (not_not.1 (mt length_vectorOr_ne.1 hdual))
  exact ⟨residual, pattern, hresidual, hpattern, not_not.1 hsquare, x, dual, hx, hdual⟩

/-- A rank that has something to object to the description reports it. -/
private theorem build_of_deficient (h : d.Deficient) (c : Place) :
    ∃ cause, d.build c = .error (.failed (.of cause)) := by
  have hok : ∀ {β γ : Type} (b : β) (f : β → Except Stop γ), Except.ok b >>= f = f b :=
    fun _ _ => rfl
  unfold build
  cases hresidual : d.residual? with
  | none => exact ⟨_, rfl⟩
  | some residual =>
    cases hpattern : d.pattern? with
    | none => exact ⟨_, rfl⟩
    | some pattern =>
      have hmisfits : d.Misfits pattern := by
        obtain hnone | hnone | ⟨pattern', hpattern', hmisfits⟩ := h
        · exact nomatch hresidual.symm.trans hnone
        · exact nomatch hpattern.symm.trans hnone
        · exact Option.some.inj (hpattern'.symm.trans hpattern) ▸ hmisfits
      -- The checks are made one after the other; the first one that does not hold is reported.
      simp only [require, hok, ensure, beq_iff_eq]
      by_cases hsquare : pattern.columns = pattern.rows
      · rw [if_pos hsquare, hok]
        by_cases hsolution : (vectorOr pattern.rows d.solution?).length = pattern.rows
        · rw [if_pos hsolution, hok]
          have hdual : ¬(vectorOr pattern.rows d.dual?).length = pattern.rows := by
            obtain hnot | hnot | hnot := hmisfits
            · exact absurd hsquare hnot
            · exact absurd hsolution (length_vectorOr_ne.2 hnot)
            · exact length_vectorOr_ne.2 hnot
          rw [if_neg hdual]
          exact ⟨_, rfl⟩
        · rw [if_neg hsolution]
          exact ⟨_, rfl⟩
      · rw [if_neg hsquare]
        exact ⟨_, rfl⟩

/-- A rank either reports a deficiency of the description or obtains its part of the system. -/
theorem build_cases (d : Description α) (c : Place) :
    (d.Deficient ∧ ∃ cause, d.build c = .error (.failed (.of cause))) ∨
      (¬d.Deficient ∧ ∃ b, d.build c = .ok b) := by
  by_cases h : d.Deficient
  · exact .inl ⟨h, build_of_deficient h c⟩
  · obtain ⟨residual, pattern, hresidual, hpattern, hsquare, x, dual, hx, hdual⟩ := exists_parts h
    obtain ⟨p, -, -, hbuild⟩ := build_of_place c d hresidual hpattern hsquare hx hdual
    exact .inr ⟨h, _, hbuild⟩

/-- What a rank obtains of the pattern: it owns a block of the rows, keeps the positions in these
rows, and can read the columns that they couple to. -/
theorem build_local {b : BuiltSystem α} (h : d.build c = .ok b)
    (hpattern : d.pattern? = some pattern) :
    (∀ i, i ∈ b.partition.owned ↔ Partition.blockStart pattern.rows c.size c.rank ≤ i ∧
      i < Partition.blockStart pattern.rows c.size (c.rank + 1)) ∧
    (∀ i j, b.system.pattern.contains i j = true ↔
      i ∈ b.partition.owned ∧ pattern.contains i j = true) ∧
    ∀ i ∈ b.partition.owned, ∀ j ∈ pattern.lane i, j ∈ b.partition.relevant := by
  have hfull : ¬d.Deficient := by
    intro hdeficient
    obtain ⟨cause, hcause⟩ := build_of_deficient hdeficient c
    exact nomatch h.symm.trans hcause
  obtain ⟨residual, pattern', hresidual, hpattern', hsquare, x, dual, hx, hdual⟩ :=
    exists_parts hfull
  obtain rfl : pattern' = pattern := Option.some.inj (hpattern'.symm.trans hpattern)
  obtain ⟨p, howned, hcoupled, hbuild⟩ :=
    build_of_place c d hresidual hpattern hsquare hx hdual
  obtain rfl := Except.ok.inj (hbuild.symm.trans h)
  refine ⟨howned, fun i j => ?_, hcoupled⟩
  rw [Pattern.contains_restrict, Partition.owns_iff]

/-! ## All ranks -/

/-- Building a system restricts its pattern without loss. No rank of any group breaks a
precondition, and a rank reports a failure exactly if the description is deficient; in particular
the owned rows of a pattern are always accepted as a pattern. Of the systems that all ranks of a
group have built, each holds the positions of the pattern in the rows that the rank owns. So some
rank holds a position exactly if the pattern does, every such row has one owner, and the owner of a
row holds the entries of the solution at the row and at all columns of the row. -/
theorem build_restricts (d : Description α) :
    (∀ c, (∃ b, d.build c = .ok b) ∨ ∃ f, d.build c = .error (.failed f)) ∧
    (∀ c, (∃ f, d.build c = .error (.failed f)) ↔ d.Deficient) ∧
    (∀ (pattern : Pattern) {n : Nat} (p : Partition n), ∃ rows, ownedRows pattern p = .ok rows ∧
      ∀ i j, rows.contains i j = true ↔ i ∈ p.owned ∧ pattern.contains i j = true) ∧
    ∀ {size : Nat}, 0 < size → ∀ {c : Fin size → Place},
      (∀ r, (c r).rank = r ∧ (c r).size = size) → ∀ {pattern : Pattern},
      d.pattern? = some pattern → ∀ {b : Fin size → BuiltSystem α},
      (∀ r, d.build (c r) = .ok (b r)) →
        (∀ r i j, (b r).system.pattern.occupancy.holds i j = true ↔
          i ∈ (b r).partition.owned ∧ pattern.contains i j = true) ∧
        (∀ i j, (∃ r, (b r).system.pattern.occupancy.holds i j = true) ↔
          pattern.contains i j = true) ∧
        ∀ i j, pattern.contains i j = true → (∃! r, i ∈ (b r).partition.owned) ∧
          ∀ r, i ∈ (b r).partition.owned →
            i ∈ (b r).partition.relevant ∧ ((b r).state.solution.get? i).isSome = true ∧
            j ∈ (b r).partition.relevant ∧ ((b r).state.solution.get? j).isSome = true := by
  refine ⟨fun c => ?_, fun c => ⟨fun ⟨f, hf⟩ => ?_, fun h => ?_⟩, fun pattern n p => ?_, ?_⟩
  · exact (build_cases d c).elim (fun h => .inr (h.2.elim fun _ hcause => ⟨_, hcause⟩)) (.inl ·.2)
  · obtain ⟨h, -⟩ | ⟨-, b, hb⟩ := build_cases d c
    · exact h
    · exact nomatch hb.symm.trans hf
  · obtain ⟨cause, hcause⟩ := build_of_deficient h c
    exact ⟨_, hcause⟩
  · refine ⟨_, ownedRows_eq pattern p, fun i j => ?_⟩
    rw [Pattern.contains_restrict, Partition.owns_iff]
  · intro size hsize c hc pattern hpattern b hb
    -- The ranks build alone, but from one pattern, so their blocks divide its rows.
    have hlocal := fun r => build_local (hb r) hpattern
    have howned : ∀ r i, i ∈ (b r).partition.owned ↔
        Partition.blockStart pattern.rows size r ≤ i ∧
          i < Partition.blockStart pattern.rows size (r + 1) := by
      intro r i
      rw [(hlocal r).1 i, (hc r).1, (hc r).2]
    have hunique : ∀ i < pattern.rows, ∃! r, i ∈ (b r).partition.owned := by
      intro i hi
      obtain ⟨rank, hrank, hblock⟩ := Partition.exists_block hsize hi
      refine ⟨⟨rank, hrank⟩, (howned _ i).2 hblock, fun r hr => Fin.ext ?_⟩
      have hblock' := (howned r i).1 hr
      exact Partition.block_unique hblock'.1 hblock'.2 hblock.1 hblock.2
    refine ⟨fun r => (hlocal r).2.1, fun i j => ⟨fun ⟨r, hr⟩ => ((hlocal r).2.1 i j).1 hr |>.2, ?_⟩,
      fun i j hij => ⟨hunique i (Pattern.row_lt_of_contains hij), fun r hi => ?_⟩⟩
    · intro hij
      obtain ⟨r, hr, -⟩ := hunique i (Pattern.row_lt_of_contains hij)
      exact ⟨r, ((hlocal r).2.1 i j).2 ⟨hr, hij⟩⟩
    · have hrow : i ∈ (b r).partition.relevant := (b r).partition.owned_subset i hi
      have hcolumn : j ∈ (b r).partition.relevant :=
        (hlocal r).2.2 i hi j (Pattern.contains_iff.1 hij)
      exact ⟨hrow, LocalVector.isSome_get?_iff.2 hrow, hcolumn,
        LocalVector.isSome_get?_iff.2 hcolumn⟩

/-- Four ranks build a system with three degrees of freedom. One of them owns nothing. -/
theorem build_restricts_four_ranks :
    ∃ b : Fin 4 → BuiltSystem Rat,
      (∀ r, squares.build (.member r.val 4 r.isLt) = .ok (b r)) ∧
      (∃! r, 1 ∈ (b r).partition.owned) ∧
      (∀ r, (b r).system.pattern.occupancy.holds 0 2 = false) ∧
      ∀ r, 1 ∈ (b r).partition.owned →
        (b r).system.pattern.occupancy.holds 1 2 = true ∧
          ((b r).state.solution.get? 2).isSome = true := by
  have hfull : ¬squares.Deficient := by
    rintro (h | h | ⟨pattern, hpattern, h⟩)
    · cases h
    · cases h
    · obtain rfl : Pattern.banded 3 1 = pattern := Option.some.inj hpattern
      obtain h | ⟨x, hx, h⟩ | ⟨x, hx, h⟩ := h
      · exact h rfl
      · exact h (Option.some.inj hx ▸ rfl)
      · exact h (Option.some.inj hx ▸ rfl)
  obtain ⟨htotal, hdeficient, -, hgroup⟩ := build_restricts squares
  have hbuilt : ∀ r : Fin 4, ∃ b, squares.build (.member r.val 4 r.isLt) = .ok b := fun r =>
    (htotal _).resolve_right (hfull ∘ (hdeficient _).1)
  choose b hb using hbuilt
  obtain ⟨hlocal, hunion, howner⟩ := hgroup (by decide : 0 < 4)
    (c := fun r => .member r.val 4 r.isLt) (fun _ => ⟨rfl, rfl⟩) rfl hb
  have hcoupled : (Pattern.banded 3 1).contains 1 2 = true := by decide
  have hapart : ¬(Pattern.banded 3 1).contains 0 2 = true := by decide
  refine ⟨b, hb, (howner 1 2 hcoupled).1, fun r => ?_, fun r hr => ?_⟩
  · exact Bool.eq_false_iff.2 fun h => hapart ((hunion 0 2).1 ⟨r, h⟩)
  · exact ⟨(hlocal r 1 2).2 ⟨hr, hcoupled⟩, ((howner 1 2 hcoupled).2 r hr).2.2.2⟩

end Description

end DualHessian
