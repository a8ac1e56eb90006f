import DualHessian.Proofs.Distributed.Dense
import DualHessian.Proofs.Rank.Transcript
import Mathlib.Algebra.Field.Rat
import Mathlib.Data.List.Perm.Basic

/-!
# What becomes of deposits

Any rank may deposit into any row. Together the ranks bring each entry to the owner of its row,
where it arrives once, and every position is stored once in the group.

* `Group.arriving` is what a rank makes its rows of: its own deposits first, then those of the other
  ranks, as `Deposits.decides_toMatrix` says.
* `Group.depositedAt` are the values that the owner of a row adds up at a position, and
  `Group.Accumulated` says what all ranks store in the end.
* `Group.accumulate` is that for every division of the rows. With exact numbers the group gathers
  the matrix that a single rank makes of all entries.
-/

namespace DualHessian

variable {α : Type} {n size : Nat} {p : Fin size → Partition n}

/-! ## One rank -/

/-- Entries that belong to the matrix can be deposited one after the other. -/
theorem Deposits.foldlM_add {q : Partition n} (d : Deposits α q) {added : List (Entry α)}
    (hinside : ∀ e ∈ added, e.isInside n d.columns = true) :
    ∃ d', added.foldlM Deposits.add d = .ok d' ∧ d'.columns = d.columns ∧
      d'.entries = d.entries ++ added := by
  induction added generalizing d with
  | nil => exact ⟨d, rfl, rfl, (List.append_nil _).symm⟩
  | cons e added ih =>
    have he : e.row < n ∧ e.column < d.columns := by
      simpa [Entry.isInside] using hinside e List.mem_cons_self
    obtain ⟨d', hd', hcolumns, hentries⟩ :=
      ih ⟨d.columns, d.entries ++ [e], _⟩ fun e' he' => hinside e' (List.mem_cons_of_mem e he')
    refine ⟨d', ?_, hcolumns, hentries.trans (List.append_assoc ..)⟩
    rw [List.foldlM_cons, Deposits.add, dif_pos he]
    exact hd'

/-! ## The exchange -/

namespace Group

/-- What a rank makes its rows of: what it has deposited into them, and then what the ranks have
deposited into rows that are not theirs, from the first rank to the last. -/
def arriving (p : Fin size → Partition n) (added : Fin size → List (Entry α)) (r : Fin size) :
    List (Entry α) :=
  (added r).filter (fun e => (p r).owns e.row) ++
    (List.ofFn fun s => (added s).filter fun e => !(p s).owns e.row).flatten.filter
      fun e => (p r).owns e.row

/-- If every rank has deposited into its own rows only, nothing else arrives. -/
theorem arriving_of_own {added : Fin size → List (Entry α)}
    (hown : ∀ r, ∀ e ∈ added r, (p r).owns e.row = true) (r : Fin size) :
    arriving p added r = added r := by
  have hsent : ∀ s, (added s).filter (fun e => !(p s).owns e.row) = [] := by
    intro s
    apply List.filter_eq_nil_iff.2
    intro e he
    simp [hown s e he]
  have hnone : (List.ofFn fun s => (added s).filter fun e => !(p s).owns e.row).flatten = [] := by
    simp only [hsent]
    apply List.flatten_eq_nil_iff.2
    intro l hl
    obtain ⟨_, rfl⟩ := (List.mem_ofFn' _ l).1 hl
    rfl
  rw [arriving, hnone, List.filter_eq_self.2 (hown r), List.filter_nil, List.append_nil]

end Group

/-- The exchange of deposits is one call, and every rank makes its rows of what arrives. -/
theorem Deposits.decides_toMatrix [Add α] {P : Interface} {R : Replies P size}
    {halt : (Fin size → List (Exchange P)) → (Fin size → Stop) → Prop}
    (d : (r : Fin size) → Deposits α (p r)) {columns : Nat}
    (hcolumns : ∀ r, (d r).columns = columns) :
    Group.Decides R halt
      (fun es out => es = (fun _ => [.gather .entries]) ∧ out = fun r =>
        .ofEntries (p r) columns (Group.arriving p (fun s => (d s).entries) r))
      fun r => ((d r).toMatrix : Task α P (RowMatrix α (p r))) := by
  -- What is sent has been checked when it was deposited, against the same number of columns.
  have hinside : ∀ r, ((List.ofFn fun s => (d s).entries.filter fun e =>
      !(p s).owns e.row).flatten.filter fun e => (p r).owns e.row).all
        (Entry.isInside n columns) = true := by
    intro r
    rw [List.all_eq_true]
    intro e he
    obtain ⟨entries, hentries, he⟩ := List.mem_flatten.1 (List.mem_filter.1 he).1
    obtain ⟨s, rfl⟩ := (List.mem_ofFn' _ entries).1 hentries
    have hbounded := (d s).bounded e (List.mem_filter.1 he).1
    rw [hcolumns s] at hbounded
    simpa [Entry.isInside] using hbounded
  unfold Deposits.toMatrix
  simp only [List.partition_eq_filter_filter]
  refine (Group.Decides.gatherAll .entries fun s =>
    (d s).entries.filter (not ∘ fun e => (p s).owns e.row)).bind _ ?_
  rintro _ _ ⟨rfl, rfl⟩
  refine .of_eq_pure (fun r => ?_) ⟨rfl, rfl⟩
  rw [hcolumns r]
  exact if_pos (hinside r)

/-- No rank stops early in the exchange. -/
theorem Deposits.achieves_toMatrix [Add α] {P : Interface} {R : Replies P size}
    (d : (r : Fin size) → Deposits α (p r)) {columns : Nat}
    (hcolumns : ∀ r, (d r).columns = columns) :
    Group.Achieves R
      (fun out => out = fun r =>
        .ofEntries (p r) columns (Group.arriving p (fun s => (d s).entries) r))
      fun r => ((d r).toMatrix : Task α P (RowMatrix α (p r))) := by
  have hdecides : Group.Decides R (fun _ _ => False) _
      fun r => ((d r).toMatrix : Task α P (RowMatrix α (p r))) :=
    decides_toMatrix d hcolumns
  exact hdecides.achieves (fun _ _ => id) fun _ _ hout => hout.2

/-! ## What is stored -/

namespace Group

/-- The values that the owner of a row adds up at a position: those that it has deposited itself,
and then those of the other ranks, from the first rank to the last. The values of one rank are in
the order in which it has deposited them. -/
def depositedAt (added : Fin size → List (Entry α)) (r : Fin size) (i j : Nat) : List α :=
  valuesAt (added r) i j ++
    ((List.finRange size).filter (· != r)).flatMap fun s => valuesAt (added s) i j

private theorem flatMap_ite {X Y : Type} (keep : X → Bool) (f : X → List Y) (xs : List X) :
    xs.flatMap (fun x => if keep x then f x else []) = (xs.filter keep).flatMap f := by
  induction xs with
  | nil => rfl
  | cons x xs ih =>
    rw [List.flatMap_cons, ih]
    cases hx : keep x with
    | true => rw [List.filter_cons_of_pos hx, List.flatMap_cons, if_pos rfl]
    | false =>
      rw [List.filter_cons_of_neg (by simp [hx]), if_neg Bool.false_ne_true, List.nil_append]

/-- At a position of an own row arrives what the ranks have deposited there. -/
theorem valuesAt_arriving (hdivide : Partition.Divide p) (added : Fin size → List (Entry α))
    {r : Fin size} {i : Nat} (hi : i ∈ (p r).owned) (j : Nat) :
    valuesAt (arriving p added r) i j = depositedAt added r i j := by
  have howns : (p r).owns i = true := Partition.owns_iff.2 hi
  obtain ⟨_, _, hunique⟩ := hdivide i ((p r).lt_of_mem_owned hi)
  -- The owner keeps what it has for the row, and every other rank sends what it has.
  have hsent : ∀ s, valuesAt ((added s).filter fun e => !(p s).owns e.row) i j =
      if s != r then valuesAt (added s) i j else [] := by
    intro s
    refine (valuesAt_filter (fun i => !(p s).owns i) (added s) i j).trans ?_
    by_cases hs : s = r
    · rw [hs, howns]
      simp
    · have hnot : (p s).owns i = false := by
        rw [Bool.eq_false_iff, Ne, Partition.owns_iff]
        exact fun h => hs ((hunique s h).trans (hunique r hi).symm)
      simp [hnot, hs]
  rw [arriving, valuesAt_append, valuesAt_filter, valuesAt_filter, if_pos howns, if_pos howns,
    valuesAt_flatten_ofFn, depositedAt]
  simp only [hsent]
  rw [flatMap_ite]

/-- The values of all ranks, reordered. -/
theorem depositedAt_perm (added : Fin size → List (Entry α)) (r : Fin size) (i j : Nat) :
    (depositedAt added r i j).Perm (valuesAt (List.ofFn added).flatten i j) := by
  have hranks : (List.finRange size).Perm (r :: (List.finRange size).filter (· != r)) := by
    rw [← (List.nodup_finRange size).erase_eq_filter]
    exact List.perm_cons_erase (List.mem_finRange r)
  have hvalues := (hranks.flatMap_right fun s => valuesAt (added s) i j).symm
  rw [List.flatMap_cons, ← valuesAt_flatten_ofFn] at hvalues
  exact hvalues

theorem depositedAt_ne_nil {added : Fin size → List (Entry α)} {r : Fin size} {i j : Nat} :
    depositedAt added r i j ≠ [] ↔ ∃ s, ∃ e ∈ added s, e.row = i ∧ e.column = j := by
  have hnil : depositedAt added r i j = [] ↔ valuesAt (List.ofFn added).flatten i j = [] :=
    ⟨fun h => (h ▸ depositedAt_perm added r i j).nil_eq.symm,
      fun h => (h ▸ depositedAt_perm added r i j).eq_nil⟩
  rw [Ne, hnil, ← Ne, valuesAt_ne_nil]
  constructor
  · rintro ⟨e, he, hat⟩
    obtain ⟨entries, hentries, he⟩ := List.mem_flatten.1 he
    obtain ⟨s, rfl⟩ := (List.mem_ofFn' added entries).1 hentries
    exact ⟨s, e, he, hat⟩
  · rintro ⟨s, e, he, hat⟩
    exact ⟨e, List.mem_flatten.2 ⟨added s, (List.mem_ofFn' added _).2 ⟨s, rfl⟩, he⟩, hat⟩

/-- What all ranks hold after they have deposited the entries and brought them to the owners of
their rows. -/
structure Accumulated [Add α] (columns : Nat) (added : Fin size → List (Entry α))
    (M : GroupMatrix α p) : Prop where
  /-- All deposits succeed, and the exchange ends with these matrices. -/
  returns : ∃ d : (r : Fin size) → Deposits α (p r),
    (∀ r, (added r).foldlM Deposits.add (.empty (p r) columns) = .ok (d r)) ∧
      Returns (fun r => ((d r).toMatrix : Task α .closed (RowMatrix α (p r))).run)
        fun r => .ok (M r)
  /-- The matrices have the given number of columns. -/
  columns_eq : ∀ r, (M r).columns = columns
  /-- A position is stored by the owner of its row, if some rank has deposited there, whatever the
  value is. -/
  isSome_iff : ∀ r i j, ((M r).part.stored? i j).isSome = true ↔
    i ∈ (p r).owned ∧ ∃ s, ∃ e ∈ added s, e.row = i ∧ e.column = j
  /-- The owner stores the sum of the values, added from its own first one to the last one of the
  others. -/
  stored?_eq : ∀ r, ∀ i ∈ (p r).owned, ∀ j,
    (M r).part.stored? i j = addUp? (depositedAt added r i j)

theorem exists_accumulated [Add α] (hdivide : Partition.Divide p) {columns : Nat}
    (added : Fin size → List (Entry α))
    (hinside : ∀ r, ∀ e ∈ added r, e.isInside n columns = true) :
    ∃ M : GroupMatrix α p, Accumulated columns added M := by
  choose d hadded hcolumns hentries using
    fun r => (Deposits.empty (p r) columns : Deposits α (p r)).foldlM_add (hinside r)
  obtain rfl : (fun r => (d r).entries) = added := funext hentries
  have hreturns := (Deposits.achieves_toMatrix d hcolumns).returns_ok
  have hstored : ∀ r, ∀ i ∈ (p r).owned, ∀ j,
      (RowMatrix.ofEntries (p r) columns (arriving p (fun s => (d s).entries) r)).part.stored? i j =
        addUp? (depositedAt (fun s => (d s).entries) r i j) := by
    intro r i hi j
    rw [RowMatrix.stored?_ofEntries, valuesAt_arriving hdivide _ hi, ite_eq_left_iff]
    -- Nothing has been deposited beyond the last column.
    intro hj
    have hnone : depositedAt (fun s => (d s).entries) r i j = [] := by
      by_contra hsome
      obtain ⟨s, e, he, -, rfl⟩ := depositedAt_ne_nil.1 hsome
      exact hj ⟨hi, Nat.lt_of_lt_of_eq ((d s).bounded e he).2 (hcolumns s)⟩
    rw [hnone]
    rfl
  refine ⟨_, ⟨d, hadded, hreturns⟩, fun _ => rfl, fun r i j => ?_, hstored⟩
  by_cases hi : i ∈ (p r).owned
  · rw [hstored r i hi, isSome_addUp?, depositedAt_ne_nil]
    exact ⟨fun h => ⟨hi, h⟩, fun h => h.2⟩
  · rw [RowMatrix.stored?_of_not_mem _ hi]
    exact ⟨(nomatch ·), fun h => absurd h.1 hi⟩

/-! ## Exact numbers -/

/-- Addition without rounding. -/
structure AddsExactly (α : Type) [Add α] [Zero α] : Prop where
  /-- Sums can be grouped in any way. -/
  assoc : ∀ x y z : α, x + y + z = x + (y + z)
  /-- Sums can be taken in any order. -/
  comm : ∀ x y : α, x + y = y + x
  /-- Zero changes nothing. -/
  zero_left : ∀ x : α, 0 + x = x

namespace AddsExactly

theorem of_field (K : Type) [Field K] : AddsExactly K :=
  ⟨add_assoc, add_comm, zero_add⟩

variable [Arithmetic α] (h : AddsExactly α)

include h

theorem sumOf_addUp? (xs : List α) : sumOf (addUp? xs).toList = sumOf xs := by
  cases xs with
  | nil => rfl
  | cons x xs =>
    show 0 + xs.foldl (· + ·) x = xs.foldl (· + ·) (0 + x)
    rw [h.zero_left, h.zero_left]

theorem sumOf_perm {xs ys : List α} (hperm : xs.Perm ys) : sumOf xs = sumOf ys :=
  have : Std.Commutative (α := α) (· + ·) := ⟨h.comm⟩
  have : Std.Associative (α := α) (· + ·) := ⟨h.assoc⟩
  hperm.foldl_op_eq

end AddsExactly

theorem Accumulated.dense_eq [Arithmetic α] (hexact : AddsExactly α)
    (hdivide : Partition.Divide p) {columns : Nat} {added : Fin size → List (Entry α)}
    {M : GroupMatrix α p} (h : Accumulated columns added M) {all : List (Entry α)}
    (hall : all.Perm (List.ofFn added).flatten) :
    dense M columns = ⟨columns, (List.range n).map fun i =>
      (List.range columns).map fun j => sumOf (valuesAt all i j)⟩ := by
  refine Group.dense_eq hdivide M fun r i hi j _ => ?_
  rw [h.stored?_eq r i hi j, hexact.sumOf_addUp?]
  refine hexact.sumOf_perm ((depositedAt_perm added r i j).trans ?_)
  exact ((hall.filter _).map _).symm

/-- Deposits are neither lost nor doubled. Every rank deposits what it likes into a matrix of which
each row has one owner. Then a position is stored by the owner of its row if some rank has deposited
there, and nowhere else; its value is the sum of what the owner has deposited, and then of what the
others have. If numbers are added exactly, the ranks gather the matrix that a single rank makes of
all entries, in whatever order it gets them. -/
theorem accumulate [Arithmetic α] (hdivide : Partition.Divide p) {columns : Nat}
    (added : Fin size → List (Entry α))
    (hinside : ∀ r, ∀ e ∈ added r, e.isInside n columns = true) :
    ∃ M : GroupMatrix α p, Accumulated columns added M ∧
      (AddsExactly α → ∀ all : List (Entry α), all.Perm (List.ofFn added).flatten →
        ∃ (q : Partition n) (single : GroupMatrix α fun _ : Fin 1 => q) (D : Dense α),
          Partition.serial n = .ok q ∧ Accumulated columns (fun _ => all) single ∧
            Returns (fun r => ((single r).dense : Task α .closed (Dense α)).run)
              (fun _ => .ok D) ∧
            Returns (fun r => ((M r).dense : Task α .closed (Dense α)).run) fun _ => .ok D) := by
  obtain ⟨M, hM⟩ := exists_accumulated hdivide added hinside
  refine ⟨M, hM, fun hexact all hall => ?_⟩
  obtain ⟨q, hq, howned⟩ := Partition.contiguous_ok (n := n) Nat.one_pos
  have hsingle : Partition.Divide fun _ : Fin 1 => q :=
    Partition.divide_of_blocks Nat.one_pos fun r => by
      obtain rfl : r = 0 := Subsingleton.elim r 0
      exact howned
  have hallinside : ∀ e ∈ all, e.isInside n columns = true := by
    intro e he
    obtain ⟨entries, hentries, he⟩ := List.mem_flatten.1 (hall.mem_iff.1 he)
    obtain ⟨r, rfl⟩ := (List.mem_ofFn' added entries).1 hentries
    exact hinside r e he
  obtain ⟨single, hA⟩ := exists_accumulated hsingle (fun _ => all) fun _ => hallinside
  -- Both gather the sums of all values at each position.
  have hgathered := (achieves_dense (P := .closed) (R := .closed size) M hM.columns_eq).returns
  have hserial := (achieves_dense (P := .closed) (R := .closed 1) single hA.columns_eq).returns
  rw [hM.dense_eq hexact hdivide hall] at hgathered
  have hall' : all.Perm (List.ofFn fun _ : Fin 1 => all).flatten := by simp
  rw [hA.dense_eq hexact hsingle hall'] at hserial
  obtain ⟨_, ⟨_, rfl, rfl⟩, hgathered⟩ := hgathered
  obtain ⟨_, ⟨_, rfl, rfl⟩, hserial⟩ := hserial
  exact ⟨q, single, _, hq, hA, hserial, hgathered⟩

/-- Two ranks, each of which deposits into the row of the other one. The second one deposits twice
at a position where the first one has deposited already, and the first one deposits a zero. -/
theorem accumulate_two_ranks :
    let added : Fin 2 → List (Entry Rat) := fun r =>
      if r = 0 then [⟨1, 0, 2⟩, ⟨0, 0, 1⟩, ⟨0, 1, 0⟩] else [⟨0, 0, 3⟩, ⟨0, 0, 5⟩]
    ∃ M : GroupMatrix Rat Partition.mirrored, Accumulated 2 added M ∧
      (M 0).part.stored? 0 0 = some 9 ∧ (M 0).part.stored? 0 1 = some 0 ∧
      (M 1).part.stored? 1 0 = some 2 ∧ (M 1).part.stored? 0 0 = none ∧
        ∃ (q : Partition 2) (single : GroupMatrix Rat fun _ : Fin 1 => q) (D : Dense Rat),
          Partition.serial 2 = .ok q ∧
            Accumulated 2 (fun _ => (List.ofFn added).flatten) single ∧
            Returns (fun r => ((single r).dense : Task Rat .closed (Dense Rat)).run)
              (fun _ => .ok D) ∧
            Returns (fun r => ((M r).dense : Task Rat .closed (Dense Rat)).run)
              fun _ => .ok D := by
  intro added
  have hinside : ∀ r, ∀ e ∈ added r, e.isInside 2 2 = true := by decide
  obtain ⟨M, hM, hexact⟩ := accumulate Partition.divide_mirrored added hinside
  refine ⟨M, hM, ?_, ?_, ?_, ?_, hexact (.of_field Rat) _ (.refl _)⟩
  · exact (hM.stored?_eq 0 0 (by decide) 0).trans (by decide +kernel)
  · exact (hM.stored?_eq 0 0 (by decide) 1).trans (by decide +kernel)
  · exact (hM.stored?_eq 1 1 (by decide) 0).trans (by decide +kernel)
  · exact (M 1).stored?_of_not_mem (by decide) 0

end Group

end DualHessian
