import DualHessian.Proofs.Distributed.Dense
import DualHessian.Proofs.Hessian.Content
import DualHessian.Proofs.Numbers.Exact

/-!
# Where derivatives are stored

The ranks of a group obtain the same samples, so they estimate the same value for every pair. Each
of them stores it in the rows that it owns, on both sides of the diagonal, if the pair belongs to
the pattern of some rank and the value is not too small. Nothing is added to it on the way.

* `Program.replay` is what an evaluation yields from given samples.
* `Assembler.Evaluates` ties the values of all pairs to the samples that the ranks have taken, and
  `Assembler.Stores` says what is deposited and stored of them.
* `Assembler.assemble_content` is this for an assembly whose samples may fail.
-/

namespace DualHessian

/-! ## Replaying an evaluation -/

section Replay

variable {α β : Type}

/-- What a program ends with that meets no other rank, if its samples get the given replies in
order. -/
def Program.replay : Program α (Sampling α) β → List (Except Failure α) → Option β
  | .done b, _ => some b
  | .ask (.note _) next, replies => (next ()).replay replies
  | .ask (.sample _) next, reply :: replies => (next reply).replay replies
  | _, _ => none

theorem replay_mapM {δ : Type} (f : δ → List (Perturbation α)) {ds : List δ}
    {replies : List (Except Failure α)} (hlength : replies.length = ds.length)
    (k : List (Except Failure α) → Program α (Sampling α) β) :
    ((ds.mapM fun d => takeSample (f d)) >>= k).replay replies = (k replies).replay [] := by
  induction ds generalizing replies k with
  | nil =>
    obtain rfl := List.length_eq_zero_iff.1 hlength
    rfl
  | cons d ds ih =>
    cases replies with
    | nil => cases hlength
    | cons reply replies =>
      simp only [List.mapM_cons, bind_assoc, pure_bind]
      exact ih (Nat.succ.inj hlength) fun rest => k (reply :: rest)

/-- An evaluation yields the derivative that is combined from the values of its samples. -/
theorem replay_evaluate [Arithmetic α] {h : α} {i j : Nat} {values : List α}
    (hlength : values.length = grid.length) :
    (evaluate h i j).replay (values.map .ok) = some (.ok (Assembler.combined h values)) := by
  unfold evaluate gridSamples
  simp only [bind_assoc, pure_bind]
  rw [replay_mapM _ (by rwa [List.length_map])]
  have hvalues := Assembler.collected_ok values
  rw [Assembler.collected] at hvalues
  rw [hvalues]
  rfl

end Replay

/-! ## Common values -/

section Common

variable {α : Type} {n size : Nat}

/-- All ranks that get a value get the same one. -/
def Alike (replies : Fin size → Except Failure α) : Prop :=
  ∀ r r' x y, replies r = .ok x → replies r' = .ok y → x = y

theorem Alike.exists_value [Inhabited α] {x : Fin size → α} (h : Alike fun r => .ok (x r)) :
    ∃ v, x = fun _ => v := by
  cases size with
  | zero => exact ⟨default, funext fun r => r.elim0⟩
  | succ size => exact ⟨x 0, funext fun r => h r 0 _ _ rfl rfl⟩

/-- Values that all ranks have got alike are those of one list. -/
private theorem exists_common [Inhabited α] {δ : Type}
    {T : δ → (Fin size → Except Failure α) → Prop}
    (halike : ∀ d replies, T d replies → Alike replies) {ds : List δ}
    {values : List (Fin size → α)}
    (h : List.Forall₂ (fun d x => T d fun r => .ok (x r)) ds values) :
    ∃ common : List α, List.Forall₂ (fun d x => T d fun _ => .ok x) ds common ∧
      values = common.map fun v _ => v := by
  induction h with
  | nil => exact ⟨[], .nil, rfl⟩
  | cons hx _ ih =>
    obtain ⟨v, rfl⟩ := (halike _ _ hx).exists_value
    obtain ⟨common, hcommon, rfl⟩ := ih
    exact ⟨v :: common, .cons hx hcommon, rfl⟩

/-- Values that are listed with different pairs are those of a function. -/
private theorem exists_function {β : Type} [Inhabited β] {found : List (Fin n × Fin n × β)}
    {pairs : List (Fin n × Fin n)} (hpairs : found.map (fun e => (e.1, e.2.1)) = pairs)
    (hnodup : pairs.Nodup) :
    ∃ f : Fin n → Fin n → β, found = pairs.map fun e => (e.1, e.2, f e.1 e.2) := by
  induction found generalizing pairs with
  | nil => exact ⟨fun _ _ => default, by rw [← hpairs]; rfl⟩
  | cons e found ih =>
    obtain rfl := hpairs
    obtain ⟨hnew, hnodup⟩ := List.nodup_cons.1 hnodup
    obtain ⟨f, hf⟩ := ih rfl hnodup
    -- The function for the others is changed at the first pair, which is not among them.
    refine ⟨fun i j => if (i, j) = (e.1, e.2.1) then e.2.2 else f i j, ?_⟩
    simp only [List.map_cons, if_true]
    refine congrArg (e :: ·) (hf.trans (List.map_congr_left fun pair hpair => ?_))
    have hne : (pair.1, pair.2) ≠ (e.1, e.2.1) := by
      intro h
      have hmem : (e.1, e.2.1) ∈ found.map fun e => (e.1, e.2.1) := h ▸ hpair
      exact hnew hmem
    rw [if_neg hne]

end Common

/-! ## What is stored -/

namespace Assembler

variable {α : Type} [Arithmetic α] [Magnitude α] {n size : Nat} {p : Fin size → Partition n}

/-- The value of every pair that belongs to the pattern of some rank is what `evaluate` yields, on
every rank, from the samples that have been taken for it. All ranks have got the same values for
these, which are related to the perturbations by `S`. -/
def Evaluates (S : List (Perturbation α) → (Fin size → Except Failure α) → Prop) (a : Assembler α)
    (pattern : Fin size → Occupancy) (es : Fin size → List (Exchange (Sampling α)))
    (v : Fin n → Fin n → α) : Prop :=
  ∃ samples : Fin n → Fin n → List α,
    (∀ r, samplesIn (es r) =
      ((upperPairs n).filter fun e => anyHolds pattern e.1 e.2).flatMap fun e =>
        (grid.map (gridPerturbations a.step.size e.1 e.2)).zip ((samples e.1 e.2).map .ok)) ∧
    ∀ i j : Fin n, i ≤ j → anyHolds pattern i j = true →
      List.Forall₂ (fun d x => S (gridPerturbations a.step.size i j d) fun _ => .ok x) grid
        (samples i j) ∧
      (evaluate a.step.size i j).replay ((samples i j).map .ok) = some (.ok (v i j))

/-- Whether a position is stored by the owner of its row: the pair of the smaller and the larger
index belongs to the pattern of some rank, and its value is not below the tolerance. A value is not
below it if it does not compare with it. -/
def takes (a : Assembler α) (pattern : Fin size → Occupancy) (v : Fin n → Fin n → α)
    (i j : Fin n) : Bool :=
  anyHolds pattern (min i j : Fin n) (max i j : Fin n) &&
    !Magnitude.less (Magnitude.abs (v (min i j) (max i j))) a.dropTolerance

/-- What the ranks have deposited and stored, given the values of all pairs `i ≤ j`. -/
structure Stores (a : Assembler α) (pattern : Fin size → Occupancy) (v : Fin n → Fin n → α)
    (d : (r : Fin size) → Deposits α (p r)) (M : GroupMatrix α p) : Prop where
  /-- The matrices are square. -/
  columns_eq : ∀ r, (M r).columns = n
  /-- Every rank has deposited the value of a position that it stores once, and nothing else. -/
  deposited : ∀ r (i j : Fin n), valuesAt (d r).entries i j =
    if i.val ∈ (p r).owned ∧ a.takes pattern v i j = true then [v (min i j) (max i j)] else []
  /-- The matrix of a rank is made of its own deposits. -/
  made : ∀ r, M r = .ofEntries (p r) n (d r).entries
  /-- It stores the very values. -/
  stored : ∀ r (i j : Fin n), (M r).part.stored? i j =
    if i.val ∈ (p r).owned ∧ a.takes pattern v i j = true then some (v (min i j) (max i j))
    else none

theorem takes_comm (a : Assembler α) (pattern : Fin size → Occupancy) (v : Fin n → Fin n → α)
    (i j : Fin n) : a.takes pattern v i j = a.takes pattern v j i := by
  rw [takes, takes, min_comm, max_comm]

/-- The entry of the matrix that the ranks gather. -/
def gathered (a : Assembler α) (pattern : Fin size → Occupancy) (v : Fin n → Fin n → α)
    (i j : Nat) : α :=
  if h : i < n ∧ j < n then
    let k : Fin n := ⟨i, h.1⟩
    let l : Fin n := ⟨j, h.2⟩
    if a.takes pattern v k l = true then 0 + v (min k l) (max k l) else 0
  else 0

theorem gathered_comm (a : Assembler α) (pattern : Fin size → Occupancy) (v : Fin n → Fin n → α)
    (i j : Nat) : a.gathered pattern v i j = a.gathered pattern v j i := by
  by_cases h : i < n ∧ j < n
  · rw [gathered, gathered, dif_pos h, dif_pos h.symm]
    dsimp only
    rw [takes_comm, min_comm, max_comm]
  · rw [gathered, gathered, dif_neg h, dif_neg fun h' => h h'.symm]

/-- What the ranks deposit that have taken the values of all pairs into their tallies. -/
theorem stores_of_tally {a : Assembler α} {pattern : Fin size → Occupancy}
    {v : Fin n → Fin n → α} {t : Fin size → Tally α n}
    (ht : ∀ r, t r = Tally.ofFound a.dropTolerance
      (((upperPairs n).filter fun e => anyHolds pattern e.1 e.2).map
        fun e => (e.1, e.2, v e.1 e.2))) :
    a.Stores pattern v (fun r => (t r).deposits (p r))
      fun r => .ofEntries (p r) n ((t r).deposits (p r)).entries := by
  have hdeposited : ∀ r (i j : Fin n), valuesAt ((t r).deposits (p r)).entries i j =
      if i.val ∈ (p r).owned ∧ a.takes pattern v i j = true then [v (min i j) (max i j)]
      else [] := by
    intro r i j
    by_cases hi : i.val ∈ (p r).owned
    · rw [ht r, Tally.valuesAt_ofFound hi]
      refine if_congr ?_ rfl rfl
      simp [hi, takes]
    · rw [if_neg fun h => hi h.1]
      refine List.map_eq_nil_iff.2 (List.filter_eq_nil_iff.2 fun e he hat => hi ?_)
      -- An entry of this row would have been deposited by a rank that owns it.
      rw [Entry.isAt, Bool.and_eq_true, beq_iff_eq, beq_iff_eq] at hat
      exact hat.1 ▸ Partition.owns_iff.1 (Tally.owns_of_mem_deposits he)
  refine ⟨fun r => rfl, hdeposited, fun r => rfl, fun r i j => ?_⟩
  rw [RowMatrix.stored?_ofEntries, hdeposited r i j]
  by_cases hi : i.val ∈ (p r).owned
  · rw [if_pos ⟨hi, j.isLt⟩]
    split
    · rfl
    · rfl
  · rw [if_neg fun h => hi h.1, if_neg fun h => hi h.1]

/-- What has been evaluated, deposited and stored after all pairs. -/
theorem Visited.stores {S : List (Perturbation α) → (Fin size → Except Failure α) → Prop}
    (halike : ∀ perturbations replies, S perturbations replies → Alike replies)
    {a : Assembler α} {pattern : Fin size → Occupancy}
    {found : List (Fin n × Fin n × List (Fin size → α))}
    {es : Fin size → List (Exchange (Sampling α))} {t : Fin size → Tally α n}
    (ht : Visited S a.step.size (fun _ => a.dropTolerance) (anyHolds pattern) (upperPairs n) found
      es t) :
    ∃ v, Evaluates S a pattern es v ∧ a.Stores pattern v (fun r => (t r).deposits (p r))
      fun r => .ofEntries (p r) n ((t r).deposits (p r)).entries := by
  have : Inhabited α := ⟨0⟩
  obtain ⟨f, hf⟩ := exists_function ht.pairs_eq ((nodup_upperPairs n).filter _)
  -- All ranks have got the same values.
  have hcommon : ∀ i j : Fin n, i ≤ j → anyHolds pattern i j = true → ∃ common : List α,
      List.Forall₂ (fun d x => S (gridPerturbations a.step.size i j d) fun _ => .ok x) grid
        common ∧ f i j = common.map fun v _ => v := by
    intro i j hij hpresent
    have hmem : (i, j, f i j) ∈ found := by
      rw [hf]
      exact List.mem_map.2
        ⟨(i, j), List.mem_filter.2 ⟨mem_upperPairs.2 hij, hpresent⟩, rfl⟩
    exact exists_common (fun d => halike _) (ht.admitted _ hmem)
  choose! samples hadmitted hsamples using hcommon
  have hvalues : ∀ e ∈ (upperPairs n).filter fun e => anyHolds pattern e.1 e.2,
      ∀ r : Fin size, (f e.1 e.2).map (· r) = samples e.1 e.2 := by
    intro e he r
    obtain ⟨hpair, hpresent⟩ := List.mem_filter.1 he
    rw [hsamples e.1 e.2 (mem_upperPairs.1 hpair) hpresent, List.map_map]
    exact List.map_id _
  refine ⟨fun i j => combined a.step.size (samples i j), ⟨samples, fun r => ?_, ?_⟩,
    stores_of_tally fun r => ?_⟩
  · rw [ht.samples_eq r, hf, List.flatMap_map]
    refine List.flatMap_congr fun e he => ?_
    have hreplies : (f e.1 e.2).map (fun x => (.ok (x r) : Except Failure α)) =
        (samples e.1 e.2).map .ok := by
      rw [← hvalues e he r, List.map_map]
      rfl
    exact congrArg (List.zip _) hreplies
  · intro i j hij hpresent
    have hall := hadmitted i j hij hpresent
    exact ⟨hall, replay_evaluate hall.length_eq.symm⟩
  · refine (congrFun ht.tallies_eq r).trans (congrArg (Tally.ofFound a.dropTolerance) ?_)
    rw [hf, List.map_map]
    refine List.map_congr_left fun e he => ?_
    rw [Function.comp_apply, hvalues e he r]

namespace Stores

variable {a : Assembler α} {pattern : Fin size → Occupancy} {v : Fin n → Fin n → α}
  {d : (r : Fin size) → Deposits α (p r)} {M : GroupMatrix α p}

/-- What the ranks gather is at every position what the owner of the row stores, added onto zero. -/
theorem dense_eq (h : a.Stores pattern v d M) (hdivide : Partition.Divide p) :
    Group.dense M n =
      ⟨n, (List.range n).map fun i => (List.range n).map (a.gathered pattern v i)⟩ := by
  refine Group.dense_eq hdivide M fun r i hi j hj => ?_
  have hin : i < n := (p r).lt_of_mem_owned hi
  rw [gathered, dif_pos ⟨hin, hj⟩, h.stored r ⟨i, hin⟩ ⟨j, hj⟩]
  simp only [hi, true_and]
  split
  · rfl
  · rfl

/-- What is stored lies in the pattern that the ranks have together, if that is symmetric. -/
theorem anyHolds_of_mem (h : a.Stores pattern v d M)
    (hsymmetric : ∀ i j : Fin n, anyHolds pattern i j = anyHolds pattern j i) {r : Fin size}
    {e : Entry α} (he : e ∈ (M r).part.entries) : anyHolds pattern e.row e.column = true := by
  obtain ⟨hrow, hcolumn⟩ := RowMatrix.mem_owned_of_mem_entries he
  have hstored := SparseMatrix.stored?_of_mem_entries he
  let i : Fin n := ⟨e.row, (p r).lt_of_mem_owned hrow⟩
  let j : Fin n := ⟨e.column, h.columns_eq r ▸ hcolumn⟩
  have htakes : a.takes pattern v i j = true := by
    by_contra hnot
    rw [h.stored r i j, if_neg fun hand => hnot hand.2] at hstored
    cases hstored
  have hpair := (Bool.and_eq_true_iff.1 htakes).1
  rcases le_total i j with hle | hle
  · rwa [min_eq_left hle, max_eq_right hle] at hpair
  · rw [min_eq_right hle, max_eq_left hle] at hpair
    exact (hsymmetric i j).trans hpair

end Stores

/-! ## The assembly -/

/-- Content of an assembled matrix. The ranks divide the degrees of freedom, their patterns may
disagree on every position and need not be symmetric, and samples may fail, but all ranks that get a
value for a sample get the same one; `S` is what else is known of their replies. Then either some
rank has got a failure and all ranks stop early, or there are values of all pairs such that the
following holds.

The value of a pair is what `evaluate` yields from the samples that have been taken for it. A rank
stores a position if it owns the row, the pair is in some rank's pattern and the value is not below
the tolerance; it stores the value itself, which has been deposited once. The matrix that the ranks
gather is symmetric, and if the pattern that they have together is symmetric, what they store lies
in it. -/
theorem assemble_content {σ : Fin size → Type}
    (service : (r : Fin size) → Sampler (σ r) α .closed)
    (record : (r : Fin size) → Progress α → Stateful (σ r) α .closed Unit)
    (inv : ((r : Fin size) → σ r) → Prop)
    (S : List (Perturbation α) → (Fin size → Except Failure α) → Prop)
    (halike : ∀ perturbations replies, S perturbations replies → Alike replies)
    (hsample : ∀ perturbations states, inv states →
      Group.Attains (.closed size)
        (fun out => ∃ replies s, S perturbations replies ∧ inv s ∧
          out = fun r => ((replies r).mapError Stop.failed, s r))
        fun r => (service r perturbations).run (states r))
    (hrecord : ∀ r progress states, inv states →
      ∃ s, inv (Function.update states r s) ∧
        (record r progress).run (states r) = .done (.ok (), s))
    (a : Assembler α) (c : Fin size → Place) (hdivide : Partition.Divide p)
    (pattern : Fin size → Occupancy)
    (hshape : ∀ r, (pattern r).rows = n ∧ (pattern r).columns = n)
    (states : (r : Fin size) → σ r) (hstates : inv states) :
    (∀ r, a.assemble (c r) (p r) (pattern r) =
      Prod.snd <$> a.assembleOpenly (c r) (p r) (pattern r)) ∧
    ∃ results,
      Group.Returns
        (fun r => ((service r).runProgram (record r)
          ((a.assembleOpenly (c r) (p r) (pattern r)).run.traced Sampling.isSample)).run (states r))
        results ∧
      ((∃ (es : Fin size → List (Exchange (Sampling α))) (stop : Fin size → Stop)
          (s : (r : Fin size) → σ r),
          results = (fun r => (.ok (es r, .error (stop r)), s r)) ∧ Failing S es) ∨
        ∃ (es : Fin size → List (Exchange (Sampling α))) (d : (r : Fin size) → Deposits α (p r))
          (M : GroupMatrix α p) (s : (r : Fin size) → σ r) (v : Fin n → Fin n → α),
          results = (fun r => (.ok (es r, .ok (d r, M r)), s r)) ∧
          Evaluates S a pattern es v ∧ a.Stores pattern v d M ∧
          Group.Returns (fun r => ((M r).dense : Task α .closed (Dense α)).run) (fun _ =>
            .ok ⟨n, (List.range n).map fun i => (List.range n).map (a.gathered pattern v i)⟩) ∧
          (∀ i j, a.gathered pattern v i j = a.gathered pattern v j i) ∧
          ((∀ i j : Fin n, anyHolds pattern i j = anyHolds pattern j i) →
            ∀ r, ∀ e ∈ (M r).part.entries, anyHolds pattern e.row e.column = true)) := by
  refine ⟨fun r => assemble_eq a (c r) (p r) (pattern r), ?_⟩
  have hassemble := tries_assembleOpenly (S := S) a.step (fun _ => a.dropTolerance) c p pattern
    hshape
  -- The exchanges are recorded first, then the service answers them out of its states.
  have hserved := Group.Attains.serve hassemble (answers_of_outcomes hsample hrecord) hstates
  obtain ⟨results, ⟨b, s, ⟨hb, _⟩, rfl⟩, hreturns⟩ := hserved.returns
  refine ⟨_, hreturns, ?_⟩
  rcases hb with ⟨out, ⟨found, es, t, ht, hes, rfl⟩, hout⟩ | ⟨hfailing, hstopped⟩
  · right
    obtain ⟨v, hevaluates, hstores⟩ := ht.stores halike (p := p)
    -- The exchange of deposits is no sample.
    have hsamples : ∀ r, samplesIn (b r).1 = samplesIn (es r) := by
      intro r
      rw [congrFun hes r, samplesIn_append]
      exact List.append_nil _
    have hdense := Group.achieves_dense (P := .closed) (R := .closed size) _ hstores.columns_eq
    obtain ⟨_, ⟨_, rfl, rfl⟩, hgathered⟩ := hdense.returns
    rw [hstores.dense_eq hdivide] at hgathered
    refine ⟨fun r => (b r).1, _, _, s, v, ?_, ?_, hstores, hgathered, gathered_comm a pattern v,
      fun hsymmetric r e he => hstores.anyHolds_of_mem hsymmetric he⟩
    · funext r
      rw [← congrFun hout r]
    · obtain ⟨samples, htaken, hreplay⟩ := hevaluates
      exact ⟨samples, fun r => (hsamples r).trans (htaken r), hreplay⟩
  · left
    choose stop hstop using hstopped
    refine ⟨fun r => (b r).1, stop, s, ?_, hfailing⟩
    funext r
    rw [← hstop r]

/-- Two ranks of which only the first has the pair of both indices in its pattern, and only for the
first row. The samples are products of the offsets, so the value is one; each rank stores it in its
row. -/
theorem assemble_content_two_ranks :
    let service : Sampler Unit Rat .closed := fun perturbations =>
      pure (perturbations.map (·.offset)).prod
    let a : Assembler Rat := ⟨⟨1, rfl⟩, 0⟩
    let pattern : Fin 2 → Occupancy := fun r => ⟨2, 2, fun i j => r == 0 && i == 0 && j == 1⟩
    ∃ (es : Fin 2 → List (Exchange (Sampling Rat)))
      (d : (r : Fin 2) → Deposits Rat (Partition.mirrored r))
      (M : GroupMatrix Rat Partition.mirrored),
      Group.Returns
        (fun r => (service.runProgram (fun _ => pure ())
          ((a.assembleOpenly (.member r.val 2 r.isLt) (Partition.mirrored r) (pattern r)).run.traced
            Sampling.isSample)).run ())
        (fun r => (.ok (es r, .ok (d r, M r)), ())) ∧
      (M 0).part.stored? 0 1 = some 1 ∧ (M 1).part.stored? 1 0 = some 1 ∧
        (M 0).part.stored? 0 0 = none := by
  intro service a pattern
  let value (perturbations : List (Perturbation Rat)) : Rat := (perturbations.map (·.offset)).prod
  let S (perturbations : List (Perturbation Rat)) (replies : Fin 2 → Except Failure Rat) : Prop :=
    replies = fun _ => .ok (value perturbations)
  have halike : ∀ perturbations replies, S perturbations replies → Alike replies := by
    rintro perturbations _ rfl r r' x y hx hy
    exact (Except.ok.inj hx).symm.trans (Except.ok.inj hy)
  obtain ⟨-, _, hreturns, hout⟩ :=
    assemble_content (fun _ => service) (fun _ _ => pure ()) (fun _ => True) S halike
      (fun perturbations _ _ => .done _ ⟨_, fun _ => (), rfl, trivial, rfl⟩)
      (fun _ _ _ _ => ⟨(), trivial, rfl⟩) a (fun r => .member r.val 2 r.isLt)
      Partition.divide_mirrored pattern (fun _ => ⟨rfl, rfl⟩) (fun _ => ()) trivial
  rcases hout with ⟨es, stop, s, -, hfailing⟩ | ⟨es, d, M, s, v, rfl, hevaluates, hstores, -⟩
  · -- No sample fails.
    obtain ⟨_, _, r, rfl, _, hfailed⟩ := hfailing
    cases hfailed
  · obtain ⟨samples, -, hpairs⟩ := hevaluates
    obtain ⟨hadmitted, hreplay⟩ := hpairs 0 1 (by decide) (by decide)
    have hsamples : grid.map (fun d => value (gridPerturbations 1 0 1 d)) = samples 0 1 := by
      rw [← List.forall₂_eq_eq_eq, List.forall₂_map_left_iff]
      refine hadmitted.imp fun d x hx => ?_
      have hfirst : (.ok x : Except Failure Rat) = .ok (value _) := congrFun hx 0
      exact (Except.ok.inj hfirst).symm
    -- The stencil gives the mixed derivative of the product, which is one.
    have hone : v 0 1 = 1 := by
      rw [← hsamples, replay_evaluate (List.length_map _)] at hreplay
      rw [← Except.ok.inj (Option.some.inj hreplay)]
      decide +kernel
    have htakes : a.takes pattern v 0 1 = true := by
      show (anyHolds pattern 0 1 && !Magnitude.less (Magnitude.abs (v 0 1)) 0) = true
      rw [hone]
      decide +kernel
    have hleaves : a.takes pattern v 0 0 = false := by
      show (anyHolds pattern 0 0 && _) = false
      rw [show anyHolds pattern 0 0 = false by decide]
      rfl
    refine ⟨es, d, M, hreturns, ?_, ?_, ?_⟩
    · refine (hstores.stored 0 0 1).trans ?_
      rw [if_pos ⟨by decide, htakes⟩]
      exact congrArg some hone
    · refine (hstores.stored 1 1 0).trans ?_
      rw [takes_comm, if_pos ⟨by decide, htakes⟩]
      exact congrArg some hone
    · refine (hstores.stored 0 0 0).trans ?_
      rw [hleaves, if_neg fun h => nomatch h.2]

end Assembler

end DualHessian
