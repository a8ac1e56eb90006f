import DualHessian.Proofs.System.Consistency

/-!
# What each rank sees of a solution

A rank may set every entry of the solution that is relevant to it, also the copies of entries that
others own, and nothing carries what it has set to the other ranks. Each rank evaluates the closures
at its own view of the solution.

* `Group.view_eq_iff` says that the views of all ranks are the same exactly if every copy of an
  entry is the value that its owner holds.
* `Group.attains_assembleWatched` is an assembly from solutions of any kind.
* `Description.assembles_views` is an assembly after each rank has set entries of its own.
-/

namespace DualHessian

namespace Group

open ClosureState Stateful

variable {α : Type} [Arithmetic α] {P : Interface} {n size : Nat} {p : Fin size → Partition n}
  {R : Replies P size}

/-- All ranks see the same global vector exactly if every copy of an entry is the value of the owner
of the entry. -/
theorem view_eq_iff (hdivide : Partition.Divide p) (v : (r : Fin size) → LocalVector α (p r)) :
    (∀ r s, view v r = view v s) ↔ GhostsCurrent v := by
  constructor
  · intro h r s i hi hs
    -- A rank with a copy sees the copy, and the owner sees its own value.
    have hviews := congrArg (·[i]?) (h s r)
    simp only [getElem?_view hdivide v _ hi] at hviews
    rwa [if_pos hs, if_pos ((p r).owned_subset i hi)] at hviews
  · intro h r s
    ext i hi
    obtain ⟨owner, howner, _⟩ := hdivide i hi
    have hread : ∀ t, (view v t)[i]? = (v owner).get? i := by
      intro t
      rw [getElem?_view hdivide v t howner]
      split
      · exact h owner t i howner ‹_›
      · rfl
    have hviews := (hread r).trans (hread s).symm
    rw [Vector.getElem?_eq_getElem hi, Vector.getElem?_eq_getElem hi] at hviews
    exact Option.some.inj hviews

/-! ## Assembling -/

/-- Ranks that share the dual hand each its own view of the solution to the residual. -/
theorem attains_assembleWatched {residual : ResidualRule α} {hessian? : Option (HessianRule α)}
    {S : (r : Fin size) → ClosureSystem α (p r)} {dual : Vector α n}
    {states : (r : Fin size) → List (Vector α n) × ClosureState α (p r)}
    (hdivide : Partition.Divide p) (hdual : ∀ r, (states r).2.dual = .ofVector (p r) dual)
    (hresidual : ∀ r, (S r).residual = residual) (hrule : ∀ r, (S r).hessian? = hessian?)
    {request : Derivatives} {y : Fin size → Vector α n}
    (hy : view (fun r => (states r).2.solution) = y)
    (hgiven : request.hessian = true → ∀ r, ∃ z, residual n (y r) = .ok z) :
    Attains R
      (fun out => ∀ r, (out r).1 = assemblyOutcome residual hessian? request (y r) dual ∧
        (out r).2.1 = (states r).1 ++ (Operation.assemble request).handed (y r))
      fun r => ((S r).assembleWatched request :
        Stateful (List (Vector α n) × ClosureState α (p r)) α P Unit).run (states r) := by
  have hhanded : ∀ r, (Operation.assemble request).handed (y r) =
      if request.wantsJacobian then [] else [y r] := fun _ => rfl
  simp only [hhanded]
  unfold ClosureSystem.assembleWatched assemblyOutcome
  cases hrequest : request.wantsJacobian with
  | true => exact .done _ fun r => ⟨rfl, (List.append_nil _).symm⟩
  | false =>
    simp only [Bool.false_eq_true, if_false]
    refine (Proceeds.modify _).beside.bind _ ?_
    rintro _ s ⟨hs, hlist⟩
    refine (proceeds_view hdivide fun r => (s r).2).beside.bind _ ?_
    rintro _ s' ⟨⟨rfl, hs'⟩, hlist'⟩
    refine (Proceeds.modify _).bind _ ?_
    rintro _ _ rfl
    -- Counting the assembly and putting the view together change neither solution nor dual.
    have hcounted : ∀ r, (s r).2 =
        { (states r).2 with assemblies := (states r).2.assemblies + 1 } := congrFun hs
    have hview : view (fun r => (s r).2.solution) = y := by
      rw [← hy]
      exact congrArg view (funext fun r => by rw [hcounted r])
    have hkept : ownersVector (fun r => (s' r).2.dual) = dual := by
      rw [← ownersVector_ofVector hdivide dual]
      refine congrArg ownersVector (funext fun r => ?_)
      rw [congrFun hs' r, hcounted r]
      exact hdual r
    rw [hview]
    let noted : (r : Fin size) → List (Vector α n) × ClosureState α (p r) :=
      fun r => ((s' r).1 ++ [y r], (s' r).2)
    have hat : Attains R (fun out => ∀ r, (out r).1 =
        closuresOutcome residual hessian? request (y r) dual) fun r =>
          ((S r).assembleAt request (y r) : Stateful _ α P Unit).run (noted r).2 := by
      refine Attains.mono (attains_assembleAt hdivide hresidual hrule hrequest y hkept
        fun _ hhessian => .inl (hgiven hhessian)) ?_
      rintro _ rfl r
      simp only [assemblyOutcome, hrequest, Bool.false_eq_true, if_false]
    refine hat.beside fun out hout r => ?_
    exact ⟨hout r, congrArg (· ++ [y r]) ((hlist' r).trans (hlist r))⟩

/-- The same as one operation among others, of which it is told how it has ended. -/
theorem proceeds_assembleAttempt {residual : ResidualRule α} {hessian? : Option (HessianRule α)}
    {S : (r : Fin size) → ClosureSystem α (p r)} {dual : Vector α n}
    {states : (r : Fin size) → List (Vector α n) × ClosureState α (p r)}
    (hdivide : Partition.Divide p) (hdual : ∀ r, (states r).2.dual = .ofVector (p r) dual)
    (hresidual : ∀ r, (S r).residual = residual) (hrule : ∀ r, (S r).hessian? = hessian?)
    {request : Derivatives} {y : Fin size → Vector α n}
    (hy : view (fun r => (states r).2.solution) = y)
    (hgiven : request.hessian = true → ∀ r, ∃ z, residual n (y r) = .ok z) :
    Proceeds R states
      (fun b s => ∀ r, b r = (Operation.assemble request).outcome residual hessian? p dual (y r) ∧
        (s r).1 = (states r).1 ++ (Operation.assemble request).handed (y r))
      fun r => (ExceptT.lift (((S r).watched : Discretization _ α P (p r)).perform
        (.assemble request)).run : Stateful (List (Vector α n) × ClosureState α (p r)) α P _) := by
  have hperform : Attains R
      (fun out => ∀ r, (out r).1 =
          (Operation.assemble request).outcome residual hessian? p dual (y r) ∧
        (out r).2.1 = (states r).1 ++ (Operation.assemble request).handed (y r))
      fun r => (((S r).watched : Discretization _ α P (p r)).perform (.assemble request)).run
        (states r) := by
    refine (attains_assembleWatched hdivide hdual hresidual hrule hy hgiven).bind _ ?_
    intro out hout
    refine .of_eq_done (b := fun r => ((out r).1.map fun _ => none, (out r).2)) (fun r => ?_)
      fun r => ⟨congrArg (Except.map fun _ => none) (hout r).1, (hout r).2⟩
    obtain ⟨result, s⟩ := out r
    cases result <;> rfl
  exact Proceeds.attempt hperform

end Group

/-! ## After writes of single ranks -/

/-- What the ranks hold of a solution after each of them has set entries. -/
def Group.written {α : Type} {n size : Nat} (p : Fin size → Partition n) (x : Vector α n)
    (writes : Fin size → List (Nat × α)) (r : Fin size) : LocalVector α (p r) :=
  (LocalVector.ofVector (p r) x).setAll (writes r)

/-- A computation that follows one which ends at once. -/
private theorem Stateful.run_bind_done {σ α β γ : Type} {P : Interface} {action : Stateful σ α P β}
    {s s' : σ} {b : β} (h : action.run s = .done (.ok b, s')) {next : β → Stateful σ α P γ} :
    (action >>= next).run s = (next b).run s' :=
  congrArg (fun program => program >>= fun (out : Except Stop β × σ) =>
    (ExceptT.bindCont next out.1 out.2 : Program α P (Except Stop γ × σ))) h

/-- Setting entries of the solution, one after the other, hands nothing to the residual. -/
theorem ClosureSystem.run_writes {α : Type} [Arithmetic α] {P : Interface} {n : Nat}
    {p : Partition n} (S : ClosureSystem α p) (pairs : List (Nat × α))
    (state : List (Vector α n) × ClosureState α p) :
    ((S.watched : Discretization _ α P p).performAll
      (pairs.map fun e => .write e.1 e.2)).run state =
      .done (.ok (pairs.map fun _ => .ok none),
        (state.1, { state.2 with solution := state.2.solution.setAll pairs })) := by
  unfold Discretization.performAll
  induction pairs generalizing state with
  | nil => rfl
  | cons e pairs ih =>
    have hfirst : (ExceptT.lift ((S.watched : Discretization _ α P p).perform
        (.write e.1 e.2)).run : Stateful _ α P _).run state =
        .done (.ok (.ok none),
          (state.1, { state.2 with solution := state.2.solution.set e.1 e.2 })) := rfl
    simp only [List.map_cons, List.mapM_cons]
    exact (Stateful.run_bind_done hfirst).trans (Stateful.run_bind_done (ih _))

/-- The ranks set entries of their own, and then assemble once. -/
theorem Group.proceeds_assembleWritten {α : Type} [Arithmetic α] {P : Interface} {n size : Nat}
    {p : Fin size → Partition n} {R : Replies P size} {residual : ResidualRule α}
    {hessian? : Option (HessianRule α)} {S : (r : Fin size) → ClosureSystem α (p r)}
    (hdivide : Partition.Divide p) (hresidual : ∀ r, (S r).residual = residual)
    (hrule : ∀ r, (S r).hessian? = hessian?) (x dual : Vector α n)
    (writes : Fin size → List (Nat × α)) (request : Derivatives) {y : Fin size → Vector α n}
    (hy : view (written p x writes) = y)
    (hgiven : request.hessian = true → ∀ r, ∃ z, residual n (y r) = .ok z) :
    Proceeds R (fun r => ([], .initial (p r) x dual))
      (fun b s => (b = fun r => (writes r).map (fun _ => .ok none) ++
          [(Operation.assemble request).outcome residual hessian? p dual (y r)]) ∧
        ∀ r, (s r).1 = (Operation.assemble request).handed (y r))
      fun r => ((S r).watched : Discretization _ α P (p r)).performAll
        ((writes r).map (fun e => .write e.1 e.2) ++ [.assemble request]) := by
  have hwritten : Proceeds R (fun r => ([], .initial (p r) x dual))
      (fun b s => (b = fun r => (writes r).map fun _ => .ok none) ∧ s = fun r =>
        ([], { ClosureState.initial (p r) x dual with solution := written p x writes r }))
      fun r => ((S r).watched : Discretization _ α P (p r)).performAll
        ((writes r).map fun e => .write e.1 e.2) :=
    .of_eq_done (fun r => (S r).run_writes (writes r) ([], .initial (p r) x dual))
      ⟨_, _, ⟨rfl, rfl⟩, rfl⟩
  unfold Discretization.performAll at hwritten ⊢
  simp only [List.mapM_append, List.mapM_cons, List.mapM_nil, pure_bind, bind_assoc]
  refine hwritten.andThen _ ?_
  rintro _ _ ⟨rfl, rfl⟩
  refine (proceeds_assembleAttempt hdivide (fun _ => rfl) hresidual hrule hy hgiven).andThen _ ?_
  intro b s hb
  exact .pure ⟨funext fun r => congrArg (_ ++ [·]) (hb r).1, fun r => (hb r).2⟩

namespace Description

open DualHessian.Group (view written)

variable {α : Type} [Arithmetic α]

/-- Each rank evaluates the closures at its own view of the solution. The systems of a group are
built from one description, then each rank sets entries of its own solution, and then all ranks
assemble once. A rank hands to the residual the vector that holds its own copies where it has them
and the owners' values elsewhere, so what the owner of an entry has set is seen by the ranks without
a copy of it, and what another rank has set is seen by this rank only. The ranks hand over the same
state exactly if every copy of an entry is still the value of its owner. -/
theorem assembles_views {size : Nat} (hsize : 0 < size) {c : Fin size → Place}
    (hc : ∀ r, (c r).rank = r ∧ (c r).size = size) (d : Description α)
    {residual : ResidualRule α} {pattern : Pattern} {n : Nat}
    (hresidual : d.residual? = some residual) (hpattern : d.pattern? = some pattern)
    (hrows : pattern.rows = n) (hcolumns : pattern.columns = n) {x dual : Vector α n}
    (hx : vectorOr n d.solution? = x.toList) (hdual : vectorOr n d.dual? = dual.toList) :
    ∃ (p : Fin size → Partition n) (S : (r : Fin size) → ClosureSystem α (p r)),
      Partition.Divide p ∧ (∀ r, (S r).residual = residual) ∧
      (∀ r, d.build (c r) = .ok ⟨n, p r, S r, .initial (p r) x dual⟩) ∧
      (∀ r operations, Stateful.Forgets ((S r).watched.performAll operations)
        ((S r).discretization.performAll operations : Stateful _ α .closed _)) ∧
      ∀ (writes : Fin size → List (Nat × α)) (request : Derivatives),
        (request.hessian = true →
          ∀ r, ∃ z, residual n (view (written p x writes) r) = .ok z) →
        (∃ s : (r : Fin size) → ClosureState α (p r),
          Group.Returns
            (fun r => ((S r).watched.performAll
              ((writes r).map (fun e => .write e.1 e.2) ++ [.assemble request])).run
                ([], .initial (p r) x dual))
            (fun r => (.ok ((writes r).map (fun _ => .ok none) ++
                [(Operation.assemble request).outcome residual d.hessian? p dual
                  (view (written p x writes) r)]),
              ((Operation.assemble request).handed (view (written p x writes) r), s r)))) ∧
        (∀ r owner, ∀ i ∈ (p owner).owned, (view (written p x writes) r)[i]? =
          if i ∈ (p r).relevant then (written p x writes r).get? i
          else (written p x writes owner).get? i) ∧
        ((∀ r s, view (written p x writes) r = view (written p x writes) s) ↔
          GhostsCurrent (written p x writes)) := by
  subst hrows
  obtain ⟨p, hdivide, hbuild⟩ := build_ok hsize hc d hresidual hpattern hcolumns hx hdual
  let S (r : Fin size) : ClosureSystem α (p r) :=
    ⟨c r, pattern.restrict (p r).owns, residual, d.hessian?⟩
  refine ⟨p, S, hdivide, fun _ => rfl, hbuild,
    fun r operations => ClosureSystem.forgets_performAll (S r) operations,
    fun writes request hgiven => ⟨?_, fun r owner i hi => Group.getElem?_view hdivide _ r hi,
      Group.view_eq_iff hdivide _⟩⟩
  obtain ⟨_, ⟨_, s, ⟨rfl, hs⟩, rfl⟩, hreturns⟩ :=
    (Group.proceeds_assembleWritten (R := .closed size) (S := S) hdivide (fun _ => rfl)
      (fun _ => rfl) x dual writes request rfl hgiven).returns
  refine ⟨fun r => (s r).2, ?_⟩
  simp only [← hs]
  exact hreturns

/-- How two ranks divide the entries of `squares`: the first one owns two of them and has a copy of
the third, the second one owns the third and has a copy of its neighbour. -/
private def coupled (r : Fin 2) : Partition 3 where
  owned := ⟨3, if r.val = 0 then [0, 1] else [2], by revert r; decide, by revert r; decide⟩
  relevant := ⟨3, if r.val = 0 then [0, 1, 2] else [1, 2], by revert r; decide, by revert r; decide⟩
  owned_size := rfl
  relevant_size := rfl
  owned_subset := by revert r; decide

/-- The first rank sets an entry of which the second one has no copy, and its copy of an entry that
the second one owns. The second rank sees the first of them only. -/
theorem assembles_views_two_ranks :
    let writes : Fin 2 → List (Nat × Rat) := fun r => if r = 0 then [(0, 5), (2, 7)] else []
    ∃ (p : Fin 2 → Partition 3) (S : (r : Fin 2) → ClosureSystem Rat (p r)),
      (∀ r, squares.build (.member r.val 2 r.isLt) =
        .ok ⟨3, p r, S r, .initial (p r) #v[1, 2, 3] #v[1, 1, 1]⟩) ∧
      (∃ s : (r : Fin 2) → ClosureState Rat (p r),
        Group.Returns
          (fun r => ((S r).watched.performAll
            ((writes r).map (fun e => .write e.1 e.2) ++ [.assemble .residualOnly])).run
              ([], .initial (p r) #v[1, 2, 3] #v[1, 1, 1]))
          (fun r => (.ok ((writes r).map (fun _ => .ok none) ++ [.ok none]),
            ([if r = 0 then #v[5, 2, 7] else #v[5, 2, 3]], s r)))) ∧
      ¬GhostsCurrent (written p #v[1, 2, 3] writes) := by
  intro writes
  have hrows : (Pattern.banded 3 1).rows = 3 := rfl
  have hx : vectorOr 3 squares.solution? = (#v[1, 2, 3] : Vector Rat 3).toList := rfl
  have hdual : vectorOr 3 squares.dual? = (#v[1, 1, 1] : Vector Rat 3).toList := rfl
  obtain ⟨p, S, _, _, hbuild, _, hviews⟩ :=
    assembles_views (by decide : 0 < 2) (c := fun r => .member r.val 2 r.isLt)
      (fun _ => ⟨rfl, rfl⟩) squares rfl rfl hrows rfl hx hdual
  obtain ⟨⟨s, hreturns⟩, _, hcurrent⟩ := hviews writes .residualOnly nofun
  -- The description determines which partitions the ranks build.
  have hp : p = coupled := by
    funext r
    have hcoupled : (squares.build (.member r.val 2 r.isLt)).map
        (fun b => (b.partition.owned, b.partition.relevant)) =
          .ok ((coupled r).owned, (coupled r).relevant) := by
      revert r
      decide +kernel
    rw [hbuild r] at hcoupled
    have hsets : (p r).owned = (coupled r).owned ∧ (p r).relevant = (coupled r).relevant :=
      Prod.mk.inj (Except.ok.inj hcoupled)
    exact Partition.agrees_iff.1 (by simp [Partition.agrees, hsets.1, hsets.2])
  subst hp
  -- What each rank sees is evaluated once, for what is handed over and for the comparison.
  have hview : ∀ r, view (written coupled #v[1, 2, 3] writes) r =
      if r = 0 then #v[5, 2, 7] else #v[5, 2, 3] := by decide +kernel
  refine ⟨coupled, S, hbuild, ⟨s, ?_⟩, fun h => ?_⟩
  · simp only [hview] at hreturns
    exact hreturns
  · have hsame := (hview 0).symm.trans ((hcurrent.2 h 0 1).trans (hview 1))
    exact absurd hsame (by decide +kernel)

/-- A system of two coupled degrees of freedom, both of whose residuals are their sum. -/
def sums : Description Rat where
  residual? := some fun n y => .ok (.replicate n (y.toList.foldl (· + ·) 0))
  hessian? := none
  pattern? := some (.banded 2 1)
  solution? := none
  dual? := none

/-- What a rank writes to its copy of an entry that another rank owns does not reach that rank: the
two ranks of a group, which hold both of the two entries, hand different states to the residual. -/
theorem ghost_write_divides_views :
    let writes : Fin 2 → List (Nat × Rat) := fun r => if r = 0 then [(1, 5)] else []
    ∃ S : (r : Fin 2) → ClosureSystem Rat (Partition.mirrored r),
      (∀ r, sums.build (.member r.val 2 r.isLt) =
        .ok ⟨2, Partition.mirrored r, S r, .initial (Partition.mirrored r) #v[0, 0] #v[0, 0]⟩) ∧
      (∀ r, ∀ i < 2, i ∈ (Partition.mirrored r).relevant) ∧
      ∃ (handed : Fin 2 → List (Vector Rat 2))
        (s : (r : Fin 2) → ClosureState Rat (Partition.mirrored r)),
        Group.Returns
          (fun r => ((S r).watched.performAll
            ((writes r).map (fun e => .write e.1 e.2) ++ [.assemble .residualOnly])).run
              ([], .initial (Partition.mirrored r) #v[0, 0] #v[0, 0]))
          (fun r => (.ok ((writes r).map (fun _ => .ok none) ++ [.ok none]), (handed r, s r))) ∧
        handed 0 = [#v[0, 5]] ∧ handed 1 = [#v[0, 0]] := by
  intro writes
  let system (r : Fin 2) : ClosureSystem Rat (Partition.mirrored r) :=
    ⟨.member r.val 2 r.isLt, (Pattern.banded 2 1).restrict (Partition.mirrored r).owns,
      fun n y => .ok (.replicate n (y.toList.foldl (· + ·) 0)), none⟩
  have hbuild : ∀ r : Fin 2, sums.build (.member r.val 2 r.isLt) =
      .ok ⟨2, Partition.mirrored r, system r,
        .initial (Partition.mirrored r) #v[0, 0] #v[0, 0]⟩ := by
    intro r
    match r with
    | 0 => rfl
    | 1 => rfl
  have hview : view (written Partition.mirrored #v[0, 0] writes) =
      fun r => if r = 0 then #v[0, 5] else #v[0, 0] := by
    funext r
    revert r
    decide +kernel
  obtain ⟨_, ⟨_, s, ⟨rfl, hs⟩, rfl⟩, hreturns⟩ :=
    (Group.proceeds_assembleWritten (R := .closed 2) (S := system) Partition.divide_mirrored
      (fun _ => rfl) (fun _ => rfl) #v[0, 0] #v[0, 0] writes .residualOnly hview nofun).returns
  exact ⟨system, hbuild, by decide, fun r => (s r).1, fun r => (s r).2, hreturns, hs 0, hs 1⟩

end Description

end DualHessian
