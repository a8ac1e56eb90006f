import DualHessian.Proofs.Numbers.Exact
import DualHessian.Proofs.Rank.Endings
import DualHessian.Proofs.Verify.Outcome

/-!
# The solution survives

Samples are taken at solutions that are perturbed in place. However a computation that takes samples
ends, with a result or early, the solution is what it was before, in every entry.

* `Discretization.Lawful` says that solution and dual are parts of the state that can be replaced
  independently of each other.
* `Discretization.keeps_withPerturbation` is the argument: whatever happens at a perturbed solution,
  the saved entries bring the former one back.
* `Discretization.ends_verify` takes this through a whole verification, and
  `Group.solution_survives` says it of all ranks of a group.
-/

namespace DualHessian

namespace Discretization

open Stateful

variable {σ α β ω : Type} {P : Interface} {n : Nat} {p : Partition n}

/-- Solution and dual are read as they were last replaced. -/
structure Lawful (D : Discretization σ α P p) : Prop where
  /-- The solution is the one set last. -/
  solution_setSolution : ∀ v s, D.solution (D.setSolution v s) = v
  /-- It does not depend on the dual. -/
  solution_setDual : ∀ v s, D.solution (D.setDual v s) = D.solution s
  /-- The dual is the one set last. -/
  dual_setDual : ∀ v s, D.dual (D.setDual v s) = v
  /-- It does not depend on the solution. -/
  dual_setSolution : ∀ v s, D.dual (D.setSolution v s) = D.dual s

/-- No assembly leaves another solution than it has found. -/
def KeepsSolution (D : Discretization σ α P p) : Prop :=
  ∀ request, Keeps D.solution (D.assemble request)

/-- No assembly leaves another dual than it has found. -/
def KeepsDual (D : Discretization σ α P p) : Prop := ∀ request, Keeps D.dual (D.assemble request)

/-- What is observed of a state: the solution, and something that does not depend on it. -/
structure Observation (D : Discretization σ α P p) (rest : σ → ω) : Prop where
  /-- What is set as the solution does not show in the rest. -/
  rest_setSolution : ∀ v s, rest (D.setSolution v s) = rest s
  /-- Assemblies keep both. -/
  assemble : ∀ request, Keeps (fun s => (D.solution s, rest s)) (D.assemble request)

/-! ## Perturbing -/

/-- A computation that keeps the solution it finds is one that keeps the unperturbed solution. -/
theorem keeps_withPerturbation [Add α] {D : Discretization σ α P p} (hD : D.Lawful) {rest : σ → ω}
    (hrest : ∀ v s, rest (D.setSolution v s) = rest s) {action : Stateful σ α P β}
    (h : Keeps (fun s => (D.solution s, rest s)) action) (perturbations : List (Perturbation α)) :
    Keeps (fun s => (D.solution s, rest s)) (D.withPerturbation perturbations action) := by
  intro s
  refine (h (D.changeSolution (·.perturb perturbations) s)).bind ?_
  rintro ⟨result, s'⟩ hs
  obtain ⟨hsolution, hsame⟩ := Prod.mk.inj hs
  -- The saved entries are set, whatever the result is.
  refine Prod.ext ?_ ?_
  · show D.solution (D.setSolution _ s') = _
    rw [hD.solution_setSolution, hsolution, changeSolution, hD.solution_setSolution]
    exact LocalVector.setAll_perturb (D.solution s) perturbations
  · show rest (D.setSolution _ s') = _
    rw [hrest, hsame, changeSolution, hrest]

/-! ## Sampling -/

section Sampling

variable {observe : σ → ω}

/-- An action that catches its failures keeps what it kept before. -/
theorem keeps_outcome {action : Stateful σ α P β} (h : Keeps observe action) :
    Keeps observe (Sampler.outcome action) := by
  intro s
  refine (h s).bind ?_
  rintro ⟨(_ | _) | _, s'⟩ hs
  all_goals exact hs

/-- A service keeps what its samples keep. -/
theorem keeps_runProgram {sample : Sampler σ α P} {record : Progress α → Stateful σ α P Unit}
    (hsample : ∀ perturbations, Keeps observe (sample perturbations))
    (hrecord : ∀ progress, Keeps observe (record progress)) (program : Program α (Sampling α) β) :
    Keeps observe (sample.runProgram record program) := by
  refine Program.keeps_serve (fun q => ?_) program
  cases q with
  | note progress => exact hrecord progress
  | sample perturbations => exact keeps_outcome (hsample perturbations)

/-- So does one that adds a cause to its failures. -/
theorem keeps_within {action : Stateful σ α P β} (h : Keeps observe action) (cause : Cause) :
    Keeps observe (within cause action) := by
  intro s
  refine (h s).bind ?_
  rintro ⟨(_ | _) | _, s'⟩ hs
  all_goals exact hs

variable [Arithmetic α] {D : Discretization σ α P p} {rest : σ → ω}

/-- A sample restores the solution, and keeps what assemblies and writes to the solution keep. -/
theorem keeps_sample (hD : D.Lawful) (h : D.Observation rest)
    (perturbations : List (Perturbation α)) :
    Keeps (fun s => (D.solution s, rest s)) (D.sample perturbations) := by
  refine keeps_withPerturbation hD h.rest_setSolution ?_ perturbations
  refine (h.assemble _).bind fun _ => ?_
  exact Keeps.get.bind fun s => .lift _

end Sampling

/-! ## Verifying -/

variable [Arithmetic α] {D : Discretization σ α (Console α) p} {rest : σ → ω}

/-- So does every program that samples. -/
theorem keeps_runProgram_sample (hD : D.Lawful) (h : D.Observation rest)
    (program : Program α (Sampling α) β) :
    Keeps (fun s => (D.solution s, rest s)) (D.sample.runProgram recordProgress program) :=
  keeps_runProgram (keeps_sample hD h) (fun _ => .lift _) program

/-- So does the assembly of the difference matrix. -/
theorem keeps_differenceMatrix [Magnitude α] (hD : D.Lawful) (h : D.Observation rest)
    (a : Assembler α) (pattern : Occupancy) :
    Keeps (fun s => (D.solution s, rest s)) (D.differenceMatrix a pattern) := by
  refine (keeps_runProgram_sample hD h _).bind fun result => ?_
  cases result with
  | ok matrix => exact .pure matrix
  | error stop => exact .throw stop

omit [Arithmetic α] in
/-- Telling the root changes no state. -/
theorem ends_tellOnRoot (D : Discretization σ α (Console α) p) (event : Event α) (s : σ) :
    ((liftM (D.tellOnRoot event) : Stateful σ α (Console α) Unit).run s).Ends
      fun out => out = (.ok (), s) := by
  unfold tellOnRoot
  split
  · exact fun _ => rfl
  · rfl

/-- The state in which a verification starts its assemblies. -/
def prepared (D : Discretization σ α (Console α) p) (choice : DualChoice) (s : σ) : σ :=
  match choice with
  | .unit => D.setDual ((D.dual s).fill 1) s
  | .keep => s

/-- Preparing the dual leaves the solution as it is. -/
theorem solution_prepared (hD : D.Lawful) (choice : DualChoice) (s : σ) :
    D.solution (D.prepared choice s) = D.solution s := by
  cases choice with
  | unit => exact hD.solution_setDual _ s
  | keep => rfl

/-- A unit dual is one in every relevant entry. -/
theorem get?_dual_prepared_unit (hD : D.Lawful) (s : σ) {i : Nat} (hi : i ∈ p.relevant) :
    (D.dual (D.prepared .unit s)).get? i = some 1 := by
  obtain ⟨x, hx⟩ := Option.isSome_iff_exists.1
    (LocalVector.isSome_get?_iff.2 hi : ((D.dual s).get? i).isSome = true)
  rw [prepared, hD.dual_setDual, LocalVector.fill, LocalVector.get?_mapEntries, hx]
  rfl

/-- Initializing the dual only prepares the state. -/
theorem run_initializeDual (choice : DualChoice) (s : σ) :
    (D.initializeDual choice).run s = .done (.ok (), D.prepared choice s) := by
  cases choice with
  | unit => rfl
  | keep => rfl

/-- After the dual has been replaced, or not, nothing changes what is observed any more. -/
private theorem ends_of_prepared {next : Stateful σ α (Console α) β} {choice : DualChoice}
    (h : Keeps (fun s => (D.solution s, rest s)) next) (s : σ) :
    ((D.initializeDual choice >>= fun _ => next).run s).Ends fun out =>
      (D.solution out.2, rest out.2) =
        (D.solution (D.prepared choice s), rest (D.prepared choice s)) := by
  have hprepared : ((D.initializeDual choice).run s).Ends
      fun out => out = (.ok (), D.prepared choice s) := by
    rw [run_initializeDual]
    rfl
  refine ends_bind hprepared (fun _ s' hs => ?_) fun stop s' hs => nomatch hs
  obtain rfl := (Prod.mk.inj hs).2
  exact h _

variable [Magnitude α]

/-- Both matrices are assembled without changing the solution. -/
theorem ends_bothMatrices (hD : D.Lawful) (h : D.Observation rest) (settings : Settings α) (s : σ) :
    ((D.bothMatrices settings).run s).Ends fun out =>
      (D.solution out.2, rest out.2) =
        (D.solution (D.prepared settings.dual s), rest (D.prepared settings.dual s)) := by
  have hreference : Keeps (fun s => (D.solution s, rest s)) D.assembleReference :=
    keeps_within (h.assemble _) .reference
  refine ends_of_prepared (hreference.bind fun _ => ?_) s
  -- The step is checked before any sample is taken.
  split
  · exact .throw _
  · refine (keeps_within (keeps_differenceMatrix hD h _ _) .differences).bind fun _ => ?_
    refine hreference.bind fun _ => Keeps.get.bind fun s => ?_
    split
    · exact .pure _
    · exact .throw _

variable [SquareRoot α]

/-- However a verification ends, the state shows what it showed when the dual had been replaced. -/
theorem ends_verify (hD : D.Lawful) (h : D.Observation rest) (settings : Settings α) (s : σ) :
    ((D.verify settings).run s).Ends fun out =>
      (D.solution out.2, rest out.2) =
        (D.solution (D.prepared settings.dual s), rest (D.prepared settings.dual s)) := by
  refine ends_bind (ends_tellOnRoot D _ s) (fun _ s' hs => ?_) fun stop s' hs => nomatch hs
  obtain rfl := (Prod.mk.inj hs).2
  refine ends_bind (ends_bothMatrices hD h settings _) (fun matrices s' hs => ?_)
    fun stop s' hs => hs
  have hjudge : Keeps (fun s => (D.solution s, rest s))
      (liftM (D.judge settings matrices.1 matrices.2) : Stateful σ α (Console α) (Report α)) :=
    .lift _
  exact (hjudge s').mono fun out hout => hout.trans hs

omit [Arithmetic α] [Magnitude α] [SquareRoot α] in
/-- A system that keeps the solution can be observed at it. -/
theorem KeepsSolution.observation (hkeeps : D.KeepsSolution) : D.Observation fun _ => () where
  rest_setSolution _ _ := rfl
  assemble request s := (hkeeps request s).mono fun _ h => Prod.ext h rfl

omit [Arithmetic α] [Magnitude α] [SquareRoot α] in
/-- One that keeps the dual as well can be observed at both. -/
theorem KeepsSolution.observation_dual (hD : D.Lawful) (hkeeps : D.KeepsSolution)
    (hdual : D.KeepsDual) : D.Observation D.dual where
  rest_setSolution := hD.dual_setSolution
  assemble request s :=
    ((hkeeps request s).and (hdual request s)).mono fun _ h => Prod.ext h.1 h.2

end Discretization

/-! ## Systems given by closures -/

section Closures

open Stateful

variable {α ω : Type} [Arithmetic α] {P : Interface} {n : Nat} {p : Partition n}

namespace ClosureSystem

omit [Arithmetic α] in
/-- A check changes no state. -/
theorem keeps_check {β σ : Type} {observe : σ → ω} (e : Except Violation β) :
    Keeps observe (check e : Stateful σ α P β) := by
  cases e with
  | ok b => exact .pure b
  | error v => exact .throw _

/-- Gathering the global state changes no state. -/
theorem keeps_globalState {observe : ClosureState α p → ω} :
    Keeps observe (globalState : Stateful (ClosureState α p) α P (Vector α n)) :=
  Keeps.get.bind fun _ => (Keeps.lift _).bind fun _ => .pure _

/-- An assembly counts itself and replaces the right-hand side and the Hessian. -/
theorem keeps_assemble (S : ClosureSystem α p) {observe : ClosureState α p → ω}
    (hcount : ∀ (s : ClosureState α p) k, observe { s with assemblies := k } = observe s)
    (hright : ∀ (s : ClosureState α p) v, observe { s with rightHandSide := v } = observe s)
    (hhessian : ∀ (s : ClosureState α p) A, observe { s with hessian? := A } = observe s)
    (request : Derivatives) :
    Keeps observe (S.assemble request : Stateful (ClosureState α p) α P Unit) := by
  have hassembleHessian : ∀ state,
      Keeps observe (S.assembleHessian state : Stateful (ClosureState α p) α P Unit) := by
    intro state
    unfold assembleHessian
    split
    · exact .throw _
    · refine Keeps.get.bind fun _ => (Keeps.lift _).bind fun _ => (keeps_check _).bind fun H => ?_
      split
      · exact .modify fun s => hhessian s _
      · exact .throw _
  unfold assemble
  split
  · exact .throw _
  · refine (Keeps.modify fun s => hcount s _).bind fun _ => ?_
    refine keeps_globalState.bind fun state => (keeps_check _).bind fun _ => ?_
    refine (Keeps.modify fun s => hright s _).bind fun _ => ?_
    split
    · exact hassembleHessian state
    · exact .pure ()

/-- Faults leave the laws of states as they are. -/
theorem lawful_faulty (S : ClosureSystem α p) (faults : Faults) :
    (S.faulty faults : Discretization _ α P p).Lawful := by
  unfold faulty
  split
  all_goals exact ⟨fun _ _ => rfl, fun _ _ => rfl, fun _ _ => rfl, fun _ _ => rfl⟩

/-- Assemblies keep solution and dual, also those that fail on purpose. -/
theorem keeps_faulty (S : ClosureSystem α p) (faults : Faults) :
    (S.faulty faults : Discretization _ α P p).KeepsSolution ∧
      (S.faulty faults : Discretization _ α P p).KeepsDual := by
  have hfailing : ∀ observe : ClosureState α p → LocalVector α p,
      (∀ request, Keeps observe (S.assemble request : Stateful (ClosureState α p) α P Unit)) →
      ∀ request, Keeps (fun s => observe s.2)
        ((S.discretization.failingAt faults.calls : Discretization _ α P p).assemble request) := by
    intro observe h request s
    refine (h request s.2).bind ?_
    rintro ⟨result, s'⟩ hs
    -- An assembly that fails on purpose has done its work before.
    cases result with
    | ok _ =>
      simp only
      split
      · exact hs
      · exact hs
    | error stop => exact hs
  have hsolution := hfailing ClosureState.solution
    (S.keeps_assemble (fun _ _ => rfl) (fun _ _ => rfl) fun _ _ => rfl)
  have hdual := hfailing ClosureState.dual
    (S.keeps_assemble (fun _ _ => rfl) (fun _ _ => rfl) fun _ _ => rfl)
  unfold faulty
  split
  · exact ⟨hsolution, hdual⟩
  · exact ⟨hsolution, hdual⟩

end ClosureSystem

end Closures

/-! ## Groups -/

namespace Group

open ClosureState Discretization

variable {α : Type} [Arithmetic α] [Magnitude α] [SquareRoot α] {n size : Nat}
  {p : Fin size → Partition n} {σ τ : Fin size → Type}

/-- Whatever the ranks return, every rank has the solution that it had before. -/
def Restores (D : (r : Fin size) → Discretization (σ r) α (Console α) (p r))
    (states : (r : Fin size) → σ r)
    (answer : (r : Fin size) → (q : (Console α).Request) → StateM (τ r) ((Console α).Reply q))
    (surroundings : (r : Fin size) → τ r) {β : Fin size → Type}
    (actions : (r : Fin size) → Stateful (σ r) α (Console α) (β r)) : Prop :=
  ∀ results,
    Returns (fun r => ((actions r).run (states r)).settle (answer r) (surroundings r)) results →
      ∀ r, (D r).solution (results r).1.2 = (D r).solution (states r)

variable {D : (r : Fin size) → Discretization (σ r) α (Console α) (p r)}
  {states : (r : Fin size) → σ r}
  {answer : (r : Fin size) → (q : (Console α).Request) → StateM (τ r) ((Console α).Reply q)}
  {surroundings : (r : Fin size) → τ r}

omit [Arithmetic α] [Magnitude α] [SquareRoot α] in
/-- Actions that keep the solution restore it on all ranks. -/
theorem restores_of_keeps {β : Fin size → Type}
    {actions : (r : Fin size) → Stateful (σ r) α (Console α) (β r)}
    (h : ∀ r, Stateful.Keeps (fun s => ((D r).solution s, ())) (actions r)) :
    Restores D states answer surroundings actions := by
  intro results hreturns
  have hends : ∀ r, (((actions r).run (states r)).settle (answer r) (surroundings r)).Ends
      fun out => (D r).solution out.1.2 = (D r).solution (states r) := fun r =>
    ((h r (states r)).settle (surroundings r)).mono fun out hout => (Prod.mk.inj hout).1
  exact hreturns.holds hends

/-- All ranks have stopped for the same reason. -/
def Stopped {β σ : Fin size → Type} (stop : Stop) (out : (r : Fin size) → Except Stop (β r) × σ r) :
    Prop :=
  ∀ r, (out r).1 = .error stop

omit [Magnitude α] [SquareRoot α] in
/-- If the assembly at the perturbed solution fails on all ranks, a sample ends with its failure. -/
theorem attains_sample_failing {R : Replies (Console α) size}
    (perturbations : List (Perturbation α)) {stop : Stop}
    (h : Attains R (Stopped stop) fun r => ((D r).assemble .residualOnly).run
      ((D r).changeSolution (·.perturb perturbations) (states r))) :
    Attains R (Stopped stop) fun r => ((D r).sample perturbations).run (states r) := by
  -- The ranks do not come to multiply the residual with the dual.
  have hinside : Attains R (Stopped stop) fun r => (do
      (D r).assemble .residualOnly
      let s ← get
      (((D r).rightHandSide s).dot ((D r).dual s) : Task α (Console α) α) :
        Stateful (σ r) α (Console α) α).run
          ((D r).changeSolution (·.perturb perturbations) (states r)) := by
    refine h.bind
      (fun r out => ExceptT.bindCont (m := StateT (σ r) (Program α (Console α))) _ out.1 out.2)
      fun out hout => ?_
    refine .of_eq_done (b := fun r => (.error stop, (out r).2)) (fun r => ?_) fun r => rfl
    rw [hout r]
    rfl
  exact hinside.map _ fun out hout => hout

/-- The solution survives. While offsets are added, every relevant entry holds its former value with
its offsets added in their order, and taking the offsets away brings the former solution back if it
has not been replaced meanwhile. After a sample, an evaluation, an assembly and a verification,
however they end, every rank has the solution that it had before; after a verification its dual is
the former one or all ones, as chosen, if assemblies do not replace it either. -/
theorem solution_survives (hlawful : ∀ r, (D r).Lawful) (hkeeps : ∀ r, (D r).KeepsSolution) :
    (∀ r (perturbations : List (Perturbation α)), ∃ (perturbed : σ r) (restore : σ r → σ r),
      (∀ i, ((D r).solution perturbed).get? i = (((D r).solution (states r)).get? i).map
        fun x => (offsetsAt perturbations i).foldl (· + ·) x) ∧
      (∀ s, (D r).solution s = (D r).solution perturbed →
        (D r).solution (restore s) = (D r).solution (states r)) ∧
      ∀ {β : Type} (action : Stateful (σ r) α (Console α) β),
        ((D r).withPerturbation perturbations action).run (states r) =
          action.run perturbed >>= fun out => .done (out.1, restore out.2)) ∧
    (∀ perturbations : List (Perturbation α),
      Restores D states answer surroundings fun r => (D r).sample perturbations) ∧
    (∀ (step : Step α) (i j : Nat), Restores D states answer surroundings fun r =>
      (D r).sample.runProgram recordProgress (evaluate step.size i j)) ∧
    (∀ (a : Assembler α) (pattern : Fin size → Occupancy),
      Restores D states answer surroundings fun r => (D r).differenceMatrix a (pattern r)) ∧
    ∀ settings : Settings α,
      (Restores D states answer surroundings fun r => (D r).verify settings) ∧
      ∀ results,
        Returns (fun r => (((D r).verify settings).run (states r)).settle (answer r)
          (surroundings r)) results →
        ∀ r, (D r).KeepsDual → match settings.dual with
          | .keep => (D r).dual (results r).1.2 = (D r).dual (states r)
          | .unit => ∀ i ∈ (p r).relevant, ((D r).dual (results r).1.2).get? i = some 1 := by
  -- Everything but the perturbation itself follows from what each action keeps.
  have hobserve := fun r => (hkeeps r).observation
  refine ⟨fun r perturbations => ?_, fun perturbations => ?_, fun step i j => ?_,
    fun a pattern => ?_, fun settings => ⟨?_, ?_⟩⟩
  -- The saved entries are restored in reverse order, so an entry saved twice gets its first value.
  · refine ⟨(D r).changeSolution (·.perturb perturbations) (states r), (D r).changeSolution
      (·.setAll (((D r).solution (states r)).perturbedEntries perturbations).reverse), fun i => ?_,
      fun s hs => ?_, fun action => rfl⟩
    · rw [changeSolution, (hlawful r).solution_setSolution, LocalVector.get?_perturb]
    · rw [changeSolution, (hlawful r).solution_setSolution] at hs
      rw [changeSolution, (hlawful r).solution_setSolution, hs, LocalVector.setAll_perturb]
  · exact restores_of_keeps fun r => keeps_sample (hlawful r) (hobserve r) perturbations
  · exact restores_of_keeps fun r => keeps_runProgram_sample (hlawful r) (hobserve r) _
  · exact restores_of_keeps fun r => keeps_differenceMatrix (hlawful r) (hobserve r) a (pattern r)
  · intro results hreturns
    have hends : ∀ r, ((((D r).verify settings).run (states r)).settle (answer r)
        (surroundings r)).Ends fun out => (D r).solution out.1.2 = (D r).solution (states r) := by
      intro r
      refine ((ends_verify (hlawful r) (hobserve r) settings _).settle _).mono fun out hout => ?_
      exact (Prod.mk.inj hout).1.trans (solution_prepared (hlawful r) settings.dual (states r))
    exact hreturns.holds hends
  · intro results hreturns
    -- The dual is a second observation, kept on those ranks whose assembly does not write it.
    have hends : ∀ r, ((((D r).verify settings).run (states r)).settle (answer r)
        (surroundings r)).Ends fun out => (D r).KeepsDual →
          (D r).dual out.1.2 = (D r).dual ((D r).prepared settings.dual (states r)) := by
      intro r
      by_cases hdual : (D r).KeepsDual
      · have hboth := (hkeeps r).observation_dual (hlawful r) hdual
        refine ((ends_verify (hlawful r) hboth settings _).settle _).mono fun out hout _ => ?_
        exact (Prod.mk.inj hout).2
      · exact Program.Ends.trivial.mono fun out _ h => absurd h hdual
    intro r hdual
    have hresult := hreturns.holds hends r hdual
    cases hchoice : settings.dual with
    | keep => exact hresult.trans (by rw [hchoice, prepared])
    | unit =>
      intro i hi
      rw [hresult, hchoice]
      exact get?_dual_prepared_unit (hlawful r) (states r) hi

/-- Two ranks perturb one entry twice and an index that there is not, and all assemblies fail. -/
theorem solution_survives_failure :
    let system (r : Fin 2) : ClosureSystem Rat (Partition.mirrored r) :=
      ⟨.member r.val 2 r.isLt, .banded 2 1, fun _ y => .ok (.ofFn fun _ => y.toList.prod), none⟩
    let D (r : Fin 2) : Discretization _ Rat (Console Rat) (Partition.mirrored r) :=
      (system r).faulty ⟨[1], false⟩
    let states (r : Fin 2) : Nat × ClosureState Rat (Partition.mirrored r) :=
      (0, .initial (Partition.mirrored r) #v[4, 5] #v[1, 2])
    ∃ results, Returns
        (fun r => (((D r).sample [⟨0, 1⟩, ⟨0, 2⟩, ⟨5, 1⟩]).run (states r)).settle (acceptAll Rat)
          ())
        results ∧
      ∀ r, (results r).1.1 = .error (.failed (.of (.assembly 1))) ∧
        (D r).solution (results r).1.2 = .ofVector (Partition.mirrored r) #v[4, 5] := by
  intro system D states
  let perturbations : List (Perturbation Rat) := [⟨0, 1⟩, ⟨0, 2⟩, ⟨5, 1⟩]
  have hsurvives : ∀ perturbations, Restores D states (fun _ => acceptAll Rat) (fun _ => ())
      fun r => (D r).sample perturbations :=
    (solution_survives (fun r => (system r).lawful_faulty ⟨[1], false⟩)
      fun r => ((system r).keeps_faulty ⟨[1], false⟩).1).2.1
  have hshare := share_initial Partition.mirrored (#v[4, 5] : Vector Rat 2) #v[1, 2]
  have hassemble : Attains (.any (Console Rat) 2) (Stopped (.failed (.of (.assembly 1)))) fun r =>
      ((D r).assemble .residualOnly).run
        ((D r).changeSolution (·.perturb perturbations) (states r)) := by
    have hperturbed := hshare.perturb perturbations
    refine Attains.bind (proceeds_assembleResidual system Partition.divide_mirrored hperturbed
      fun _ => rfl) _ ?_
    rintro _ ⟨b, s, -, rfl⟩
    exact .done _ fun r => rfl
  obtain ⟨results, hstopped, hreturns⟩ := ((attains_sample_failing perturbations hassemble).settle
    (fun _ => acceptAll Rat) (fun _ => rfl) (fun _ _ _ => trivial) fun _ => ()).returns
  exact ⟨results, hreturns, fun r => ⟨hstopped r, hsurvives perturbations results hreturns r⟩⟩

/-- A system whose assembly clears the dual before it fails. -/
def clearingDual : Discretization (ClosureState Rat Partition.single) Rat (Console Rat)
    Partition.single where
  place := .alone
  pattern := .banded 1 0
  solution := ClosureState.solution
  setSolution v s := { s with solution := v }
  dual := ClosureState.dual
  setDual v s := { s with dual := v }
  rightHandSide := ClosureState.rightHandSide
  hessian? := ClosureState.hessian?
  assemble _ := do
    modify fun s => { s with dual := s.dual.fill 0 }
    throw (.failed (.of (.assembly 1)))

/-- The dual survives only assemblies that do not replace it: here the solution is kept, but the
dual is not what it was when the verification ends with the failure of its first assembly. -/
theorem dual_replaced_by_assembly :
    let settings : Settings Rat := ⟨1 / 10, 1 / 100, 0, 1, ".", 5, .keep⟩
    let state : ClosureState Rat Partition.single := .initial Partition.single #v[4] #v[1]
    clearingDual.Lawful ∧ clearingDual.KeepsSolution ∧
      ∃ results, Returns (fun _ : Fin 1 =>
          ((clearingDual.verify settings).run state).settle (acceptAll Rat) ()) results ∧
        (clearingDual.dual state).get? 0 = some 1 ∧
        (clearingDual.dual (results 0).1.2).get? 0 = some 0 := by
  intro settings state
  have hlawful : clearingDual.Lawful :=
    ⟨fun _ _ => rfl, fun _ _ => rfl, fun _ _ => rfl, fun _ _ => rfl⟩
  have hkeeps : clearingDual.KeepsSolution := fun _ _ => rfl
  exact ⟨hlawful, hkeeps, _, returns_done _, rfl, rfl⟩

end Group

end DualHessian
