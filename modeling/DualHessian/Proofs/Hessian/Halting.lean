import DualHessian.Proofs.Hessian.Lockstep
import DualHessian.Proofs.Numbers.Exact

/-!
# The ranks agree on a failure

A sample may fail on some ranks and succeed on the others. No rank leaves the assembly for that
before all of them have taken every sample of the pair and have heard that one has failed; then all
stop at the same pair.

* `Assembler.assemble_agrees` says where the ranks stop, what they have called until then, and what
  each of them reports.
-/

namespace DualHessian

namespace Assembler

variable {α : Type} [Arithmetic α] [Magnitude α] {n size : Nat} {σ : Fin size → Type}

/-- Agreement on failures. The services complete every sample together, but it may fail on any ranks
and succeed on the others; `S` is what else is known of their replies. Then all ranks get a matrix,
after every sample has succeeded on all of them, or all stop at the same pair `(i, j)`: the first
one row by row that belongs to the pattern of some rank and of which a sample has failed on some
rank.

Until then every rank has issued the same calls, those of all pairs up to this one, also if its own
samples have failed. A rank reports the first failure that it has got for the pair itself, and
otherwise that another rank has failed. -/
theorem assemble_agrees (service : (r : Fin size) → Sampler (σ r) α .closed)
    (record : (r : Fin size) → Progress α → Stateful (σ r) α .closed Unit)
    (inv : ((r : Fin size) → σ r) → Prop)
    (S : List (Perturbation α) → (Fin size → Except Failure α) → Prop)
    (hsample : ∀ perturbations states, inv states →
      Group.Attains (.closed size)
        (fun out => ∃ replies s, S perturbations replies ∧ inv s ∧
          out = fun r => ((replies r).mapError Stop.failed, s r))
        fun r => (service r perturbations).run (states r))
    (hrecord : ∀ r progress states, inv states →
      ∃ s, inv (Function.update states r s) ∧
        (record r progress).run (states r) = .done (.ok (), s))
    (step : Step α) (tolerance : Fin size → α) (c : Fin size → Place) (p : Fin size → Partition n)
    (pattern : Fin size → Occupancy)
    (hshape : ∀ r, (pattern r).rows = n ∧ (pattern r).columns = n)
    (states : (r : Fin size) → σ r) (hstates : inv states) :
    ∃ (es : Fin size → List (Exchange (Sampling α)))
      (out : (r : Fin size) → Except Stop (RowMatrix α (p r))) (s : (r : Fin size) → σ r),
      Group.Returns
        (fun r => ((service r).runProgram (record r)
          (((Assembler.mk step (tolerance r)).assemble (c r) (p r) (pattern r)).run.traced
            Sampling.isSample)).run (states r))
        (fun r => (.ok (es r, out r), s r)) ∧
      ((∃ (M : GroupMatrix α p) (found : List (Fin n × Fin n × List (Fin size → α)))
          (es' : Fin size → List (Exchange (Sampling α))) (t : Fin size → Tally α n),
          out = (fun r => .ok (M r)) ∧
          Visited S step.size tolerance (anyHolds pattern) (upperPairs n) found es' t ∧
            es = fun r => es' r ++ [.gather .entries]) ∨
        ∃ before i j after found replies stops, out = (fun r => .error (stops r)) ∧
          upperPairs n = before ++ (i, j) :: after ∧
            Halted S step.size (anyHolds pattern) before i j found replies es stops) := by
  have hassemble := decides_assemble (S := S) step tolerance c p pattern hshape
  -- The exchanges are recorded first, then the service answers them out of its states.
  have hserved := Group.Attains.serve hassemble (answers_of_outcomes hsample hrecord) hstates
  obtain ⟨_, ⟨b, s, ⟨hb, _⟩, rfl⟩, hreturns⟩ := hserved.returns
  refine ⟨fun r => (b r).1, fun r => (b r).2, s, hreturns, ?_⟩
  rcases hb with ⟨M, ⟨found, es, t, ht, hes, _⟩, hout⟩ | ⟨stops, hhalted, hout⟩
  · exact .inl ⟨M, found, es, t, hout, ht, hes⟩
  · obtain ⟨before, i, j, found, replies, ⟨after, hafter⟩, hhalted⟩ := hhalted
    refine .inr ⟨before, i, j, after, found, replies, stops, hout, ?_, hhalted⟩
    rw [← hafter, List.append_assoc]
    rfl

/-- Two ranks, of which the first has the pair of both indices in its pattern. The second sample of
the pair fails on the second rank, which takes the other samples nevertheless and reports its
failure; the first rank reports that another one has failed. -/
theorem assemble_agrees_two_ranks :
    let failing : List (Perturbation Rat) := [⟨0, -2⟩, ⟨1, -1⟩]
    let service : Fin 2 → Sampler Nat Rat .closed := fun r perturbations =>
      ExceptT.mk fun count =>
        pure (if r = 1 ∧ perturbations = failing then .error (.failed (.of .noJacobian)) else .ok 0,
          count + 1)
    let pattern : Fin 2 → Occupancy := fun r => ⟨2, 2, fun i j => r == 0 && i == 0 && j == 1⟩
    ∃ (es : Fin 2 → List (Exchange (Sampling Rat)))
      (out : (r : Fin 2) → Except Stop (RowMatrix Rat (Partition.mirrored r))) (s : Fin 2 → Nat),
      Group.Returns
        (fun r => ((service r).runProgram (fun _ => pure ())
          (((Assembler.mk ⟨1, rfl⟩ 0).assemble (.member r.val 2 r.isLt) (Partition.mirrored r)
            (pattern r)).run.traced Sampling.isSample)).run 0)
        (fun r => (.ok (es r, out r), s r)) ∧
      (∀ r, (samplesIn (es r)).length = 25) ∧
      out 0 = .error (.failed (.of (.entryElsewhere 0 1))) ∧
      out 1 = .error (.failed ((Failure.of .noJacobian).wrap (.entry 0 1))) := by
  intro failing service pattern
  let reply (perturbations : List (Perturbation Rat)) (r : Fin 2) : Except Failure Rat :=
    if r = 1 ∧ perturbations = failing then .error (.of .noJacobian) else .ok 0
  have hserved : ∀ perturbations (states : Fin 2 → Nat) r,
      (service r perturbations).run (states r) =
        .done ((reply perturbations r).mapError Stop.failed, states r + 1) := by
    intro perturbations states r
    show Program.done (if r = 1 ∧ perturbations = failing then _ else _, _) = _
    simp only [reply]
    split <;> rfl
  obtain ⟨es, out, s, hreturns, hout⟩ := assemble_agrees service (fun _ _ => pure ())
    (fun _ => True) (fun perturbations replies => replies = reply perturbations)
    (fun perturbations states _ => .of_eq_done (hserved perturbations states)
      ⟨_, fun r => states r + 1, rfl, trivial, rfl⟩)
    (fun _ _ states _ => ⟨_, trivial, rfl⟩) ⟨1, rfl⟩ (fun _ => 0) (fun r => .member r.val 2 r.isLt)
    Partition.mirrored pattern (fun _ => ⟨rfl, rfl⟩) (fun _ => 0) trivial
  refine ⟨es, out, s, hreturns, ?_⟩
  have hpresent : (upperPairs 2).filter (fun e => anyHolds pattern e.1 e.2) = [(0, 1)] := by decide
  rcases hout with ⟨_, found, _, _, _, hvisited, _⟩ |
    ⟨before, i, j, after, found, replies, stops, rfl, hpairs, hhalted⟩
  · -- The second sample of the only pair has not succeeded.
    obtain ⟨⟨i, j, values⟩, rfl, hpair⟩ :=
      List.map_eq_singleton_iff.1 (hvisited.pairs_eq.trans hpresent)
    obtain ⟨rfl, rfl⟩ := Prod.mk.inj hpair
    obtain ⟨⟩ | ⟨_, ⟨⟩ | ⟨hsecond, _⟩⟩ := hvisited.admitted _ (List.mem_singleton.2 rfl)
    have hfails : reply (gridPerturbations 1 0 1 (-2, -1)) 1 = .error (.of .noJacobian) :=
      if_pos ⟨rfl, by decide +kernel⟩
    cases (congrFun hsecond 1).trans hfails
  · -- No other pair is present.
    rw [hpairs, List.filter_append, List.filter_cons_of_pos (a := (i, j)) hhalted.present_eq,
      List.append_eq_singleton_iff] at hpresent
    obtain ⟨hnone, hpair⟩ | ⟨_, ⟨⟩⟩ := hpresent
    obtain ⟨rfl, rfl⟩ := Prod.mk.inj (List.cons.inj hpair).1
    obtain rfl := List.map_eq_nil_iff.1 (hhalted.pairs_eq.trans hnone)
    -- The replies are those of the service, one for each point of the grid.
    have hreplies : grid.map (fun d => reply (gridPerturbations 1 0 1 d)) = replies := by
      rw [← List.forall₂_eq_eq_eq, List.forall₂_map_left_iff]
      exact hhalted.admitted.imp fun d x hx => hx.symm
    subst hreplies
    refine ⟨fun r => ?_, ?_, ?_⟩
    · rw [hhalted.samples_eq r]
      rfl
    · exact congrArg Except.error (hhalted.stops_eq 0)
    · refine congrArg Except.error ((hhalted.stops_eq 1).trans (congrArg Stop.failed ?_))
      simp only [reply, failing]
      decide +kernel

end Assembler

end DualHessian
