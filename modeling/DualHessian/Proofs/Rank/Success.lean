import DualHessian.Proofs.Rank.Attainment

/-!
# What a group achieves without stopping early

The judgment of a group, for programs that may stop early and for those that also keep a state, when
no rank stops early.

* `Group.Achieves` is the judgment for tasks, `Group.Proceeds` the one for computations with a
  state. Each has a rule for sequencing, `Group.Achieves.bind` and `Group.Proceeds.bind`, which
  takes the first computation as a success and leaves open how the whole one ends.
* `Group.Concludes` is the judgment for computations that all ranks end in the same way, also if it
  is by stopping early.
* The collectives: what a group achieves by `gatherAll`, `sumOverRanks`, `maxOverRanks` and
  `sumComponents`.
-/

namespace DualHessian

namespace Group

variable {α : Type} {P : Interface} {size : Nat} {β γ σ : Fin size → Type} {R : Replies P size}

/-! ## Tasks -/

/-- No rank has stopped early, and the results are as in `post`. -/
def Succeeded (post : ((r : Fin size) → β r) → Prop)
    (out : (r : Fin size) → Except Stop (β r)) : Prop :=
  ∃ b, post b ∧ out = fun r => .ok (b r)

/-- No rank stops early, and the results are as in `post`. -/
def Achieves (R : Replies P size) (post : ((r : Fin size) → β r) → Prop)
    (tasks : (r : Fin size) → Task α P (β r)) : Prop :=
  Attains R (Succeeded post) fun r => (tasks r).run

namespace Achieves

variable {post : ((r : Fin size) → β r) → Prop} {tasks : (r : Fin size) → Task α P (β r)}

/-- Tasks that end at once. -/
theorem pure {b : (r : Fin size) → β r} (h : post b) :
    Achieves R post fun r => (Pure.pure (b r) : Task α P (β r)) :=
  .done _ ⟨b, h, rfl⟩

/-- Tasks that come down to ending at once. -/
theorem of_eq_pure {b : (r : Fin size) → β r} (heq : ∀ r, tasks r = Pure.pure (b r))
    (h : post b) : Achieves R post tasks := by
  obtain rfl : tasks = fun r => Pure.pure (b r) := funext heq
  exact pure h

/-- Tasks whose ranks do not meet each other. -/
theorem of_alone {b : (r : Fin size) → β r}
    (h : ∀ r, Program.Alone R r (fun out => out = .ok (b r)) (tasks r).run) :
    Achieves R (fun out => out = b) tasks := by
  refine (Attains.of_alone h).mono fun out hout => ?_
  exact ⟨b, rfl, funext hout⟩

/-- After a success the next tasks decide how all ends. -/
theorem bind {final : ((r : Fin size) → Except Stop (γ r)) → Prop} (h : Achieves R post tasks)
    (next : (r : Fin size) → β r → Task α P (γ r))
    (hnext : ∀ b, post b → Attains R final fun r => (next r (b r)).run) :
    Attains R final fun r => (tasks r >>= next r).run := by
  apply Attains.bind h (fun r => ExceptT.bindCont (next r))
  rintro _ ⟨b, hb, rfl⟩
  exact hnext b hb

/-- A success followed by a success. -/
theorem andThen {final : ((r : Fin size) → γ r) → Prop} (h : Achieves R post tasks)
    (next : (r : Fin size) → β r → Task α P (γ r))
    (hnext : ∀ b, post b → Achieves R final fun r => next r (b r)) :
    Achieves R final fun r => tasks r >>= next r :=
  h.bind next hnext

/-- Ranks that achieve these results return them. -/
theorem returns_ok {b : (r : Fin size) → β r} {tasks : (r : Fin size) → Task α .closed (β r)}
    (h : Achieves (.closed size) (fun out => out = b) tasks) :
    Returns (fun r => (tasks r).run) fun r => .ok (b r) := by
  obtain ⟨_, ⟨_, rfl, rfl⟩, hreturns⟩ := h.returns
  exact hreturns

end Achieves

/-! ## Computations with a state -/

/-- From the given states no rank stops early, and results and new states are as in `post`. -/
def Proceeds (R : Replies P size) (states : (r : Fin size) → σ r)
    (post : ((r : Fin size) → β r) → ((r : Fin size) → σ r) → Prop)
    (actions : (r : Fin size) → Stateful (σ r) α P (β r)) : Prop :=
  Attains R (fun out => ∃ b s, post b s ∧ out = fun r => (.ok (b r), s r)) fun r =>
    (actions r).run (states r)

namespace Proceeds

variable {post : ((r : Fin size) → β r) → ((r : Fin size) → σ r) → Prop}
  {states : (r : Fin size) → σ r} {actions : (r : Fin size) → Stateful (σ r) α P (β r)}

/-- Computations that end at once. -/
theorem pure {b : (r : Fin size) → β r} (h : post b states) :
    Proceeds R states post fun r => (Pure.pure (b r) : Stateful (σ r) α P (β r)) :=
  .done _ ⟨b, states, h, rfl⟩

/-- After a success the next computations decide how all ends. -/
theorem bind {final : ((r : Fin size) → Except Stop (γ r) × σ r) → Prop}
    (h : Proceeds R states post actions)
    (next : (r : Fin size) → β r → Stateful (σ r) α P (γ r))
    (hnext : ∀ b s, post b s → Attains R final fun r => (next r (b r)).run (s r)) :
    Attains R final fun r => (actions r >>= next r).run (states r) := by
  apply Attains.bind h (fun r p => ExceptT.bindCont (next r) p.1 p.2)
  rintro _ ⟨b, s, hb, rfl⟩
  exact hnext b s hb

/-- A success followed by a success. -/
theorem andThen {final : ((r : Fin size) → γ r) → ((r : Fin size) → σ r) → Prop}
    (h : Proceeds R states post actions)
    (next : (r : Fin size) → β r → Stateful (σ r) α P (γ r))
    (hnext : ∀ b s, post b s → Proceeds R s final fun r => next r (b r)) :
    Proceeds R states final fun r => actions r >>= next r :=
  h.bind next hnext

/-- A group proceeds to what follows from what it proceeds to. -/
theorem mono (h : Proceeds R states post actions)
    {wider : ((r : Fin size) → β r) → ((r : Fin size) → σ r) → Prop}
    (himp : ∀ b s, post b s → wider b s) : Proceeds R states wider actions := by
  apply Attains.mono h
  rintro _ ⟨b, s, hb, rfl⟩
  exact ⟨b, s, himp b s hb, rfl⟩

/-- A task that does not stop early leaves the state alone. -/
theorem lift {tasks : (r : Fin size) → Task α P (β r)} {done : ((r : Fin size) → β r) → Prop}
    (h : Achieves R done tasks) :
    Proceeds R states (fun b s => done b ∧ s = states) fun r =>
      (MonadLift.monadLift (tasks r) : Stateful (σ r) α P (β r)) := by
  apply Attains.bind h (fun r out => .done (out, states r))
  rintro _ ⟨b, hb, rfl⟩
  exact .done _ ⟨b, states, ⟨hb, rfl⟩, rfl⟩

/-- Reading the state. -/
theorem get : Proceeds R states (fun b s => b = states ∧ s = states) fun r =>
    (MonadState.get : Stateful (σ r) α P (σ r)) :=
  .done _ ⟨states, states, ⟨rfl, rfl⟩, rfl⟩

/-- Changing the state. -/
theorem modify (f : (r : Fin size) → σ r → σ r) :
    Proceeds R states (fun _ s => s = fun r => f r (states r)) fun r =>
      (modify (f r) : Stateful (σ r) α P PUnit) :=
  .done _ ⟨fun _ => PUnit.unit, _, rfl, rfl⟩

/-- How computations end, as their results. -/
theorem attempt {δ : Fin size → Type} {attempts : (r : Fin size) → Stateful (σ r) α P (δ r)}
    {ended : ((r : Fin size) → Except Stop (δ r)) → ((r : Fin size) → σ r) → Prop}
    (h : Attains R (fun out => ended (fun r => (out r).1) fun r => (out r).2) fun r =>
      (attempts r).run (states r)) :
    Proceeds R states ended fun r =>
      (ExceptT.lift (attempts r).run : Stateful (σ r) α P (Except Stop (δ r))) :=
  Attains.map h (fun _ out => (Except.ok out.1, out.2)) fun _ hout => ⟨_, _, hout, rfl⟩

end Proceeds

/-! ## Computations that end alike -/

/-- From the given states all ranks end in the same way, by a result or by stopping early, and this
and the new states are as in `post`. -/
def Concludes {δ : Type} (R : Replies P size) (states : (r : Fin size) → σ r)
    (post : Except Stop δ → ((r : Fin size) → σ r) → Prop)
    (actions : (r : Fin size) → Stateful (σ r) α P δ) : Prop :=
  Attains R (fun out => ∃ result s, post result s ∧ out = fun r => (result, s r)) fun r =>
    (actions r).run (states r)

namespace Concludes

variable {δ ε : Type} {post : Except Stop δ → ((r : Fin size) → σ r) → Prop}
  {states : (r : Fin size) → σ r} {actions : (r : Fin size) → Stateful (σ r) α P δ}

/-- Computations that end at once. -/
theorem pure {d : δ} (h : post (.ok d) states) :
    Concludes R states post fun r => (Pure.pure d : Stateful (σ r) α P δ) :=
  .done _ ⟨.ok d, states, h, rfl⟩

/-- Computations that all stop for the same reason. -/
theorem throw {stop : Stop} (h : post (.error stop) states) :
    Concludes R states post fun r => (MonadExcept.throw stop : Stateful (σ r) α P δ) :=
  .done _ ⟨.error stop, states, h, rfl⟩

/-- Computations that all have the same result. -/
theorem of_proceeds {done : (Fin size → δ) → ((r : Fin size) → σ r) → Prop}
    (h : Proceeds R states done actions)
    (himp : ∀ b s, done b s → ∃ d, b = (fun _ => d) ∧ post (.ok d) s) :
    Concludes R states post actions := by
  apply Attains.mono h
  rintro _ ⟨b, s, hb, rfl⟩
  obtain ⟨d, rfl, hd⟩ := himp b s hb
  exact ⟨.ok d, s, hd, rfl⟩

/-- After a result the next computations decide how all ends. -/
theorem bind {final : Except Stop ε → ((r : Fin size) → σ r) → Prop}
    (h : Concludes R states post actions) (next : (r : Fin size) → δ → Stateful (σ r) α P ε)
    (hok : ∀ d s, post (.ok d) s → Concludes R s final fun r => next r d)
    (herror : ∀ stop s, post (.error stop) s → final (.error stop) s) :
    Concludes R states final fun r => actions r >>= next r := by
  apply Attains.bind h (fun r p => ExceptT.bindCont (next r) p.1 p.2)
  rintro _ ⟨result, s, hresult, rfl⟩
  cases result with
  | ok d => exact hok d s hresult
  | error stop => exact .done _ ⟨.error stop, s, herror stop s hresult, rfl⟩

/-- Results that are passed on changed. -/
theorem map {final : Except Stop ε → ((r : Fin size) → σ r) → Prop}
    (h : Concludes R states post actions) (f : δ → ε)
    (himp : ∀ result s, post result s → final (result.map f) s) :
    Concludes R states final fun r => actions r >>= fun d => Pure.pure (f d) :=
  h.bind _ (fun d s hd => .pure (himp (.ok d) s hd)) fun stop s hs => himp (.error stop) s hs

/-- All ranks conclude what follows from what they conclude. -/
theorem mono (h : Concludes R states post actions)
    {wider : Except Stop δ → ((r : Fin size) → σ r) → Prop}
    (himp : ∀ result s, post result s → wider result s) : Concludes R states wider actions := by
  apply Attains.mono h
  rintro _ ⟨result, s, hresult, rfl⟩
  exact ⟨result, s, himp result s hresult, rfl⟩

/-- How computations end, as their result. -/
theorem attempt (h : Concludes R states post actions) :
    Proceeds R states (fun b s => ∃ result, post result s ∧ b = fun _ => result) fun r =>
      (ExceptT.lift (actions r).run : Stateful (σ r) α P (Except Stop δ)) := by
  refine Proceeds.attempt (Attains.mono h ?_)
  rintro _ ⟨result, s, hresult, rfl⟩
  exact ⟨result, hresult, rfl⟩

end Concludes

/-! ## Collectives -/

section Collectives

/-- All ranks receive the values of all ranks. -/
theorem achieves_gatherAll (kind : Payload) (values : Fin size → kind.Carrier α) :
    Achieves R (fun b => b = fun _ => List.ofFn values) fun r =>
      (gatherAll kind (values r) : Task α P (List (kind.Carrier α))) :=
  .gather kind values _ (.done _ ⟨_, rfl, rfl⟩)

/-- All ranks obtain the largest value. -/
theorem achieves_maxOverRanks [Magnitude α] (x : Fin size → α) :
    Achieves R (fun b => b = fun _ => (List.ofFn x).foldl Magnitude.larger Magnitude.lowest)
      fun r => (maxOverRanks (x r) : Task α P α) :=
  (achieves_gatherAll .number x).andThen _ (by rintro _ rfl; exact .pure rfl)

variable [Arithmetic α]

/-- All ranks obtain the sum, added in the order of the ranks. -/
theorem achieves_sumOverRanks (x : Fin size → α) :
    Achieves R (fun b => b = fun _ => signedSumOf (List.ofFn x)) fun r =>
      (sumOverRanks (x r) : Task α P α) :=
  (achieves_gatherAll .number x).andThen _ (by rintro _ rfl; exact .pure rfl)

/-- All ranks obtain the sums of the components, if their lists have one length. -/
theorem achieves_sumComponents (xs : Fin size → List α) {length : Nat}
    (hlength : ∀ r, (xs r).length = length) :
    Achieves R (fun b => b = fun _ => sumLists length (List.ofFn xs)) fun r =>
      (sumComponents (xs r) : Task α P (List α)) := by
  refine (achieves_gatherAll .numbers xs).andThen _ ?_
  rintro _ rfl
  -- No rank finds a list of another length, so the reduction goes through.
  have hall : (List.ofFn xs : List (Payload.numbers.Carrier α)).all
      (fun ys => List.length (α := α) ys == length) = true := by
    rw [List.all_eq_true]
    intro ys hys
    obtain ⟨r, rfl⟩ := (List.mem_ofFn' xs ys).1 hys
    simp [hlength]
  simp only [hlength, hall, if_true]
  exact .pure rfl

end Collectives

end Group

end DualHessian
