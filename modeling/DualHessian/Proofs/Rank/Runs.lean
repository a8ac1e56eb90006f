import DualHessian.Proofs.Rank.Transcript

/-!
# Runs of a program

A run of a program of one rank, with everything that it does on the way. Nothing is assumed of what
the rank receives.

* `Program.Runs` says that a program may do certain exchanges and end with a certain result.
* `Program.runs_bind`, `Task.runs_bind` and `Task.runs_map` say what the runs of a sequence are.
* `Program.exists_runs` says that every program has a run.
-/

namespace DualHessian

namespace Program

variable {α : Type} {P : Interface} {β γ : Type}

/-- The program runs to its end, with these exchanges and this result. -/
inductive Runs : Program α P β → List (Exchange P) → β → Prop where
  /-- The program has ended. -/
  | done (b : β) : Runs (.done b) [] b
  /-- The program receives what has been gathered. -/
  | gather {kind : Payload} {value : kind.Carrier α}
      {next : Option (List (kind.Carrier α)) → Program α P β} {es : List (Exchange P)} {b : β}
      (values : Option (List (kind.Carrier α))) (rest : Runs (next values) es b) :
      Runs (.gather kind value next) (.gather kind :: es) b
  /-- The program goes on after a barrier. -/
  | wait {next : Program α P β} {es : List (Exchange P)} {b : β} (rest : Runs next es b) :
      Runs (.wait next) (.wait :: es) b
  /-- The program receives a reply. -/
  | ask {q : P.Request} {next : P.Reply q → Program α P β} {es : List (Exchange P)} {b : β}
      (reply : P.Reply q) (rest : Runs (next reply) es b) :
      Runs (.ask q next) (.request q reply :: es) b

variable {p : Program α P β} {next : β → Program α P γ} {es : List (Exchange P)}

@[simp] theorem runs_done {b c : β} : (done c : Program α P β).Runs es b ↔ es = [] ∧ b = c := by
  constructor
  · rintro ⟨⟩
    exact ⟨rfl, rfl⟩
  · rintro ⟨rfl, rfl⟩
    exact .done b

/-- A run of a sequence is a run of the first program and then one of the second. -/
theorem runs_bind {c : γ} : (p >>= next).Runs es c ↔
    ∃ es₁ es₂ b, es = es₁ ++ es₂ ∧ p.Runs es₁ b ∧ (next b).Runs es₂ c := by
  constructor
  · -- By induction on the first program: a step of the run is one of its steps until it has ended.
    intro h
    induction p generalizing es with
    | done b => exact ⟨[], es, b, rfl, .done b, h⟩
    | gather kind value k ih =>
      obtain _ | ⟨values, h⟩ := h
      obtain ⟨es₁, es₂, b, rfl, hfirst, hsecond⟩ := ih values h
      exact ⟨_, es₂, b, rfl, .gather values hfirst, hsecond⟩
    | wait k ih =>
      obtain _ | _ | h := h
      obtain ⟨es₁, es₂, b, rfl, hfirst, hsecond⟩ := ih h
      exact ⟨_, es₂, b, rfl, .wait hfirst, hsecond⟩
    | ask q k ih =>
      obtain _ | _ | _ | ⟨reply, h⟩ := h
      obtain ⟨es₁, es₂, b, rfl, hfirst, hsecond⟩ := ih reply h
      exact ⟨_, es₂, b, rfl, .ask reply hfirst, hsecond⟩
  · rintro ⟨es₁, es₂, b, rfl, hfirst, hsecond⟩
    induction hfirst with
    | done b => exact hsecond
    | gather values _ ih => exact .gather values (ih hsecond)
    | wait _ ih => exact .wait (ih hsecond)
    | ask reply _ ih => exact .ask reply (ih hsecond)

/-- Every program has a run, if every request may get some reply. What is gathered may be missing,
so no other rank is needed. -/
theorem exists_runs (h : ∀ q, Nonempty (P.Reply q)) (p : Program α P β) :
    ∃ es b, p.Runs es b := by
  induction p with
  | done b => exact ⟨[], b, .done b⟩
  | gather kind value k ih =>
    obtain ⟨es, b, hrest⟩ := ih none
    exact ⟨_, b, .gather none hrest⟩
  | wait k ih =>
    obtain ⟨es, b, hrest⟩ := ih
    exact ⟨_, b, .wait hrest⟩
  | ask q k ih =>
    obtain ⟨reply⟩ := h q
    obtain ⟨es, b, hrest⟩ := ih reply
    exact ⟨_, b, .ask reply hrest⟩

end Program

namespace Task

variable {α : Type} {P : Interface} {β γ : Type} {task : Task α P β} {es : List (Exchange P)}
  {out : Except Stop γ}

/-- A run of a task followed by another one: the first stops early, or the second goes on with its
result. -/
theorem runs_bind {next : β → Task α P γ} :
    (task >>= next).run.Runs es out ↔
      (∃ stop, task.run.Runs es (.error stop) ∧ out = .error stop) ∨
        ∃ es₁ es₂ b, es = es₁ ++ es₂ ∧ task.run.Runs es₁ (.ok b) ∧
          (next b).run.Runs es₂ out := by
  rw [ExceptT.run_bind, Program.runs_bind]
  constructor
  · rintro ⟨es₁, es₂, b | b, rfl, hfirst, hsecond⟩
    · obtain ⟨rfl, rfl⟩ := Program.runs_done.1 hsecond
      rw [List.append_nil]
      exact .inl ⟨b, hfirst, rfl⟩
    · exact .inr ⟨es₁, es₂, b, rfl, hfirst, hsecond⟩
  · rintro (⟨stop, hfirst, rfl⟩ | ⟨es₁, es₂, b, rfl, hfirst, hsecond⟩)
    · exact ⟨es, [], .error stop, (List.append_nil es).symm, hfirst, .done _⟩
    · exact ⟨es₁, es₂, .ok b, rfl, hfirst, hsecond⟩

/-- A run of a task whose result is passed on changed. -/
theorem runs_map {f : β → γ} : (task >>= fun b => pure (f b)).run.Runs es out ↔
    ∃ outcome, task.run.Runs es outcome ∧ out = outcome.map f := by
  rw [runs_bind]
  constructor
  · rintro (⟨stop, h, rfl⟩ | ⟨es₁, es₂, b, rfl, hfirst, hsecond⟩)
    · exact ⟨.error stop, h, rfl⟩
    · obtain ⟨rfl, rfl⟩ := Program.runs_done.1 hsecond
      rw [List.append_nil]
      exact ⟨.ok b, hfirst, rfl⟩
  · rintro ⟨stop | b, h, rfl⟩
    · exact .inl ⟨stop, h, rfl⟩
    · exact .inr ⟨es, [], b, (List.append_nil es).symm, h, .done _⟩

end Task

end DualHessian
