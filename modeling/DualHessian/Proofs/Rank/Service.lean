import DualHessian.Proofs.Rank.Success

/-!
# What a group attains when its requests are answered

A judgment about programs at one interface becomes a judgment about the programs that answer their
requests.

* `Group.Answers` says that the answers of all ranks keep an invariant of their states and are
  admissible replies: a shared request is answered by all ranks together, any other one by its rank
  without meeting the others.
* `Group.Attains.serve` is the judgment for programs that are served at another interface.
* `Group.Attains.settle` is the judgment for programs that are settled with replies out of states.
-/

namespace DualHessian

namespace Group

variable {α : Type} {P Q : Interface} {size : Nat} {β σ : Fin size → Type}

/-! ## Serving -/

/-- From states with the invariant all requests get admissible replies, and the new states have the
invariant again. -/
structure Answers (R : Replies P size) (S : Replies Q size) (inv : ((r : Fin size) → σ r) → Prop)
    (answer : (r : Fin size) → (q : P.Request) → Stateful (σ r) α Q (P.Reply q)) : Prop where
  /-- Requests that a rank puts on its own are answered by this rank. -/
  alone : ∀ (r : Fin size) (q : P.Request), R.shared q = false → ∀ states, inv states →
    Program.Alone S r
      (fun out => ∃ reply s, R.alone r q reply ∧ inv (Function.update states r s) ∧
        out = (.ok reply, s))
      ((answer r q).run (states r))
  /-- Requests that the ranks put together are answered by all of them. -/
  together : ∀ q : P.Request, R.shared q = true → ∀ states, inv states →
    Proceeds S states (fun replies s => R.together q replies ∧ inv s) fun r => answer r q

private theorem serve_update {answer : (r : Fin size) → (q : P.Request) →
      Stateful (σ r) α Q (P.Reply q)} {programs : (r : Fin size) → Program α P (β r)}
    {states : (r : Fin size) → σ r} (r : Fin size) (p : Program α P (β r)) (s : σ r) :
    (fun r' => ((Function.update programs r p r').serve (answer r')).run
      (Function.update states r s r')) =
    Function.update (fun r' => ((programs r').serve (answer r')).run (states r')) r
      ((p.serve (answer r)).run s) := by
  funext r'
  by_cases h : r' = r
  · subst h
    simp
  · simp [h]

/-- Served programs attain what the programs attain, and keep the invariant. -/
theorem Attains.serve {R : Replies P size} {S : Replies Q size}
    {post : ((r : Fin size) → β r) → Prop} {programs : (r : Fin size) → Program α P (β r)}
    {inv : ((r : Fin size) → σ r) → Prop}
    {answer : (r : Fin size) → (q : P.Request) → Stateful (σ r) α Q (P.Reply q)}
    (h : Attains R post programs) (hanswer : Answers R S inv answer)
    {states : (r : Fin size) → σ r} (hstates : inv states) :
    Proceeds S states (fun b s => post b ∧ inv s) fun r => (programs r).serve (answer r) := by
  -- By induction on the judgment about the programs. A collective passes through as it is, and a
  -- request becomes the run of its answer, from whose states the invariant goes on.
  induction h generalizing states with
  | done results holds => exact .pure ⟨holds, hstates⟩
  | gather kind values next _ ih =>
    exact Attains.gather kind values
      (fun r vs => ((next r vs).serve (answer r)).run (states r)) (ih hstates)
  | wait next _ ih =>
    exact Attains.wait (fun r => ((next r).serve (answer r)).run (states r)) (ih hstates)
  | alone programs r q next at_rank own _ ih =>
    refine Attains.advance (hanswer.alone r q own states hstates)
      (fun out => (ExceptT.bindCont (fun reply => (next reply).serve (answer r)) out.1).run out.2)
      ?_ ?_
    · beta_reduce
      rw [at_rank]
      rfl
    · rintro _ ⟨reply, s, hreply, hs, rfl⟩
      have hrest := ih reply hreply hs
      rw [Proceeds, serve_update] at hrest
      exact hrest
  | together q next common _ ih =>
    refine (hanswer.together q common states hstates).andThen
      (fun r reply => (next r reply).serve (answer r)) ?_
    rintro replies s ⟨hreplies, hs⟩
    exact ih replies hreplies hs

/-! ## Settling -/

private theorem settle_update {answer : (r : Fin size) → (q : P.Request) →
      StateM (σ r) (P.Reply q)} {programs : (r : Fin size) → Program α P (β r)}
    {states : (r : Fin size) → σ r} {r : Fin size} {p : Program α P (β r)} {s : σ r}
    (h : (programs r).settle (answer r) (states r) = p.settle (answer r) s) :
    (fun r' => (Function.update programs r p r').settle (answer r')
      (Function.update states r s r')) =
    fun r' => (programs r').settle (answer r') (states r') := by
  funext r'
  by_cases h' : r' = r
  · subst h'
    simpa using h.symm
  · simp [h']

/-- Settled programs attain what the programs attain, if no request is shared. -/
theorem Attains.settle {R : Replies P size} {post : ((r : Fin size) → β r) → Prop}
    {programs : (r : Fin size) → Program α P (β r)} (h : Attains R post programs)
    (answer : (r : Fin size) → (q : P.Request) → StateM (σ r) (P.Reply q))
    (hown : ∀ q, R.shared q = false)
    (hanswer : ∀ r q s, R.alone r q (answer r q s).1) (states : (r : Fin size) → σ r) :
    Attains (.closed size) (fun out => post fun r => (out r).1) fun r =>
      (programs r).settle (answer r) (states r) := by
  induction h generalizing states with
  | done results holds => exact .done _ holds
  | gather kind values next _ ih =>
    exact .gather kind values (fun r vs => (next r vs).settle (answer r) (states r)) (ih states)
  | wait next _ ih => exact .wait (fun r => (next r).settle (answer r) (states r)) (ih states)
  | alone programs r q next at_rank _ _ ih =>
    have hrest := ih _ (hanswer r q (states r)) (Function.update states r (answer r q (states r)).2)
    rwa [settle_update (by rw [at_rank]; rfl)] at hrest
  | together q _ common => exact absurd common (by simp [hown q])

/-- Settled computations that proceed run to their ends. -/
theorem Proceeds.settled {τ : Fin size → Type} {R : Replies P size}
    {post : ((r : Fin size) → β r) → ((r : Fin size) → σ r) → Prop}
    {states : (r : Fin size) → σ r} {actions : (r : Fin size) → Stateful (σ r) α P (β r)}
    (h : Proceeds R states post actions)
    (answer : (r : Fin size) → (q : P.Request) → StateM (τ r) (P.Reply q))
    (hown : ∀ q, R.shared q = false) (hanswer : ∀ r q t, R.alone r q (answer r q t).1)
    (surroundings : (r : Fin size) → τ r) :
    ∃ b s, ∃ t : (r : Fin size) → τ r, post b s ∧
      Returns (fun r => ((actions r).run (states r)).settle (answer r) (surroundings r))
        fun r => ((.ok (b r), s r), t r) := by
  obtain ⟨results, ⟨b, s, hpost, hresults⟩, hreturns⟩ :=
    (Attains.settle h answer hown hanswer surroundings).returns
  refine ⟨b, s, fun r => (results r).2, hpost, ?_⟩
  have hparts : results = fun r => ((.ok (b r), s r), (results r).2) :=
    funext fun r => Prod.ext (congrFun hresults r) rfl
  exact hparts ▸ hreturns

end Group

end DualHessian
