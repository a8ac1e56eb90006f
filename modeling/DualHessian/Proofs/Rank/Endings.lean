import DualHessian.Proofs.Rank.Attainment

/-!
# How programs end

A judgment about one rank: however its program ends, the result is as wanted. Nothing is assumed of
what it receives from other ranks or from its surroundings, and nothing is said if it never ends.

* `Program.Ends` is the judgment, with `Program.Ends.bind` for sequencing. `Program.Ends.settle` is
  the one for a program that is settled.
* `Stateful.Keeps` is the judgment for computations that leave something in their state as it was.
  `Program.keeps_serve` is this for a program whose requests are answered out of the state.
* `Group.Returns.holds` says that the results of a group are as each program ends.
-/

namespace DualHessian

namespace Program

variable {α : Type} {P Q : Interface} {β γ σ τ : Type}

/-- However the program ends, its result is as in `post`. -/
def Ends (post : β → Prop) : Program α P β → Prop
  | done b => post b
  | gather _ _ next => ∀ values, (next values).Ends post
  | wait next => next.Ends post
  | ask _ next => ∀ reply, (next reply).Ends post

namespace Ends

variable {mid : β → Prop} {post : γ → Prop} {p : Program α P β}

/-- Programs end one after the other. -/
theorem bind {next : β → Program α P γ} (h : p.Ends mid) (hnext : ∀ b, mid b → (next b).Ends post) :
    (p >>= next).Ends post := by
  induction p with
  | done b => exact hnext b h
  | gather kind value k ih => exact fun values => ih values (h values)
  | wait k ih => exact ih h
  | ask q k ih => exact fun reply => ih reply (h reply)

/-- How a program ends may be said less precisely. -/
theorem mono {wider : β → Prop} (h : p.Ends mid) (himp : ∀ b, mid b → wider b) : p.Ends wider := by
  have hends : (p >>= done).Ends wider := h.bind himp
  rwa [bind_done] at hends

/-- What holds at the end for two reasons holds for both. -/
theorem and {other : β → Prop} (h : p.Ends mid) (hother : p.Ends other) :
    p.Ends fun b => mid b ∧ other b := by
  induction p with
  | done b => exact ⟨h, hother⟩
  | gather kind value k ih => exact fun values => ih values (h values) (hother values)
  | wait k ih => exact ih h hother
  | ask q k ih => exact fun reply => ih reply (h reply) (hother reply)

/-- Nothing is claimed of how it ends. -/
theorem trivial : p.Ends fun _ => True := by
  induction p with
  | done b => exact True.intro
  | gather kind value k ih => exact ih
  | wait k ih => exact ih
  | ask q k ih => exact ih

/-- A settled program ends as the program does. -/
theorem settle {answer : (q : P.Request) → StateM τ (P.Reply q)} (h : p.Ends mid) (t : τ) :
    (p.settle answer t).Ends fun out => mid out.1 := by
  induction p generalizing t with
  | done b => exact h
  | gather kind value k ih => exact fun values => ih values (h values) t
  | wait k ih => exact ih h t
  | ask q k ih => exact ih _ (h _) _

end Ends

end Program

/-! ## Computations with a state -/

namespace Stateful

variable {α : Type} {P Q : Interface} {β γ σ : Type}

/-- A computation followed by another one ends as that does, or as it has stopped early. -/
theorem ends_bind {mid : Except Stop β × σ → Prop} {post : Except Stop γ × σ → Prop}
    {action : Stateful σ α P β} {next : β → Stateful σ α P γ} {s : σ}
    (h : (action.run s).Ends mid) (hok : ∀ b s', mid (.ok b, s') → ((next b).run s').Ends post)
    (herror : ∀ stop s', mid (.error stop, s') → post (.error stop, s')) :
    ((action >>= next).run s).Ends post := by
  refine h.bind ?_
  rintro ⟨result, s'⟩ hs
  cases result with
  | ok b => exact hok b s' hs
  | error stop => exact herror stop s' hs

/-- However the computation ends, also if it stops early, it leaves what can be observed of the
state as it was. -/
def Keeps {ω : Type} (observe : σ → ω) (action : Stateful σ α P β) : Prop :=
  ∀ s, (action.run s).Ends fun out => observe out.2 = observe s

namespace Keeps

variable {ω : Type} {observe : σ → ω} {action : Stateful σ α P β}

/-- Returning changes nothing. -/
theorem pure (b : β) : Keeps observe (Pure.pure b : Stateful σ α P β) := fun _ => rfl

/-- Failing changes nothing. -/
theorem throw (stop : Stop) : Keeps observe (MonadExcept.throw stop : Stateful σ α P β) :=
  fun _ => rfl

/-- Reading changes nothing. -/
theorem get : Keeps observe (MonadState.get : Stateful σ α P σ) := fun _ => rfl

/-- A change keeps what it does not touch. -/
theorem modify {f : σ → σ} (h : ∀ s, observe (f s) = observe s) :
    Keeps observe (modifyThe σ f : Stateful σ α P Unit) := h

/-- Actions that keep something do so one after the other. -/
theorem bind {next : β → Stateful σ α P γ} (h : Keeps observe action)
    (hnext : ∀ b, Keeps observe (next b)) : Keeps observe (action >>= next) := by
  intro s
  refine ends_bind (h s) (fun b s' hs => ?_) fun stop s' hs => hs
  exact (hnext b s').mono fun out hout => hout.trans hs

/-- A task does not touch the state. -/
theorem lift (task : Task α P β) : Keeps observe (liftM task : Stateful σ α P β) := fun _ =>
  (Program.Ends.trivial (p := task.run)).bind fun _ _ => rfl

end Keeps

end Stateful

/-- A served program keeps what the answers to its requests keep. -/
theorem Program.keeps_serve {α : Type} {P Q : Interface} {β σ ω : Type} {observe : σ → ω}
    {answer : (q : P.Request) → Stateful σ α Q (P.Reply q)}
    (h : ∀ q, Stateful.Keeps observe (answer q)) (p : Program α P β) :
    Stateful.Keeps observe (p.serve answer) := by
  induction p with
  | done b => exact .pure b
  | gather kind value k ih => exact fun s values => ih values s
  | wait k ih => exact fun s => ih s
  | ask q k ih => exact (h q).bind ih

/-! ## Groups -/

namespace Group

variable {α β : Type} {post : β → Prop}

private theorem exists_of_mapM {γ δ : Type} {f : γ → Option δ} {xs : List γ} {ys : List δ}
    (h : xs.mapM f = some ys) : ∀ y ∈ ys, ∃ x ∈ xs, f x = some y := by
  induction xs generalizing ys with
  | nil =>
    obtain rfl : ys = [] := (Option.some.inj h).symm
    intro y hy
    cases hy
  | cons x xs ih =>
    rw [List.mapM_cons] at h
    obtain ⟨y, hy, h⟩ := Option.bind_eq_some_iff.1 h
    obtain ⟨ys', hys, h⟩ := Option.bind_eq_some_iff.1 h
    obtain rfl : y :: ys' = ys := Option.some.inj h
    intro y' hy'
    rcases List.mem_cons.1 hy' with rfl | hy'
    · exact ⟨x, List.mem_cons_self, hy⟩
    · obtain ⟨x', hx', hfx'⟩ := ih hys y' hy'
      exact ⟨x', List.mem_cons_of_mem x hx', hfx'⟩

/-- A meeting leaves it open only how the programs go on. -/
private theorem ends_of_meet {slot : Option (Slot α)} {others rest : List (Member α β)}
    (hmeet : meet slot others = some rest) (h : ∀ m ∈ others, m.program.Ends post) :
    ∀ m ∈ rest, m.program.Ends post := by
  intro m hm
  obtain ⟨arrived, harrived, hleave⟩ := exists_of_mapM hmeet m hm
  obtain ⟨before, hbefore, rfl⟩ := List.mem_map.1 harrived
  obtain ⟨program, hnext, rfl⟩ := Option.map_eq_some_iff.1 hleave
  have hends := h before hbefore
  obtain ⟨slot', program'⟩ := before
  -- It goes on from the meeting only if it has come to it.
  cases program' with
  | done b => cases hnext
  | wait next =>
    obtain rfl := Option.some.inj hnext
    exact hends
  | gather kind value next =>
    simp only [Member.arrive, Member.next?] at hnext
    split at hnext
    · obtain rfl := Option.some.inj hnext
      exact hends _
    · obtain rfl := Option.some.inj hnext
      exact hends _
  | ask q => cases q

private theorem holds_of_runFrom {first : Program α .closed β} {slot : Option (Slot α)}
    {others : List (Member α β)} {results : List β}
    (hrun : runFrom first slot others = some results)
    (hfirst : first.Ends post) (hothers : ∀ m ∈ others, m.program.Ends post) :
    ∀ b ∈ results, post b := by
  -- By induction on the program of the first rank, from one meeting to the next.
  induction first generalizing slot others with
  | done b =>
    obtain ⟨rest, hrest, rfl⟩ := Option.map_eq_some_iff.1 hrun
    intro b' hb'
    rcases List.mem_cons.1 hb' with rfl | hb'
    · exact hfirst
    · obtain ⟨m, hm, hresult⟩ := exists_of_mapM hrest b' hb'
      have hends := hothers m hm
      obtain ⟨slot', program⟩ := m
      cases program with
      | done b'' =>
        obtain rfl := Option.some.inj hresult
        exact hends
      | gather | wait | ask => cases hresult
  | wait next ih =>
    obtain ⟨rest, hmeet, hrun⟩ := Option.bind_eq_some_iff.1 hrun
    exact ih hrun hfirst (ends_of_meet hmeet hothers)
  | gather kind value next ih =>
    rw [runFrom] at hrun
    obtain ⟨rest, hmeet, hrun⟩ := Option.bind_eq_some_iff.1 hrun
    have hrest := ends_of_meet hmeet hothers
    split at hrun
    · obtain ⟨rest', hmeet', hrun⟩ := Option.bind_eq_some_iff.1 hrun
      exact ih _ hrun (hfirst _) (ends_of_meet hmeet' hrest)
    · exact ih _ hrun (hfirst _) hrest
  | ask q => cases q

/-- The results of a group are as its programs end. -/
theorem Returns.holds {size : Nat} {β : Fin size → Type} {post : (r : Fin size) → β r → Prop}
    {programs : (r : Fin size) → Program α .closed (β r)} {results : (r : Fin size) → β r}
    (hreturns : Returns programs results) (h : ∀ r, (programs r).Ends (post r)) :
    ∀ r, post r (results r) := by
  have hlabelled : ∀ r, (Sigma.mk r <$> programs r).Ends fun out => post out.1 out.2 := fun r =>
    (h r).bind fun b hb => hb
  have hall : ∀ out ∈ List.ofFn fun r => (⟨r, results r⟩ : (r : Fin size) × β r),
      post out.1 out.2 := by
    cases size with
    | zero =>
      intro out hout
      exact out.1.elim0
    | succ size =>
      rw [Returns, List.ofFn_succ, run] at hreturns
      refine holds_of_runFrom hreturns (hlabelled 0) fun m hm => ?_
      obtain ⟨program, hprogram, rfl⟩ := List.mem_map.1 hm
      obtain ⟨r, rfl⟩ := (List.mem_ofFn' _ program).1 hprogram
      exact hlabelled r.succ
  intro r
  exact hall ⟨r, results r⟩ ((List.mem_ofFn' _ _).2 ⟨r, rfl⟩)

end Group

end DualHessian
