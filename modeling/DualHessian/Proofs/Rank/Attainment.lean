import DualHessian.Rank.Collective
import Mathlib.Data.List.FinRange
import Mathlib.Logic.Function.Basic

/-!
# What a group of ranks attains

A judgment about all ranks of a group at once: whatever replies their requests get, the ranks meet
in the same collectives, all of them end, and their results are as wanted.

* `Replies` says which requests the ranks put together, and which replies are admissible.
* `Group.Attains` is the judgment. It has one rule for each kind of collective and one for each kind
  of request, so a group that attains anything is never out of step and never waits for ever.
* `Group.Attains.bind` joins two judgments along the sequencing of programs.
* `Program.Alone` is the judgment for a rank that meets no other rank, and
  `Group.Attains.of_alone` lifts it to a group.
* `Group.Returns` says that a group runs to its end, and `Group.Attains.returns` that a group
  which attains something does.
-/

namespace DualHessian

/-- The replies that the ranks of a group may get from their surroundings. -/
structure Replies (P : Interface) (size : Nat) where
  /-- Whether the ranks put a request together, as they call a collective. -/
  shared : P.Request → Bool
  /-- The replies to a request that a rank puts on its own. -/
  alone : Fin size → (q : P.Request) → P.Reply q → Prop
  /-- The replies of all ranks to a request that they put together. -/
  together : (q : P.Request) → (Fin size → P.Reply q) → Prop

/-- The replies at the interface where nothing can be asked. -/
def Replies.closed (size : Nat) : Replies .closed size := ⟨nofun, fun _ => nofun, nofun⟩

/-- All replies, to requests that every rank puts on its own. -/
def Replies.any (P : Interface) (size : Nat) : Replies P size :=
  ⟨fun _ => false, fun _ _ _ => True, fun _ _ => False⟩

section Judgment

variable {α : Type} {P : Interface} {size : Nat} {β γ : Fin size → Type}

/-- All ranks run to their ends in step, with results as in `post`, whatever admissible replies they
get. A request that is not shared may be put at any time. -/
inductive Group.Attains (R : Replies P size) (post : ((r : Fin size) → β r) → Prop) :
    ((r : Fin size) → Program α P (β r)) → Prop
  /-- All ranks have ended. -/
  | done (results : (r : Fin size) → β r) (holds : post results) :
    Attains R post fun r => .done (results r)
  /-- All ranks gather the same kind of payload and receive the values of all ranks. -/
  | gather (kind : Payload) (values : Fin size → kind.Carrier α)
      (next : (r : Fin size) → Option (List (kind.Carrier α)) → Program α P (β r))
      (rest : Attains R post fun r => next r (some (List.ofFn values))) :
    Attains R post fun r => .gather kind (values r) (next r)
  /-- All ranks wait for each other. -/
  | wait (next : (r : Fin size) → Program α P (β r)) (rest : Attains R post next) :
    Attains R post fun r => .wait (next r)
  /-- One rank puts a request on its own. -/
  | alone (programs : (r : Fin size) → Program α P (β r)) (r : Fin size) (q : P.Request)
      (next : P.Reply q → Program α P (β r)) (at_rank : programs r = .ask q next)
      (own : R.shared q = false)
      (rest : ∀ reply, R.alone r q reply →
        Attains R post (Function.update programs r (next reply))) :
    Attains R post programs
  /-- All ranks put the same request together. -/
  | together (q : P.Request) (next : (r : Fin size) → P.Reply q → Program α P (β r))
      (common : R.shared q = true)
      (rest : ∀ replies, R.together q replies → Attains R post fun r => next r (replies r)) :
    Attains R post fun r => .ask q (next r)

namespace Group.Attains

variable {R : Replies P size} {post : ((r : Fin size) → β r) → Prop}
  {programs : (r : Fin size) → Program α P (β r)}

private theorem bind_update {programs : (r : Fin size) → Program α P (β r)}
    (next : (r : Fin size) → β r → Program α P (γ r)) (r : Fin size) (p : Program α P (β r)) :
    (fun r' => Function.update programs r p r' >>= next r') =
      Function.update (fun r' => programs r' >>= next r') r (p >>= next r) := by
  funext r'
  by_cases h : r' = r
  · subst h
    simp
  · simp [h]

/-- What a group attains by one program it takes into the next. -/
theorem bind {final : ((r : Fin size) → γ r) → Prop} (h : Attains R post programs)
    (next : (r : Fin size) → β r → Program α P (γ r))
    (hnext : ∀ b, post b → Attains R final fun r => next r (b r)) :
    Attains R final fun r => programs r >>= next r := by
  induction h with
  | done results holds => exact hnext results holds
  | gather kind values k _ ih => exact .gather kind values (fun r vs => k r vs >>= next r) ih
  | wait k _ ih => exact .wait (fun r => k r >>= next r) ih
  | alone programs r q k at_rank own _ ih =>
    refine .alone _ r q (fun reply => k reply >>= next r) ?_ own fun reply hreply => ?_
    · rw [at_rank, Program.ask_bind]
    · rw [← bind_update]
      exact ih reply hreply
  | together q k common _ ih => exact .together q (fun r reply => k r reply >>= next r) common ih

/-- Programs that come down to having ended. -/
theorem of_eq_done {b : (r : Fin size) → β r} (heq : ∀ r, programs r = .done (b r))
    (h : post b) : Attains R post programs := by
  obtain rfl : programs = fun r => .done (b r) := funext heq
  exact .done b h

/-- A group attains what follows from what it attains. -/
theorem mono (h : Attains R post programs) {wider : ((r : Fin size) → β r) → Prop}
    (himp : ∀ b, post b → wider b) : Attains R wider programs := by
  have := h.bind (fun _ b => .done b) fun b hb => .done b (himp b hb)
  simpa only [Program.bind_done] using this

/-- What a group attains by programs whose results are passed on changed. -/
theorem map {final : ((r : Fin size) → γ r) → Prop} (h : Attains R post programs)
    (f : (r : Fin size) → β r → γ r) (himp : ∀ b, post b → final fun r => f r (b r)) :
    Attains R final fun r => f r <$> programs r :=
  h.bind (fun r b => .done (f r b)) fun b hb => .done _ (himp b hb)

end Group.Attains

/-- A rank runs to its end without meeting the others, with a result as in `post`, whatever
admissible replies it gets. -/
inductive Program.Alone (R : Replies P size) (r : Fin size) {δ : Type} (post : δ → Prop) :
    Program α P δ → Prop
  /-- The rank has ended. -/
  | done (result : δ) (holds : post result) : Alone R r post (.done result)
  /-- The rank puts a request. -/
  | ask (q : P.Request) (next : P.Reply q → Program α P δ) (own : R.shared q = false)
      (rest : ∀ reply, R.alone r q reply → Alone R r post (next reply)) :
    Alone R r post (.ask q next)

/-- A rank that has not met another one may go on without meeting one. -/
theorem Program.Alone.bind {R : Replies P size} {r : Fin size} {δ ε : Type} {mid : δ → Prop}
    {post : ε → Prop} {p : Program α P δ} (h : Program.Alone R r mid p) (next : δ → Program α P ε)
    (hnext : ∀ b, mid b → Program.Alone R r post (next b)) :
    Program.Alone R r post (p >>= next) := by
  induction h with
  | done result holds => exact hnext result holds
  | ask q k own _ ih => exact .ask q (fun reply => k reply >>= next) own ih

/-- What a group attains if one of its ranks first runs to some point without meeting the others. -/
theorem Group.Attains.advance {R : Replies P size} {post : ((r : Fin size) → β r) → Prop}
    {programs : (r : Fin size) → Program α P (β r)} {r : Fin size} {δ : Type} {mid : δ → Prop}
    {p : Program α P δ} (hp : Program.Alone R r mid p) (next : δ → Program α P (β r))
    (hr : programs r = p >>= next)
    (hnext : ∀ b, mid b → Group.Attains R post (Function.update programs r (next b))) :
    Group.Attains R post programs := by
  -- By induction on the run of the rank: each of its requests is one it puts on its own.
  induction hp generalizing programs with
  | done result holds =>
    have hself : Function.update programs r (next result) = programs := by
      rw [← Program.done_bind result next, ← hr, Function.update_eq_self]
    exact hself ▸ hnext result holds
  | ask q k own _ ih =>
    refine .alone programs r q (fun reply => k reply >>= next) hr own fun reply hreply => ?_
    refine ih reply hreply (by simp) fun b hb => ?_
    simpa using hnext b hb

/-- Ranks that do not meet each other attain together what each of them attains alone. -/
theorem Group.Attains.of_alone {R : Replies P size} {post : (r : Fin size) → β r → Prop}
    {programs : (r : Fin size) → Program α P (β r)}
    (h : ∀ r, Program.Alone R r (post r) (programs r)) :
    Group.Attains R (fun b => ∀ r, post r (b r)) programs := by
  -- The ranks outside `rs` have ended; those in `rs` run to their ends one after the other.
  suffices ∀ (rs : List (Fin size)) (programs : (r : Fin size) → Program α P (β r)),
      (∀ r, Program.Alone R r (post r) (programs r)) →
      (∀ r, r ∉ rs → ∃ b, programs r = .done b ∧ post r b) →
      Group.Attains R (fun b => ∀ r, post r (b r)) programs from
    this (List.finRange size) programs h fun r hr => absurd (List.mem_finRange r) hr
  intro rs
  induction rs with
  | nil =>
    intro programs _ hended
    choose b hb hpost using fun r => hended r List.not_mem_nil
    obtain rfl : programs = fun r => .done (b r) := funext hb
    exact .done b hpost
  | cons r rs ih =>
    intro programs halone hended
    -- The rank `r` runs to its end; then it has ended like the ranks outside, and `ih` applies.
    generalize hp : programs r = p
    have hpr : Program.Alone R r (post r) p := hp ▸ halone r
    induction hpr generalizing programs with
    | done result holds =>
      refine ih programs halone fun r' hr' => ?_
      by_cases h : r' = r
      · subst h
        exact ⟨result, hp, holds⟩
      · exact hended r' (by simp [h, hr'])
    | ask q next own rest ihp =>
      refine .alone programs r q next hp own fun reply hreply => ?_
      refine ihp reply hreply _ (fun r' => ?_) (fun r' hr' => ?_) (by simp)
      · by_cases h : r' = r
        · subst h
          simpa using rest reply hreply
        · simpa [h] using halone r'
      · have h : r' ≠ r := fun h => hr' (h ▸ List.mem_cons_self)
        simpa [h] using hended r' hr'

end Judgment

/-! ## Running to the end -/

section Returns

variable {α : Type} {size : Nat} {β : Fin size → Type}

/-- The ranks of a group run to their ends, with these results. -/
def Group.Returns (programs : (r : Fin size) → Program α .closed (β r))
    (results : (r : Fin size) → β r) : Prop :=
  Group.run (List.ofFn fun r => Sigma.mk r <$> programs r) =
    some (List.ofFn fun r => ⟨r, results r⟩)

/-- The results of the ranks are determined. -/
theorem Group.Returns.unique {programs : (r : Fin size) → Program α .closed (β r)}
    {a b : (r : Fin size) → β r} (ha : Group.Returns programs a) (hb : Group.Returns programs b) :
    a = b := by
  have hlists := List.ofFn_injective (Option.some.inj (ha.symm.trans hb))
  funext r
  exact eq_of_heq (Sigma.mk.inj (congrFun hlists r)).2

/-- In a group that attains something, where all ranks have results of one type, all ranks run to
their ends whatever they have handed over before. -/
private theorem runFrom_of_attains {size : Nat} {δ : Type} {R : Replies .closed (size + 1)}
    {post : (Fin (size + 1) → δ) → Prop} {programs : Fin (size + 1) → Program α .closed δ}
    (h : Group.Attains R post programs) (slot : Option (Slot α))
    (slots : Fin size → Option (Slot α)) :
    ∃ results, post results ∧
      Group.runFrom (programs 0) slot
        (List.ofFn fun r : Fin size => ⟨slots r, programs r.succ⟩) =
          some (List.ofFn results) := by
  -- By induction on the judgment: each of its rules is one meeting, after which the slots hold what
  -- the ranks have just handed over.
  induction h generalizing slot slots with
  | done results holds =>
    refine ⟨results, holds, ?_⟩
    have := Group.runFrom_done (results 0) slot
      (List.ofFn fun r : Fin size => (slots r, results r.succ))
    simpa [List.map_ofFn, Function.comp_def, List.ofFn_succ] using this
  | gather kind values next _ ih =>
    obtain ⟨results, holds, hrun⟩ := ih (some ⟨kind, values 0⟩)
      fun r => some ⟨kind, values r.succ⟩
    refine ⟨results, holds, Eq.trans ?_ hrun⟩
    have := Group.runFrom_gather kind (values 0) (next 0) slot
      (List.ofFn fun r : Fin size => ⟨slots r, values r.succ, next r.succ⟩)
    simpa [List.map_ofFn, Function.comp_def, Group.Gathering.before, Group.Gathering.after,
      List.ofFn_succ] using this
  | wait next _ ih =>
    obtain ⟨results, holds, hrun⟩ := ih slot slots
    refine ⟨results, holds, Eq.trans ?_ hrun⟩
    have := Group.runFrom_wait (next 0) slot
      (List.ofFn fun r : Fin size => (⟨slots r, next r.succ⟩ : Member α δ))
    simpa [List.map_ofFn, Function.comp_def] using this
  | alone _ _ q => cases q
  | together q => cases q

private theorem exists_of_attains {R : Replies .closed size} {post : ((r : Fin size) → β r) → Prop}
    {programs : (r : Fin size) → Program α .closed (β r)} (h : Group.Attains R post programs) :
    ∃ results, post results := by
  induction h with
  | done results holds => exact ⟨results, holds⟩
  | gather _ _ _ _ ih | wait _ _ ih => exact ih
  | alone _ _ q => cases q
  | together q => cases q

/-- A group that attains something runs to its end, with results as wanted. -/
theorem Group.Attains.returns {R : Replies .closed size} {post : ((r : Fin size) → β r) → Prop}
    {programs : (r : Fin size) → Program α .closed (β r)} (h : Group.Attains R post programs) :
    ∃ results, post results ∧ Group.Returns programs results := by
  -- Only results of one type can be listed, so every result is labelled with its rank.
  have hlabelled : Group.Attains R
      (fun labelled => ∃ results, post results ∧ labelled = fun r => ⟨r, results r⟩)
      fun r => Sigma.mk r <$> programs r :=
    h.map Sigma.mk fun b hb => ⟨b, hb, rfl⟩
  cases size with
  | zero =>
    obtain ⟨results, holds⟩ := exists_of_attains h
    exact ⟨results, holds, rfl⟩
  | succ size =>
    obtain ⟨labelled, ⟨results, holds, rfl⟩, hrun⟩ :=
      runFrom_of_attains hlabelled none fun _ => none
    refine ⟨results, holds, ?_⟩
    rw [Group.Returns, List.ofFn_succ, Group.run, List.map_ofFn]
    exact hrun

/-- Ranks that have come to their ends return what they have. -/
theorem Group.returns_done (results : (r : Fin size) → β r) :
    Group.Returns (fun r => (.done (results r) : Program α .closed (β r))) results := by
  have hdone : Group.Attains (.closed size) (fun out => out = results) fun r =>
      (.done (results r) : Program α .closed (β r)) := .done _ rfl
  obtain ⟨_, rfl, hreturns⟩ := hdone.returns
  exact hreturns

end Returns

end DualHessian
