import DualHessian.Proofs.Rank.Success

/-!
# The transcript of a rank

A `Call` is what a rank calls together with the others: a collective, or a request that the ranks
put together. An `Exchange` is a call that has been answered, with the reply if it was a request.
`Program.logged` is a program that also keeps the list of its calls, in order, and `Program.traced`
one that keeps its exchanges; but for these lists they are the same program.

* `Group.Traces` says that a group runs to its end and what its ranks have then done together. Its
  rules follow those of `Group.Attains`: programs in sequence have their exchanges one after the
  other, and what a rank does alone is no exchange.
* `Group.Decides` is this for tasks that the ranks either all finish or all stop early, with the
  rules `Group.Decides.bind` for sequencing and `Group.Decides.foldlM` for loops. `Group.Tries`
  leaves the reasons open for which they stop.
* `Group.Issues` says that every rank issues the same given calls.
-/

namespace DualHessian

/-- What a rank calls together with all others. -/
inductive Call (P : Interface) where
  /-- A gathering of payloads. -/
  | gather (kind : Payload)
  /-- A barrier. -/
  | wait
  /-- A request that all ranks put. -/
  | request (q : P.Request)

/-- What a rank has done together with all others. -/
inductive Exchange (P : Interface) where
  /-- Payloads have been gathered. -/
  | gather (kind : Payload)
  /-- All ranks have come to a barrier. -/
  | wait
  /-- A request of all ranks has got this reply. -/
  | request (q : P.Request) (reply : P.Reply q)

/-- The call that has been answered. -/
def Exchange.call {P : Interface} : Exchange P → Call P
  | gather kind => .gather kind
  | wait => .wait
  | request q _ => .request q

namespace Program

variable {α : Type} {P : Interface} {β γ : Type}

/-- The same program, which also keeps the list of its calls. Requests that are not shared are no
calls. -/
def logged (shared : P.Request → Bool) : Program α P β → Program α P (List (Call P) × β)
  | done b => done ([], b)
  | gather kind value next =>
    gather kind value fun vs => Prod.map (.gather kind :: ·) id <$> (next vs).logged shared
  | wait next => wait (Prod.map (.wait :: ·) id <$> next.logged shared)
  | ask q next =>
    ask q fun reply =>
      Prod.map (if shared q then (.request q :: ·) else id) id <$> (next reply).logged shared

/-- The same program, which also keeps the list of its exchanges. -/
def traced (shared : P.Request → Bool) : Program α P β → Program α P (List (Exchange P) × β)
  | done b => done ([], b)
  | gather kind value next =>
    gather kind value fun vs => Prod.map (.gather kind :: ·) id <$> (next vs).traced shared
  | wait next => wait (Prod.map (.wait :: ·) id <$> next.traced shared)
  | ask q next =>
    ask q fun reply =>
      Prod.map (if shared q then (.request q reply :: ·) else id) id <$> (next reply).traced shared

private theorem map_map_lists {X Y : Type} {f : List X → List X} {g : List Y → List Y}
    {h : List X → List Y} (hfg : ∀ l, g (h l) = h (f l)) (p : Program α P (List X × β)) :
    Prod.map g id <$> Prod.map h id <$> p = Prod.map h id <$> Prod.map f id <$> p := by
  rw [Functor.map_map, Functor.map_map]
  refine congrArg (· <$> p) (funext fun out => ?_)
  exact Prod.ext (hfg out.1) rfl

/-- The calls of a program are those of its exchanges. -/
theorem logged_eq (shared : P.Request → Bool) (p : Program α P β) :
    p.logged shared = Prod.map (List.map Exchange.call) id <$> p.traced shared := by
  induction p with
  | done b => rfl
  | gather kind value next ih =>
    refine congrArg (gather kind value) (funext fun vs => ?_)
    refine (congrArg (Prod.map _ id <$> ·) (ih vs)).trans ?_
    refine map_map_lists (fun l => ?_) _
    rfl
  | wait next ih =>
    refine congrArg wait ((congrArg (Prod.map _ id <$> ·) ih).trans ?_)
    refine map_map_lists (fun l => ?_) _
    rfl
  | ask q next ih =>
    refine congrArg (ask q) (funext fun reply => ?_)
    refine (congrArg (Prod.map _ id <$> ·) (ih reply)).trans ?_
    exact map_map_lists (fun l => by cases shared q <;> rfl) _

private theorem map_snd_map {f : List (Exchange P) → List (Exchange P)}
    (p : Program α P (List (Exchange P) × β)) :
    Prod.snd <$> Prod.map f id <$> p = Prod.snd <$> p := by
  rw [Functor.map_map]
  rfl

/-- But for its list of exchanges a traced program is the program itself. -/
theorem map_snd_traced (shared : P.Request → Bool) (p : Program α P β) :
    Prod.snd <$> p.traced shared = p := by
  -- Every exchange that is noted changes the list only, which `Prod.snd` drops.
  induction p with
  | done b => rfl
  | gather kind value next ih =>
    refine congrArg (gather kind value) (funext fun vs => ?_)
    exact (map_snd_map _).trans (ih vs)
  | wait next ih => exact congrArg wait ((map_snd_map _).trans ih)
  | ask q next ih =>
    refine congrArg (ask q) (funext fun reply => ?_)
    exact (map_snd_map _).trans (ih reply)

/-- But for its list of calls a logged program is the program itself. -/
theorem map_snd_logged (shared : P.Request → Bool) (p : Program α P β) :
    Prod.snd <$> p.logged shared = p := by
  rw [logged_eq, Functor.map_map]
  exact map_snd_traced shared p

private theorem map_bind_traced {shared : P.Request → Bool}
    {f : List (Exchange P) → List (Exchange P)}
    (hf : ∀ l l', f (l ++ l') = f l ++ l') (p : Program α P (List (Exchange P) × β))
    (next : β → Program α P γ) :
    Prod.map f id <$> (do
      let (l, b) ← p
      let (l', c) ← (next b).traced shared
      return (l ++ l', c)) =
    (do
      let (l, b) ← Prod.map f id <$> p
      let (l', c) ← (next b).traced shared
      return (l ++ l', c)) := by
  simp only [map_eq_pure_bind, bind_assoc, pure_bind, Prod.map, id, hf]

/-- A sequence of programs has the exchanges of the first and then those of the second. -/
theorem traced_bind (shared : P.Request → Bool) (p : Program α P β) (next : β → Program α P γ) :
    (p >>= next).traced shared = do
      let (l, b) ← p.traced shared
      let (l', c) ← (next b).traced shared
      return (l ++ l', c) := by
  induction p with
  | done b =>
    change (next b).traced shared = (next b).traced shared >>= fun (l', c) => done ([] ++ l', c)
    exact (bind_done _).symm
  | gather kind value k ih =>
    refine congrArg (gather kind value) (funext fun vs => ?_)
    refine (congrArg (Prod.map _ id <$> ·) (ih vs)).trans ?_
    exact map_bind_traced (fun _ _ => rfl) _ next
  | wait k ih =>
    apply congrArg wait
    refine (congrArg (Prod.map _ id <$> ·) ih).trans ?_
    exact map_bind_traced (fun _ _ => rfl) _ next
  | ask q k ih =>
    refine congrArg (ask q) (funext fun reply => ?_)
    refine (congrArg (Prod.map _ id <$> ·) (ih reply)).trans ?_
    exact map_bind_traced (fun l l' => by cases shared q <;> rfl) _ next

end Program

namespace Group

variable {α : Type} {P : Interface} {size : Nat} {β γ : Fin size → Type} {R : Replies P size}

/-! ## Programs -/

/-- All ranks run to their ends in step, and their exchanges and results are as in `post`. -/
def Traces (R : Replies P size)
    (post : ((r : Fin size) → List (Exchange P)) → ((r : Fin size) → β r) → Prop)
    (programs : (r : Fin size) → Program α P (β r)) : Prop :=
  Attains R (fun out => post (fun r => (out r).1) fun r => (out r).2) fun r =>
    (programs r).traced R.shared

/-- All ranks run to their ends in step, every rank issues the given calls, and the results are as
in `post`. -/
def Issues (R : Replies P size) (calls : List (Call P)) (post : ((r : Fin size) → β r) → Prop)
    (programs : (r : Fin size) → Program α P (β r)) : Prop :=
  Attains R (fun out => ∃ b, post b ∧ out = fun r => (calls, b r)) fun r =>
    (programs r).logged R.shared

/-- What a group attains, whatever calls it issues. -/
theorem Issues.attains {post : ((r : Fin size) → β r) → Prop} {calls : List (Call P)}
    {programs : (r : Fin size) → Program α P (β r)} (h : Issues R calls post programs) :
    Attains R post programs := by
  have hsnd : Attains R post fun r => Prod.snd <$> (programs r).logged R.shared := by
    apply Attains.map h (fun _ => Prod.snd)
    rintro _ ⟨b, hb, rfl⟩
    exact hb
  simpa only [Program.map_snd_logged] using hsnd

namespace Traces

variable {post : ((r : Fin size) → List (Exchange P)) → ((r : Fin size) → β r) → Prop}
  {programs : (r : Fin size) → Program α P (β r)}

/-- The calls of a group whose exchanges are known. -/
theorem issues {calls : List (Call P)} {final : ((r : Fin size) → β r) → Prop}
    (h : Traces R post programs)
    (himp : ∀ es b, post es b → final b ∧ ∀ r, (es r).map Exchange.call = calls) :
    Issues R calls final programs := by
  simp only [Issues, Program.logged_eq]
  refine Attains.map h _ fun out hout => ?_
  obtain ⟨hfinal, hcalls⟩ := himp _ _ hout
  exact ⟨_, hfinal, funext fun r => Prod.ext (hcalls r) rfl⟩

/-- What a group attains, whatever its exchanges are. -/
theorem attains {final : ((r : Fin size) → β r) → Prop}
    (h : Traces R (fun _ b => final b) programs) : Attains R final programs := by
  have hsnd : Attains R final fun r => Prod.snd <$> (programs r).traced R.shared :=
    Attains.map h (fun _ => Prod.snd) fun _ hout => hout
  simpa only [Program.map_snd_traced] using hsnd

/-- A group that has ended has no more exchanges. -/
theorem done {b : (r : Fin size) → β r} (h : post (fun _ => []) b) :
    Traces (α := α) R post fun r => .done (b r) :=
  Attains.done _ h

/-- Programs in sequence have their exchanges one after the other. -/
theorem bind {final : ((r : Fin size) → List (Exchange P)) → ((r : Fin size) → γ r) → Prop}
    (h : Traces R post programs) (next : (r : Fin size) → β r → Program α P (γ r))
    (hnext : ∀ es b, post es b →
      Traces R (fun es' c => final (fun r => es r ++ es' r) c) fun r => next r (b r)) :
    Traces R final fun r => programs r >>= next r := by
  simp only [Traces, Program.traced_bind]
  refine Attains.bind h _ fun out hout => ?_
  refine Attains.bind (hnext _ _ hout) _ fun out' hout' => ?_
  exact Attains.done _ hout'

/-- Exchanges and results as wanted and more. -/
theorem mono (h : Traces R post programs)
    {wider : ((r : Fin size) → List (Exchange P)) → ((r : Fin size) → β r) → Prop}
    (himp : ∀ es b, post es b → wider es b) : Traces R wider programs :=
  Attains.mono h fun _ hout => himp _ _ hout

/-- Changing the results is no exchange. -/
theorem map {final : ((r : Fin size) → List (Exchange P)) → ((r : Fin size) → γ r) → Prop}
    (h : Traces R post programs) (f : (r : Fin size) → β r → γ r)
    (himp : ∀ es b, post es b → final es fun r => f r (b r)) :
    Traces R final fun r => f r <$> programs r := by
  refine h.bind (fun r b => .done (f r b)) fun es b hb => done ?_
  simpa only [List.append_nil] using himp es b hb

/-- A request that the ranks put together is an exchange. -/
theorem request {q : P.Request} (h : R.shared q = true) :
    Traces (α := α) R
      (fun es replies => R.together q replies ∧ es = fun r => [.request q (replies r)])
      fun _ => (Program.request q : Program α P (P.Reply q)) := by
  refine Attains.together q _ h fun replies hreplies => ?_
  rw [h]
  exact Attains.done _ ⟨hreplies, rfl⟩

private theorem alone_traced {r : Fin size} {δ : Type} {post : δ → Prop} {p : Program α P δ}
    (h : Program.Alone R r post p) :
    Program.Alone R r (fun out => out.1 = [] ∧ post out.2) (p.traced R.shared) := by
  induction h with
  | done result holds => exact .done _ ⟨rfl, holds⟩
  | ask q next own _ ih =>
    refine .ask q _ own fun reply hreply => ?_
    have hid : Prod.map (id : List (Exchange P) → List (Exchange P)) (id : δ → δ) = id := rfl
    simpa [own, hid] using ih reply hreply

/-- What ranks do without meeting each other are no exchanges. -/
theorem of_alone {post : (r : Fin size) → β r → Prop}
    (h : ∀ r, Program.Alone R r (post r) (programs r)) :
    Traces R (fun es b => es = (fun _ => []) ∧ ∀ r, post r (b r)) programs := by
  refine Attains.mono (Attains.of_alone fun r => alone_traced (h r)) fun out hout => ?_
  exact ⟨funext fun r => (hout r).1, fun r => (hout r).2⟩

/-- Programs run for every element of a list have the exchanges of their turns one after the
other. -/
theorem mapM {δ : Type} {f : (r : Fin size) → δ → Program α P (β r)}
    {each : δ → ((r : Fin size) → List (Exchange P)) → ((r : Fin size) → β r) → Prop}
    (hf : ∀ x, Traces R (each x) fun r => f r x) (xs : List δ) :
    Traces R
      (fun es bs => ∃ turns : List (((r : Fin size) → List (Exchange P)) × ((r : Fin size) → β r)),
        List.Forall₂ (fun x turn => each x turn.1 turn.2) xs turns ∧
          es = (fun r => turns.flatMap fun turn => turn.1 r) ∧
            bs = fun r => turns.map fun turn => turn.2 r)
      fun r => xs.mapM (f r) := by
  induction xs with
  | nil =>
    simp only [List.mapM_nil]
    exact done ⟨[], .nil, rfl, rfl⟩
  | cons x xs ih =>
    simp only [List.mapM_cons]
    refine (hf x).bind _ fun es b hb => ?_
    refine ih.bind _ ?_
    rintro _ _ ⟨turns, hturns, rfl, rfl⟩
    refine done ⟨(es, b) :: turns, .cons hb hturns, ?_, rfl⟩
    simp only [List.append_nil, List.flatMap_cons]

end Traces

/-! ## Tasks -/

/-- The ranks have all succeeded, with exchanges and results as in `post`, or they have all stopped
early, with exchanges and reasons as in `halt`. -/
def Decided (halt : ((r : Fin size) → List (Exchange P)) → (Fin size → Stop) → Prop)
    (post : ((r : Fin size) → List (Exchange P)) → ((r : Fin size) → β r) → Prop)
    (es : (r : Fin size) → List (Exchange P)) (out : (r : Fin size) → Except Stop (β r)) : Prop :=
  (∃ b, post es b ∧ out = fun r => .ok (b r)) ∨ ∃ s, halt es s ∧ out = fun r => .error (s r)

/-- All ranks run to their ends in step. Either all succeed, with exchanges and results as in
`post`, or all stop early, with exchanges and reasons as in `halt`. -/
def Decides (R : Replies P size)
    (halt : ((r : Fin size) → List (Exchange P)) → (Fin size → Stop) → Prop)
    (post : ((r : Fin size) → List (Exchange P)) → ((r : Fin size) → β r) → Prop)
    (tasks : (r : Fin size) → Task α P (β r)) : Prop :=
  Traces R (Decided halt post) fun r => (tasks r).run

namespace Decides

variable {halt : ((r : Fin size) → List (Exchange P)) → (Fin size → Stop) → Prop}
  {post : ((r : Fin size) → List (Exchange P)) → ((r : Fin size) → β r) → Prop}
  {tasks : (r : Fin size) → Task α P (β r)}

/-- Tasks that end at once. -/
theorem pure {b : (r : Fin size) → β r} (h : post (fun _ => []) b) :
    Decides R halt post fun r => (Pure.pure (b r) : Task α P (β r)) :=
  Traces.done (.inl ⟨b, h, rfl⟩)

/-- Tasks that come down to ending at once. -/
theorem of_eq_pure {b : (r : Fin size) → β r} (heq : ∀ r, tasks r = Pure.pure (b r))
    (h : post (fun _ => []) b) : Decides R halt post tasks := by
  obtain rfl : tasks = fun r => Pure.pure (b r) := funext heq
  exact pure h

/-- Tasks that all stop. -/
theorem throw {s : Fin size → Stop} (h : halt (fun _ => []) s) :
    Decides R halt post fun r => (MonadExcept.throw (s r) : Task α P (β r)) :=
  Traces.done (.inr ⟨s, h, rfl⟩)

/-- Tasks in sequence. The second ones are run if the first ones have succeeded. -/
theorem bind {final : ((r : Fin size) → List (Exchange P)) → ((r : Fin size) → γ r) → Prop}
    (h : Decides R halt post tasks) (next : (r : Fin size) → β r → Task α P (γ r))
    (hnext : ∀ es b, post es b →
      Decides R (fun es' s => halt (fun r => es r ++ es' r) s)
        (fun es' c => final (fun r => es r ++ es' r) c) fun r => next r (b r)) :
    Decides R halt final fun r => tasks r >>= next r := by
  refine Traces.bind h (fun r => ExceptT.bindCont (next r)) ?_
  rintro es _ (⟨b, hb, rfl⟩ | ⟨s, hs, rfl⟩)
  · exact hnext es b hb
  · refine Traces.done (.inr ⟨s, ?_, rfl⟩)
    simpa only [List.append_nil] using hs

/-- Exchanges and results as wanted and more. -/
theorem mono (h : Decides R halt post tasks)
    {wider : ((r : Fin size) → List (Exchange P)) → ((r : Fin size) → β r) → Prop}
    (himp : ∀ es b, post es b → wider es b) : Decides R halt wider tasks := by
  refine Traces.mono h ?_
  rintro es _ (⟨b, hb, rfl⟩ | hstop)
  · exact .inl ⟨b, himp es b hb, rfl⟩
  · exact .inr hstop

/-- Changing the results is no exchange. -/
theorem map {final : ((r : Fin size) → List (Exchange P)) → ((r : Fin size) → γ r) → Prop}
    (h : Decides R halt post tasks) (f : (r : Fin size) → β r → γ r)
    (himp : ∀ es b, post es b → final es fun r => f r (b r)) :
    Decides R halt final fun r => f r <$> tasks r := by
  simp only [map_eq_pure_bind]
  refine h.bind _ fun es b hb => pure ?_
  simpa only [List.append_nil] using himp es b hb

/-- A program that does not stop early, as a task. -/
theorem lift {programs : (r : Fin size) → Program α P (β r)} (h : Traces R post programs) :
    Decides R halt post fun r => (ExceptT.lift (programs r) : Task α P (β r)) :=
  Traces.map h (fun _ => Except.ok) fun _ b hb => .inl ⟨b, hb, rfl⟩

/-- What ranks do alone, as tasks that do not stop early, are no exchanges. -/
theorem of_alone {b : (r : Fin size) → β r}
    (h : ∀ r, Program.Alone R r (fun out => out = .ok (b r)) (tasks r).run) :
    Decides R halt (fun es out => es = (fun _ => []) ∧ out = b) tasks := by
  refine (Traces.of_alone h).mono ?_
  rintro _ _ ⟨rfl, hout⟩
  exact .inl ⟨b, ⟨rfl, rfl⟩, funext hout⟩

/-- Tasks succeed if nothing can stop them. -/
theorem succeeds (h : Decides R halt post tasks) (hhalt : ∀ es s, ¬halt es s) :
    Traces R (fun es out => Succeeded (post es) out) fun r => (tasks r).run := by
  refine Traces.mono h ?_
  rintro es _ (hout | ⟨s, hs, -⟩)
  · exact hout
  · exact absurd hs (hhalt es s)

/-- What tasks achieve that nothing can stop, whatever their exchanges are. -/
theorem achieves {final : ((r : Fin size) → β r) → Prop} (h : Decides R halt post tasks)
    (hhalt : ∀ es s, ¬halt es s) (himp : ∀ es b, post es b → final b) :
    Achieves R final tasks := by
  refine Traces.attains ((h.succeeds hhalt).mono ?_)
  rintro es _ ⟨b, hb, rfl⟩
  exact ⟨b, himp es b hb, rfl⟩

/-- Gathering payloads is one exchange. -/
theorem gatherAll (kind : Payload) (values : Fin size → kind.Carrier α) :
    Decides R halt
      (fun es b => es = (fun _ => [.gather kind]) ∧ b = fun _ => List.ofFn values) fun r =>
      (gatherAll kind (values r) : Task α P (List (kind.Carrier α))) :=
  Attains.gather kind values _ (Attains.done _ (.inl ⟨_, ⟨rfl, rfl⟩, rfl⟩))

/-- Agreeing on a truth value is one exchange. -/
theorem onAnyRank (holds : Fin size → Bool) :
    Decides R halt
      (fun es b => es = (fun _ => [.gather .flag]) ∧ b = fun _ => decide (∃ r, holds r = true))
      fun r => (onAnyRank (holds r) : Task α P Bool) := by
  have hany : (List.ofFn holds).any id = decide (∃ r, holds r = true) := by
    rw [Bool.eq_iff_iff, List.any_eq_true, decide_eq_true_eq]
    constructor
    · rintro ⟨b, hb, hid⟩
      obtain ⟨r, rfl⟩ := (List.mem_ofFn' holds b).1 hb
      exact ⟨r, hid⟩
    · rintro ⟨r, hr⟩
      exact ⟨holds r, (List.mem_ofFn' holds _).2 ⟨r, rfl⟩, hr⟩
  refine (gatherAll (α := α) .flag holds).bind _ ?_
  rintro _ _ ⟨rfl, rfl⟩
  exact pure ⟨rfl, funext fun _ => hany⟩

/-- A loop over a list has the exchanges of its turns one after the other. Each turn takes what
holds after the elements before it to what holds after its own. -/
theorem foldlM {δ : Type} (f : (r : Fin size) → β r → δ → Task α P (β r))
    (inv : List δ → ((r : Fin size) → List (Exchange P)) → ((r : Fin size) → β r) → Prop)
    (xs : List δ)
    (hf : ∀ before x, before ++ [x] <+: xs → ∀ es b, inv before es b →
      Decides R (fun es' s => halt (fun r => es r ++ es' r) s)
        (fun es' b' => inv (before ++ [x]) (fun r => es r ++ es' r) b') fun r => f r (b r) x)
    {es : (r : Fin size) → List (Exchange P)} {b : (r : Fin size) → β r} (hb : inv [] es b) :
    Decides R (fun es' s => halt (fun r => es r ++ es' r) s)
      (fun es' b' => inv xs (fun r => es r ++ es' r) b') fun r => xs.foldlM (f r) (b r) := by
  -- By induction on the elements to come; those before them say which invariant holds.
  suffices ∀ rest before, before ++ rest = xs → ∀ es b, inv before es b →
      Decides R (fun es' s => halt (fun r => es r ++ es' r) s)
        (fun es' b' => inv xs (fun r => es r ++ es' r) b') fun r => rest.foldlM (f r) (b r) from
    this xs [] rfl es b hb
  intro rest
  induction rest with
  | nil =>
    intro before hxs es b hb
    obtain rfl : before = xs := (List.append_nil before).symm.trans hxs
    simp only [List.foldlM_nil]
    exact pure (by simpa only [List.append_nil] using hb)
  | cons x rest ih =>
    intro before hxs es b hb
    have hsplit : before ++ [x] ++ rest = xs := (List.append_assoc ..).trans hxs
    simp only [List.foldlM_cons]
    refine (hf before x ⟨rest, hsplit⟩ es b hb).bind _ fun es' b' hb' => ?_
    simpa only [List.append_assoc] using ih (before ++ [x]) hsplit _ b' hb'

end Decides

/-- The ranks have all succeeded, with exchanges and results as in `post`, or they have all stopped
early, after exchanges as in `stop`. -/
def Unanimous (stop : ((r : Fin size) → List (Exchange P)) → Prop)
    (post : ((r : Fin size) → List (Exchange P)) → ((r : Fin size) → β r) → Prop)
    (es : (r : Fin size) → List (Exchange P)) (out : (r : Fin size) → Except Stop (β r)) : Prop :=
  (∃ b, post es b ∧ out = fun r => .ok (b r)) ∨ stop es ∧ ∀ r, ∃ s, out r = .error s

/-- All ranks run to their ends in step. Either all succeed, with exchanges and results as in
`post`, or all stop early, after exchanges as in `stop`. -/
def Tries (R : Replies P size) (stop : ((r : Fin size) → List (Exchange P)) → Prop)
    (post : ((r : Fin size) → List (Exchange P)) → ((r : Fin size) → β r) → Prop)
    (tasks : (r : Fin size) → Task α P (β r)) : Prop :=
  Traces R (Unanimous stop post) fun r => (tasks r).run

/-- The exchanges of a group that stops early, whatever the reasons of its ranks are. -/
theorem Decides.tries {halt : ((r : Fin size) → List (Exchange P)) → (Fin size → Stop) → Prop}
    {stop : ((r : Fin size) → List (Exchange P)) → Prop}
    {post : ((r : Fin size) → List (Exchange P)) → ((r : Fin size) → β r) → Prop}
    {tasks : (r : Fin size) → Task α P (β r)} (h : Decides R halt post tasks)
    (himp : ∀ es s, halt es s → stop es) : Tries R stop post tasks := by
  refine Traces.mono h ?_
  rintro es _ (hout | ⟨s, hs, rfl⟩)
  · exact .inl hout
  · exact .inr ⟨himp es s hs, fun r => ⟨s r, rfl⟩⟩

end Group

end DualHessian
