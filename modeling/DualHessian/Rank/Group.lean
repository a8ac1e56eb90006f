import DualHessian.Rank.Program

/-!
# Groups of ranks

The ranks of a group meet at a barrier, and each has a slot for the value that it hands over. A rank
that gathers puts its value into its slot, meets the others, reads all slots, and meets the others
once more, so that no value is replaced before everyone has read it. If some slot is empty or holds
a payload of another kind, the rank that reads it receives nothing and goes on at once. A rank that
waits meets the others once. Slots keep their values.

* `Group.meet` is one meeting at the barrier, of all ranks but the first.
* `Group.run` goes from one meeting to the next until all programs have ended. If some rank has
  ended while another one comes to the barrier, that one never gets on, and there is no result.
* `Group.runFrom_gather` says that ranks which gather the same kind of payload all receive the
  values of all ranks; `Group.runFrom_wait` and `Group.runFrom_done` are the other two ways in which
  ranks in step go on.
-/

namespace DualHessian

/-- A value that a rank has handed over. -/
structure Slot (α : Type) where
  /-- The kind of payload. -/
  kind : Payload
  /-- The value. -/
  value : kind.Carrier α

namespace Slot

variable {α : Type}

/-- The value in a slot, if it is a payload of the given kind. -/
def read? (kind : Payload) (s : Slot α) : Option (kind.Carrier α) :=
  if h : s.kind = kind then some (h ▸ s.value) else none

@[simp] theorem read?_mk (kind : Payload) (value : kind.Carrier α) :
    read? kind ⟨kind, value⟩ = some value := by
  simp [read?]

/-- The values in all slots, if each holds a payload of the given kind. -/
def readAll? (kind : Payload) (slots : List (Option (Slot α))) : Option (List (kind.Carrier α)) :=
  slots.mapM fun slot => slot.bind (read? kind)

/-- Slots that were filled with payloads of one kind can all be read. -/
@[simp] theorem readAll?_map_mk (kind : Payload) (values : List (kind.Carrier α)) :
    readAll? kind (values.map fun value => some ⟨kind, value⟩) = some values := by
  induction values with
  | nil => rfl
  | cons value values ih =>
    rw [readAll?] at ih
    simp [readAll?, ih]

/-- Slots can be read just if all were filled with payloads of the kind asked for. -/
theorem isSome_readAll? (kind : Payload) (slots : List (Slot α)) :
    (readAll? kind (slots.map some)).isSome ↔ ∀ s ∈ slots, s.kind = kind := by
  rw [readAll?, List.mapM_map]
  show (slots.mapM (read? kind)).isSome ↔ _
  induction slots with
  | nil => simp
  | cons s slots ih =>
    rw [List.mapM_cons, List.forall_mem_cons, ← ih]
    by_cases h : s.kind = kind
    · cases slots.mapM (read? kind) <;> simp [read?, h]
    · simp [read?, h]

end Slot

/-- A rank of a group. -/
structure Member (α β : Type) where
  /-- What it has handed over last. -/
  slot : Option (Slot α)
  /-- What it does next. -/
  program : Program α .closed β

namespace Member

variable {α β : Type}

/-- A rank that has not handed over anything yet. -/
def ofProgram (program : Program α .closed β) : Member α β := ⟨none, program⟩

/-- The rank at the barrier: if it gathers, its value is in its slot. -/
def arrive (m : Member α β) : Member α β :=
  match m.program with
  | .gather kind value _ => { m with slot := some ⟨kind, value⟩ }
  | _ => m

/-- What a rank does after meeting the others, where `slots` are those of all ranks; nothing, if it
does not come to the barrier. -/
def next? (slots : List (Option (Slot α))) : Program α .closed β → Option (Program α .closed β)
  | .done _ => none
  | .wait next => some next
  | .gather kind _ next =>
    match Slot.readAll? kind slots with
    | some values => some (.wait (next (some values)))
    | none => some (next none)
  | .ask q _ => nomatch q

/-- The rank after meeting the others. -/
def leave? (slots : List (Option (Slot α))) (m : Member α β) : Option (Member α β) :=
  (next? slots m.program).map fun program => { m with program := program }

/-- The result of a rank whose program has ended. -/
def result? (m : Member α β) : Option β :=
  match m.program with
  | .done b => some b
  | _ => none

end Member

namespace Group

variable {α β : Type}

/-- The slots of all ranks: that of the first rank and those of the others. -/
def slots (slot : Option (Slot α)) (others : List (Member α β)) : List (Option (Slot α)) :=
  slot :: others.map (·.slot)

/-- The other ranks after they have met the first one, which came to the barrier with the given
slot. -/
def meet (slot : Option (Slot α)) (others : List (Member α β)) : Option (List (Member α β)) :=
  let others := others.map Member.arrive
  others.mapM (Member.leave? (slots slot others))

/-- The results of the first rank and of the others, in the order of the ranks. -/
def runFrom : Program α .closed β → Option (Slot α) → List (Member α β) → Option (List β)
  | .done b, _, others => (others.mapM Member.result?).map (b :: ·)
  | .wait next, slot, others => do
    let others ← meet slot others
    runFrom next slot others
  | .gather kind value next, _, others => do
    let slot := some ⟨kind, value⟩
    let others ← meet slot others
    match Slot.readAll? kind (slots slot others) with
    | some values =>
      -- The second meeting: all have read the slots.
      let others ← meet slot others
      runFrom (next (some values)) slot others
    | none => runFrom (next none) slot others
  | .ask q _, _, _ => nomatch q

/-- The results of all ranks of a group, in the order of the ranks. There are none if some rank
waits for others for ever. -/
def run : List (Program α .closed β) → Option (List β)
  | [] => some []
  | first :: others => runFrom first none (others.map Member.ofProgram)

/-- A rank that is about to gather a payload, where everything but its kind is its own. -/
structure Gathering (α β : Type) (kind : Payload) where
  /-- What it has handed over last. -/
  slot : Option (Slot α)
  /-- The value that it hands over now. -/
  value : kind.Carrier α
  /-- What it does with the values of all ranks. -/
  next : Option (List (kind.Carrier α)) → Program α .closed β

namespace Gathering

variable {kind : Payload}

/-- The rank before it gathers. -/
def before (g : Gathering α β kind) : Member α β := ⟨g.slot, .gather kind g.value g.next⟩

/-- The rank when it has received the values. -/
def after (values : List (kind.Carrier α)) (g : Gathering α β kind) : Member α β :=
  ⟨some ⟨kind, g.value⟩, g.next (some values)⟩

end Gathering

private theorem mapM_some {γ δ : Type} (f : γ → Option δ) (g : γ → δ) (xs : List γ)
    (h : ∀ x, f x = some (g x)) : xs.mapM f = some (xs.map g) := by
  induction xs with
  | nil => rfl
  | cons x xs ih => simp [h, ih]

/-- Ranks that gather the same kind of payload all receive the values of all ranks. -/
theorem runFrom_gather (kind : Payload) (value : kind.Carrier α)
    (next : Option (List (kind.Carrier α)) → Program α .closed β) (slot : Option (Slot α))
    (others : List (Gathering α β kind)) :
    runFrom (.gather kind value next) slot (others.map Gathering.before) =
      let values := value :: others.map (·.value)
      runFrom (next (some values)) (some ⟨kind, value⟩) (others.map (Gathering.after values)) := by
  -- In the first meeting every rank reads the values, in the second one all are done with them.
  have hread : Slot.readAll? kind
      (some ⟨kind, value⟩ :: others.map fun g => some (Slot.mk kind g.value)) =
        some (value :: others.map (·.value)) := by
    have := Slot.readAll?_map_mk kind (value :: others.map (·.value))
    rwa [List.map_cons, List.map_map] at this
  have hfirst : meet (some ⟨kind, value⟩) (others.map Gathering.before) =
      some (others.map fun g =>
        ⟨some ⟨kind, g.value⟩, .wait (g.next (some (value :: others.map (·.value))))⟩) := by
    rw [meet, List.map_map, List.mapM_map]
    apply mapM_some
    intro g
    simp only [slots, List.map_map, Function.comp_def, Gathering.before, Member.arrive,
      Member.leave?, Member.next?, hread, Option.map_some]
  have hsecond : meet (some ⟨kind, value⟩) (others.map fun g =>
        (⟨some ⟨kind, g.value⟩, .wait (g.next (some (value :: others.map (·.value))))⟩ :
          Member α β)) =
      some (others.map (Gathering.after (value :: others.map (·.value)))) := by
    rw [meet, List.map_map, List.mapM_map]
    apply mapM_some
    intro g
    simp [Member.arrive, Member.leave?, Member.next?, Gathering.after]
  simp only [runFrom, hfirst, slots, List.map_map, Function.comp_def, Option.bind_eq_bind,
    Option.bind_some, hread, hsecond]

/-- Ranks that wait all go on. -/
theorem runFrom_wait (next : Program α .closed β) (slot : Option (Slot α))
    (others : List (Member α β)) :
    runFrom (.wait next) slot (others.map fun m => { m with program := .wait m.program }) =
      runFrom next slot others := by
  have hmeet : meet slot (others.map fun m => { m with program := .wait m.program }) =
      some others := by
    rw [meet, List.map_map, List.mapM_map]
    refine (mapM_some _ (fun m => m) _ fun m => ?_).trans (by rw [List.map_id'])
    simp [Member.arrive, Member.leave?, Member.next?]
  simp [runFrom, hmeet]

/-- Ranks that have ended have results. -/
theorem runFrom_done (b : β) (slot : Option (Slot α)) (others : List (Option (Slot α) × β)) :
    runFrom (.done b) slot (others.map fun m => ⟨m.1, .done m.2⟩) =
      some (b :: others.map (·.2)) := by
  have hresults : (others.map fun m => (⟨m.1, .done m.2⟩ : Member α β)).mapM Member.result? =
      some (others.map (·.2)) := by
    rw [List.mapM_map]
    exact mapM_some _ _ _ fun m => rfl
  simp [runFrom, hresults]

end Group

end DualHessian
