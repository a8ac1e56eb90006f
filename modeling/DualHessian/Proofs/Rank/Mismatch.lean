import DualHessian.Proofs.Rank.Barrier
import DualHessian.Rank.Collective
import Mathlib.Algebra.Order.BigOperators.Group.Finset
import Mathlib.Algebra.Ring.Int.Defs
import Mathlib.Data.Fin.VecNotation

/-!
# Collectives that do not match

In one round every rank of a group calls some collective, and the ranks need not call the same one.
Each rank decides by itself, after the first of the two meetings, whether it goes to the second one.
As all decide alike, none waits there for another one that has given up.

* A `Collective` is what a rank does in the round, and `Collective.received?` what it finds in the
  slots. `Collective.isSome_received?` says that all ranks find something or none does.
* `Threads.remaining` bounds the steps to the end of a round.
* A `Threads.Stage` is what the ranks do between two meetings, and `Threads.InStage` the invariant,
  which every step keeps or leads to the next stage (`Threads.InStage.advance`).
* `Threads.Settles` says that all ranks end with given results under every schedule, and
  `Threads.mismatch_unanimous` what these results are.
-/

namespace DualHessian

/-! ## Collectives of a rank -/

/-- What a rank does in a round: it hands over a value and goes on with those of all ranks. -/
structure Collective (α β : Type) where
  /-- The kind of payload. -/
  kind : Payload
  /-- The value that it hands over. -/
  value : kind.Carrier α
  /-- What it does with the values of all ranks. -/
  rest : List (kind.Carrier α) → Task α .closed β

namespace Collective

variable {α β : Type} {size : Nat}

/-- The collective as a task. -/
def task (c : Collective α β) : Task α .closed β := gatherAll c.kind c.value >>= c.rest

/-- How the rank goes on, with the values of all ranks or without them. -/
def next (c : Collective α β) :
    Option (List (c.kind.Carrier α)) → Program α .closed (Except Stop β)
  | some values => (c.rest values).run
  | none => .done (.error (.violated .desynchronized))

/-- What the rank puts into its slot. -/
def slot (c : Collective α β) : Slot α := ⟨c.kind, c.value⟩

theorem run_task (c : Collective α β) : c.task.run = .gather c.kind c.value c.next := by
  refine congrArg (Program.gather c.kind c.value) (funext fun values => ?_)
  cases values <;> rfl

/-- What a rank finds in the slots, when all ranks have filled theirs. -/
def received? (calls : Fin size → Collective α β) (r : Fin size) :
    Option (List ((calls r).kind.Carrier α)) :=
  Slot.readAll? (calls r).kind (List.ofFn fun s => some (calls s).slot)

/-- A rank finds something exactly if all hand over payloads of one kind, so that either all ranks
do or none does. -/
theorem isSome_received? (calls : Fin size → Collective α β) (r : Fin size) :
    (received? calls r).isSome ↔ ∀ s, (calls s).kind = (calls r).kind := by
  -- No slot is empty, so it is the kinds that decide.
  have hslots : (List.ofFn fun s => some (calls s).slot) =
      (List.ofFn fun s => (calls s).slot).map some := by
    rw [List.map_ofFn]
    rfl
  rw [received?, hslots, Slot.isSome_readAll?]
  simp [slot]

/-- Ranks that hand over payloads of one kind find the values of all. -/
theorem received?_of_kind (kind : Payload) (values : Fin size → kind.Carrier α)
    (rest : Fin size → List (kind.Carrier α) → Task α .closed β) (r : Fin size) :
    received? (fun r => ⟨kind, values r, rest r⟩) r = some (List.ofFn values) := by
  have hslots : (List.ofFn fun s => some (Slot.mk kind (values s))) =
      (List.ofFn values).map fun value => some (Slot.mk kind value) := by
    rw [List.map_ofFn]
    rfl
  exact (congrArg (Slot.readAll? kind) hslots).trans (Slot.readAll?_map_mk kind _)

/-- The sum of lists over all ranks. -/
def components [Arithmetic α] (xs : List α) : Collective α (List α) where
  kind := .numbers
  value := xs
  rest lists :=
    if lists.all fun ys => List.length (α := α) ys == xs.length then
      pure (sumLists xs.length lists)
    else
      throw (.violated .bufferLengths)

@[simp] theorem task_components [Arithmetic α] (xs : List α) :
    (components xs).task = sumComponents xs := rfl

example (holds : Bool) :
    task ⟨.flag, holds, fun flags => pure (flags.any id)⟩ =
      (onAnyRank holds : Task α .closed Bool) := rfl

example [Arithmetic α] (x : α) :
    task ⟨.number, x, fun (xs : List α) => pure (signedSumOf xs)⟩ =
      (sumOverRanks x : Task α .closed α) := rfl

end Collective

/-! ## The steps that remain -/

section Remaining

variable {α β : Type} {size : Nat}

/-- The steps from the beginning of a program to the end of its next gathering: to store, to arrive
at the barrier and leave it, to read, to arrive and leave once more. -/
def Program.remaining : Program α .closed β → Nat
  | .gather _ _ _ => 6
  | .wait next => next.remaining + 2
  | _ => 0

/-- The steps from a point to the end of a gathering. -/
def Point.remaining : Point α β → Nat
  | .call program => program.remaining
  | .meet behind => behind.remaining + 2
  | .read _ _ => 3

/-- The steps of a thread to the end of a gathering. In the barrier it has arrived already. -/
def Thread.remaining (t : Thread α β) : Nat :=
  t.point.remaining - if t.ticket.isSome then 1 else 0

/-- The steps of all ranks to the end of a gathering. -/
def Threads.remaining (m : Threads α β size) : Nat := ∑ r, (m.thread r).remaining

/-- It takes two steps to get through the barrier. -/
theorem Point.remaining_of_behind {point behind : Point α β} (h : point.behind? = some behind) :
    point.remaining = behind.remaining + 2 := by
  unfold behind? at h
  split at h <;> cases h <;> rfl

/-- There are fewer steps left if there are for the rank that takes one. -/
theorem Threads.remaining_lt_of_advance {m m' : Threads α β size} {r : Fin size}
    (hstep : m.advance r = some m') (hlt : (m'.thread r).remaining < (m.thread r).remaining) :
    m'.remaining < m.remaining := by
  refine Finset.sum_lt_sum (fun s _ => ?_) ⟨r, Finset.mem_univ r, hlt⟩
  by_cases heq : s = r
  · exact heq ▸ hlt.le
  · exact (congrArg Thread.remaining (thread_advance_ne hstep heq)).le

end Remaining

/-! ## The stages of a round -/

namespace Threads

variable {α β : Type} {size : Nat}

/-- What the ranks of a round do between two meetings. -/
inductive Stage where
  /-- They store their values. -/
  | storing
  /-- They read the slots. -/
  | reading
  /-- They are done with the slots. -/
  | leaving

section Round

variable (calls : Fin size → Collective α β) (out : Fin size → Except Stop β)

namespace Stage

/-- Where a rank stands at the beginning of a stage. -/
def entry : Stage → Fin size → Point α (Except Stop β)
  | storing, r => .call (.gather (calls r).kind (calls r).value (calls r).next)
  | reading, r => .read (calls r).kind (calls r).next
  | leaving, r => .call (.done (out r))

/-- Where a rank stands at the end of a stage. -/
def exit : Stage → Fin size → Point α (Except Stop β)
  | storing, r => .meet (.read (calls r).kind (calls r).next)
  | reading, r =>
    if (Collective.received? calls r).isSome then .meet (.call (.done (out r)))
    else .call (.done (out r))
  | leaving, r => .call (.done (out r))

/-- What follows a stage. -/
def following : Stage → Stage
  | storing => reading
  | _ => leaving

variable {calls out}

/-- No rank is in front of the barrier at the beginning of a stage. -/
theorem behind?_entry (stage : Stage) (r : Fin size) :
    (stage.entry calls out r).behind? = none := by
  cases stage <;> rfl

variable (calls out) in
/-- At the end of a stage a rank is in front of the barrier, or it has ended. -/
theorem exit_cases (stage : Stage) (r : Fin size) :
    (∃ behind, stage.exit calls out r = .meet behind) ∨
      stage.exit calls out r = .call (.done (out r)) := by
  cases stage with
  | storing => exact .inl ⟨_, rfl⟩
  | reading =>
    rw [exit]
    split
    · exact .inl ⟨_, rfl⟩
    · exact .inr rfl
  | leaving => exact .inr rfl

/-- Behind the barrier the next stage begins. -/
theorem entry_following {stage : Stage} {r : Fin size} {behind : Point α (Except Stop β)}
    (h : (stage.exit calls out r).behind? = some behind) :
    stage.following.entry calls out r = behind := by
  cases stage with
  | storing => exact Option.some.inj h
  | reading =>
    rw [exit] at h
    split at h
    · exact Option.some.inj h
    · cases h
  | leaving => cases h

/-- At the end of a stage all ranks go to the barrier, or all have ended. -/
theorem exit_unanimous {stage : Stage} {r : Fin size}
    (h : (stage.exit calls out r).behind? = none) (s : Fin size) :
    stage.exit calls out s = .call (.done (out s)) := by
  cases stage with
  | storing => cases h
  | reading =>
    -- Rank `s` would find something only if `r` did.
    have hr : ¬ (Collective.received? calls r).isSome := fun hr => by
      rw [exit, if_pos hr] at h
      cases h
    have hs : ¬ (Collective.received? calls s).isSome := by
      rw [Collective.isSome_received?] at hr ⊢
      exact fun hs => hr fun t => (hs t).trans (hs r).symm
    exact if_neg hs
  | leaving => rfl

end Stage

/-- How far a rank has got in a stage, after the given number of meetings. -/
inductive Progress (stage : Stage) (meetings : Nat) (r : Fin size)
    (t : Thread α (Except Stop β)) : Prop
  /-- It has not left the barrier since the last meeting. -/
  | late (ticket : Nat) (hticket : t.ticket = some ticket) (earlier : ticket ≠ meetings)
      (hpoint : t.point.behind? = some (stage.entry calls out r))
      (hslot : stage ≠ .storing → t.slot = some (calls r).slot)
  /-- It is at the beginning of the stage. -/
  | fresh (hticket : t.ticket = none) (hpoint : t.point = stage.entry calls out r)
      (hslot : stage ≠ .storing → t.slot = some (calls r).slot)
  /-- It is at the end of the stage. -/
  | ready (hticket : t.ticket = none) (hpoint : t.point = stage.exit calls out r)
      (hslot : t.slot = some (calls r).slot)
  /-- It is held back by the barrier. -/
  | held (hticket : t.ticket = some meetings) (hpoint : t.point = stage.exit calls out r)
      (hmeets : (stage.exit calls out r).behind? ≠ none) (hslot : t.slot = some (calls r).slot)

/-- All ranks are in one stage of the round. -/
structure InStage (stage : Stage) (m : Threads α (Except Stop β) size) : Prop where
  /-- How far every rank has got. -/
  progress : ∀ r, Progress calls out stage m.meetings r (m.thread r)
  /-- The barrier has counted the ranks that it holds back. -/
  counted : Counted m

variable {calls out} {stage : Stage} {m m' : Threads α (Except Stop β) size} {r : Fin size}
  {t : Thread α (Except Stop β)}

/-! ## One step -/

/-- A rank outside the barrier is at the beginning or at the end of the stage. -/
theorem Progress.of_no_ticket {meetings : Nat} (h : Progress calls out stage meetings r t)
    (hticket : t.ticket = none) :
    (t.point = stage.entry calls out r ∧ (stage ≠ .storing → t.slot = some (calls r).slot)) ∨
      (t.point = stage.exit calls out r ∧ t.slot = some (calls r).slot) := by
  cases h with
  | fresh _ hpoint hslot => exact .inl ⟨hpoint, hslot⟩
  | ready _ hpoint hslot => exact .inr ⟨hpoint, hslot⟩
  | late _ h => rw [hticket] at h; cases h
  | held h => rw [hticket] at h; cases h

/-- A rank with an old ticket has not left the barrier since the last meeting. -/
theorem Progress.of_old_ticket {meetings ticket : Nat} (h : Progress calls out stage meetings r t)
    (hticket : t.ticket = some ticket) (hne : ticket ≠ meetings) :
    t.point.behind? = some (stage.entry calls out r) ∧
      (stage ≠ .storing → t.slot = some (calls r).slot) := by
  cases h with
  | late _ _ _ hpoint hslot => exact ⟨hpoint, hslot⟩
  | fresh h => rw [hticket] at h; cases h
  | ready h => rw [hticket] at h; cases h
  | held h =>
    rw [hticket] at h
    exact absurd (Option.some.inj h) hne

/-- A rank that the barrier holds back is at the end of the stage. -/
theorem Progress.of_ticket {meetings : Nat} (h : Progress calls out stage meetings r t)
    (hticket : t.ticket = some meetings) :
    t.point = stage.exit calls out r ∧ (stage.exit calls out r).behind? ≠ none ∧
      t.slot = some (calls r).slot := by
  cases h with
  | held _ hpoint hmeets hslot => exact ⟨hpoint, hmeets, hslot⟩
  | fresh h => rw [hticket] at h; cases h
  | ready h => rw [hticket] at h; cases h
  | late _ h hne =>
    rw [hticket] at h
    exact absurd (Option.some.inj h).symm hne

/-- A rank in front of the barrier that is not in it is at the end of the stage. -/
theorem Progress.at_exit {meetings : Nat} (h : Progress calls out stage meetings r t)
    (hticket : t.ticket = none) {behind : Point α (Except Stop β)}
    (hbehind : t.point.behind? = some behind) :
    t.point = stage.exit calls out r ∧ t.slot = some (calls r).slot := by
  obtain ⟨hpoint, _⟩ | hexit := h.of_no_ticket hticket
  · rw [hpoint, Stage.behind?_entry] at hbehind
    cases hbehind
  · exact hexit

/-- When the ranks read, all have stored their values. -/
theorem Progress.slot_eq {meetings : Nat} (h : Progress calls out stage meetings r t)
    (hstage : stage ≠ .storing) : t.slot = some (calls r).slot := by
  cases h with
  | late _ _ _ _ hslot => exact hslot hstage
  | fresh _ _ hslot => exact hslot hstage
  | ready _ _ hslot => exact hslot
  | held _ _ _ hslot => exact hslot

/-- What a rank finds when it reads, whatever the slots held before the round. -/
theorem InStage.readAll? (h : InStage calls out .reading m) (r : Fin size) :
    m.readAll? (calls r).kind = Collective.received? calls r :=
  congrArg (fun slots => Slot.readAll? (calls r).kind (List.ofFn slots))
    (funext fun s => (h.progress s).slot_eq nofun)

/-- A rank may change its own thread outside the barrier. -/
theorem InStage.put (h : InStage calls out stage m)
    (ht : Progress calls out stage m.meetings r t)
    (hbefore : (m.thread r).ticket ≠ some m.meetings) (hafter : t.ticket = none) :
    InStage calls out stage (m.put r t) where
  progress s := by
    by_cases heq : s = r
    · subst heq
      rw [thread_put_self]
      exact ht
    · rw [thread_put_ne m heq]
      exact h.progress s
  counted := h.counted.put hbefore hafter

/-- When a rank arrives at the barrier, it is held back there, or all go on to the next stage. -/
theorem InStage.arrive (h : InStage calls out stage m) {behind : Point α (Except Stop β)}
    (hticket : (m.thread r).ticket = none) (hbehind : (m.thread r).point.behind? = some behind) :
    ∃ stage', InStage calls out stage' (m.arrive r behind) := by
  have hcounted : Counted (m.arrive r behind) := h.counted.arrive hticket
  obtain ⟨hpoint, hslot⟩ := (h.progress r).at_exit hticket hbehind
  by_cases hlast : m.arrived + 1 = size
  · -- It is the last one, and the next stage begins.
    refine ⟨stage.following, fun s => ?_, hcounted⟩
    rw [arrive_of_last hlast]
    by_cases heq : s = r
    · subst heq
      simp only [Function.update_self]
      exact .fresh hticket (Stage.entry_following (hpoint ▸ hbehind)).symm fun _ => hslot
    · simp only [Function.update_of_ne heq]
      -- All others are held back. The meeting makes their tickets old: from now on they are late.
      have hheld := h.counted.others_held hticket hlast heq
      obtain ⟨hpoint', hmeets, hslot'⟩ := (h.progress s).of_ticket hheld
      obtain ⟨behind', hbehind'⟩ := Option.ne_none_iff_exists'.1 hmeets
      refine .late m.meetings hheld (Nat.ne_of_lt (Nat.lt_succ_self _)) ?_ fun _ => hslot'
      rw [hpoint', hbehind', Stage.entry_following hbehind']
  · -- The barrier still waits for others.
    refine ⟨stage, fun s => ?_, hcounted⟩
    rw [arrive_of_not_last hlast]
    by_cases heq : s = r
    · subst heq
      simp only [Function.update_self]
      exact .held rfl hpoint (by simp [← hpoint, hbehind]) hslot
    · simp only [Function.update_of_ne heq]
      exact h.progress s

/-- The results are those with which the ranks go on when they have read the slots. -/
def Concluding (calls : Fin size → Collective α β) (out : Fin size → Except Stop β) : Prop :=
  ∀ r, (calls r).next (Collective.received? calls r) = .done (out r)

/-- A rank that reads the slots is then at the end of the stage of reading. -/
theorem InStage.receive (hout : Concluding calls out) (h : InStage calls out stage m)
    {kind : Payload} {next : Option (List (kind.Carrier α)) → Program α .closed (Except Stop β)}
    (hticket : (m.thread r).ticket = none) (hpoint : (m.thread r).point = .read kind next) :
    stage = .reading ∧
      (receive (m.thread r) kind next (m.readAll? kind)).point = stage.exit calls out r ∧
      (m.thread r).slot = some (calls r).slot := by
  obtain ⟨hentry, hslot⟩ | ⟨hexit, _⟩ := (h.progress r).of_no_ticket hticket
  · rw [hpoint] at hentry
    cases stage with
    | reading =>
      cases hentry
      refine ⟨rfl, ?_, hslot nofun⟩
      simp only [h.readAll? r, Threads.receive, hout r]
      rfl
    | storing | leaving => cases hentry
  · -- At the end of a stage no rank reads.
    obtain ⟨behind, heq⟩ | heq := stage.exit_cases calls out r <;>
      cases hpoint.symm.trans (hexit.trans heq)

/-- Every step keeps the stage, or leads to the next one. -/
theorem InStage.advance (hout : Concluding calls out) (h : InStage calls out stage m)
    (hstep : m.advance r = some m') : ∃ stage', InStage calls out stage' m' := by
  have hprogress := h.progress r
  obtain ⟨kind, value, next, hticket, hpoint, rfl⟩ | ⟨kind, next, hticket, hpoint, rfl⟩ |
    ⟨behind, hticket, hbehind, rfl⟩ | ⟨ticket, behind, hticket, hne, hbehind, rfl⟩ :=
    advance_cases hstep
  · -- The rank stores its value, and is at the end of the stage of storing.
    refine ⟨stage, h.put ?_ (by simp [hticket]) hticket⟩
    obtain ⟨hentry, _⟩ | ⟨hexit, _⟩ := hprogress.of_no_ticket hticket
    · rw [hpoint] at hentry
      cases stage with
      | storing =>
        cases hentry
        exact .ready hticket rfl rfl
      | reading | leaving => cases hentry
    · -- At the end of a stage no rank stores.
      obtain ⟨behind, heq⟩ | heq := stage.exit_cases calls out r <;>
        cases hpoint.symm.trans (hexit.trans heq)
  · -- The rank reads the slots, and is at the end of the stage of reading.
    obtain ⟨_, hexit, hslot⟩ := h.receive hout hticket hpoint
    exact ⟨stage, h.put (.ready hticket hexit hslot) (by simp [hticket]) hticket⟩
  · exact h.arrive hticket hbehind
  · -- The rank leaves the barrier.
    obtain ⟨hpoint, hslot⟩ := hprogress.of_old_ticket hticket hne
    rw [hbehind] at hpoint
    exact ⟨stage, h.put (.fresh rfl (Option.some.inj hpoint) hslot)
      (by simpa [hticket] using hne) rfl⟩

/-- Every step leaves fewer steps. -/
theorem InStage.remaining_lt (hout : Concluding calls out) (h : InStage calls out stage m)
    (hstep : m.advance r = some m') : m'.remaining < m.remaining := by
  refine remaining_lt_of_advance hstep ?_
  obtain ⟨kind, value, next, hticket, hpoint, rfl⟩ | ⟨kind, next, hticket, hpoint, rfl⟩ |
    ⟨behind, hticket, hbehind, rfl⟩ | ⟨ticket, behind, hticket, hne, hbehind, rfl⟩ :=
    advance_cases hstep
  · simp [Thread.remaining, Point.remaining, Program.remaining, hticket, hpoint]
  · -- What the rank does after reading is at most to go through the barrier.
    obtain ⟨rfl, hexit, _⟩ := h.receive hout hticket hpoint
    have hle : (Stage.reading.exit calls out r).remaining ≤ 2 := by
      simp only [Stage.exit]
      split <;> simp [Point.remaining, Program.remaining]
    rw [thread_put_self, Thread.remaining, Thread.remaining, hexit, hpoint, hticket]
    exact Nat.lt_succ_of_le ((Nat.sub_le _ _).trans hle)
  · -- Arriving is one of the two steps through the barrier, and both for the last one.
    have hpoint := Point.remaining_of_behind hbehind
    by_cases hlast : m.arrived + 1 = size
    · simp [arrive_of_last hlast, Thread.remaining, hpoint, hticket]
    · simp [arrive_of_not_last hlast, Thread.remaining, hpoint, hticket]
  · simp [Thread.remaining, Point.remaining_of_behind hbehind, hticket]

/-! ## Every schedule -/

theorem Begins.inStage {m : Threads α (Except Stop β) size}
    (h : m.Begins fun r => (calls r).task.run) : InStage calls out .storing m where
  progress r := by
    obtain ⟨hticket, hpoint⟩ | ⟨ticket, hticket, hne, hbehind⟩ := h.standing r
    · rw [Collective.run_task] at hpoint
      exact .fresh hticket hpoint fun hstage => absurd rfl hstage
    · rw [Collective.run_task] at hbehind
      exact .late ticket hticket hne hbehind fun hstage => absurd rfl hstage
  counted := h.counted

/-- Under every schedule the ranks are in some stage, and the schedule is no longer than the steps
that were left. -/
theorem InStage.follow (hout : Concluding calls out) {schedule : List (Fin size)}
    (h : InStage calls out stage m) (hrun : m.follow schedule = some m') :
    (∃ stage', InStage calls out stage' m') ∧ schedule.length + m'.remaining ≤ m.remaining := by
  -- By induction on the schedule: every step keeps the stage or leads to the next one.
  induction schedule generalizing m stage with
  | nil =>
    cases hrun
    exact ⟨⟨stage, h⟩, (Nat.zero_add _).le⟩
  | cons r schedule ih =>
    obtain ⟨m₁, hstep, hrest⟩ := Option.bind_eq_some_iff.1 hrun
    obtain ⟨stage₁, h₁⟩ := h.advance hout hstep
    have hlt := h.remaining_lt hout hstep
    obtain ⟨hstage, hle⟩ := ih h₁ hrest
    rw [List.length_cons]
    exact ⟨hstage, by omega⟩

/-- At the beginning of a round each rank has at most seven steps left: one to leave the barrier and
six for the gathering. -/
theorem Begins.remaining_le {m : Threads α (Except Stop β) size}
    (h : m.Begins fun r => (calls r).task.run) : m.remaining ≤ 7 * size := by
  have hle : ∀ r ∈ Finset.univ, (m.thread r).remaining ≤ 7 := by
    intro r _
    have hgather : (Point.call (calls r).task.run).remaining = 6 := by
      rw [Collective.run_task]
      rfl
    obtain ⟨hticket, hpoint⟩ | ⟨ticket, hticket, _, hbehind⟩ := h.standing r
    · simp [Thread.remaining, hticket, hpoint, hgather]
    · simp [Thread.remaining, hticket, Point.remaining_of_behind hbehind, hgather]
  calc m.remaining ≤ Finset.univ.card • 7 := Finset.sum_le_card_nsmul _ _ 7 hle
    _ = 7 * size := by simp [Nat.mul_comm]

/-- A rank that has ended has its result, and its stage brings nothing more. -/
theorem Progress.of_done {meetings : Nat} {result : Except Stop β}
    (h : Progress calls out stage meetings r t) (hpoint : t.point = .call (.done result)) :
    t.ticket = none ∧ stage.exit calls out r = .call (.done (out r)) ∧ result = out r := by
  cases h with
  | late _ _ _ hbehind =>
    rw [hpoint] at hbehind
    cases hbehind
  | fresh hticket hentry =>
    rw [hpoint] at hentry
    cases stage with
    | storing | reading => cases hentry
    | leaving =>
      cases hentry
      exact ⟨hticket, rfl, rfl⟩
  | ready hticket hexit =>
    rw [hpoint] at hexit
    obtain ⟨behind, heq⟩ | heq := stage.exit_cases calls out r <;>
      cases hexit.trans heq
    exact ⟨hticket, heq, rfl⟩
  | held _ hexit hmeets =>
    rw [← hexit, hpoint] at hmeets
    exact absurd rfl hmeets

/-- A rank that cannot take a step is held back by the barrier, or has ended. -/
theorem Progress.of_stuck (h : Progress calls out stage m.meetings r (m.thread r))
    (hstuck : m.advance r = none) :
    (m.thread r).ticket = some m.meetings ∨ (m.thread r).point = .call (.done (out r)) := by
  obtain hheld | ⟨result, hpoint⟩ | ⟨hticket, hnone⟩ := advance_eq_none hstuck
  · exact .inl hheld
  · exact .inr ((h.of_done hpoint).2.2 ▸ hpoint)
  · obtain ⟨ticket, hticket⟩ := Option.ne_none_iff_exists'.1 hticket
    by_cases hne : ticket = m.meetings
    · exact .inl (hne ▸ hticket)
    · -- It could leave the barrier.
      rw [(h.of_old_ticket hticket hne).1] at hnone
      cases hnone

/-- If no rank can take a step, all have ended. -/
theorem InStage.ended (h : InStage calls out stage m) (hstuck : ∀ r, m.advance r = none)
    (r : Fin size) :
    (m.thread r).ticket = none ∧ (m.thread r).point = .call (.done (out r)) := by
  -- The barrier does not hold back all ranks, so one has ended, and thus none goes to the barrier.
  obtain ⟨s, hfree⟩ := h.counted.exists_free (Nat.zero_lt_of_lt r.isLt)
  have hdone := ((h.progress s).of_stuck (hstuck s)).resolve_left hfree
  have hexit : (stage.exit calls out s).behind? = none := by
    rw [((h.progress s).of_done hdone).2.1]
    rfl
  obtain hheld | hpoint := (h.progress r).of_stuck (hstuck r)
  · obtain ⟨_, hmeets, _⟩ := (h.progress r).of_ticket hheld
    rw [Stage.exit_unanimous hexit r] at hmeets
    exact absurd rfl hmeets
  · exact ⟨((h.progress r).of_done hpoint).1, hpoint⟩

end Round

/-! ## How a round ends -/

/-- Whatever the order in which the ranks take their steps, all of them end, and with these results.
It takes seven steps for each rank at most. -/
structure Settles (m : Threads α β size) (results : Fin size → β) : Prop where
  /-- No schedule goes on for ever. -/
  bounded : ∀ schedule m', m.follow schedule = some m' → schedule.length ≤ 7 * size
  /-- A rank that has ended has its result. -/
  result_eq : ∀ schedule m', m.follow schedule = some m' → ∀ r result,
    (m'.thread r).point = .call (.done result) → result = results r
  /-- If no rank can take a step, all have ended. -/
  ended : ∀ schedule m', m.follow schedule = some m' → (∀ r, m'.advance r = none) → ∀ r,
    (m'.thread r).ticket = none ∧ (m'.thread r).point = .call (.done (results r))

/-- The rank has come to the second meeting of a gathering, and is not on its way out of it. -/
def AtSecondMeeting (m : Threads α β size) (r : Fin size) : Prop :=
  (∃ program, (m.thread r).point = .meet (.call program)) ∧
    ∀ ticket, (m.thread r).ticket = some ticket → ticket = m.meetings

section Ending

variable {calls : Fin size → Collective α β} {out : Fin size → Except Stop β}
  {m : Threads α (Except Stop β) size}

/-- A round ends as the ranks go on when they have read the slots. -/
theorem Begins.settles (h : m.Begins fun r => (calls r).task.run) (hout : Concluding calls out) :
    m.Settles out where
  bounded schedule m' hrun := by
    obtain ⟨_, hle⟩ := h.inStage.follow hout hrun
    exact (Nat.le_add_right _ _).trans (hle.trans h.remaining_le)
  result_eq schedule m' hrun r result hpoint := by
    obtain ⟨⟨stage, hstage⟩, _⟩ := h.inStage.follow hout hrun
    exact ((hstage.progress r).of_done hpoint).2.2
  ended schedule m' hrun hstuck := by
    obtain ⟨⟨stage, hstage⟩, _⟩ := h.inStage.follow hout hrun
    exact hstage.ended hstuck

/-- A rank that finds nothing in the slots does not go to the second meeting. -/
theorem InStage.not_atSecondMeeting {stage : Stage} (h : InStage calls out stage m) {r : Fin size}
    (hnone : Collective.received? calls r = none) : ¬ m.AtSecondMeeting r := by
  rintro ⟨⟨program, hpoint⟩, hticket⟩
  have hexit : stage.exit calls out r ≠ .meet (.call program) := by
    cases stage with
    | storing => nofun
    | reading => simp [Stage.exit, hnone]
    | leaving => nofun
  cases h.progress r with
  | late ticket h hne =>
    -- It is on its way out of a meeting, perhaps of the second one of an earlier gathering.
    exact hne (hticket ticket h)
  | fresh _ hentry =>
    rw [hpoint] at hentry
    cases stage <;> cases hentry
  | ready _ h => exact hexit (h.symm.trans hpoint)
  | held _ h => exact hexit (h.symm.trans hpoint)

/-- A rank that finds the values does. -/
example : ∃ m, (start fun _ : Fin 1 => (Collective.task ⟨.flag, true, pure⟩).run).follow [0, 0, 0] =
    some (m : Threads Nat _ 1) ∧ m.AtSecondMeeting 0 :=
  ⟨_, rfl, ⟨_, rfl⟩, nofun⟩

/-- Ranks that hand over different kinds of payloads find nothing, and stop. -/
theorem concluding_of_mismatch (h : ∃ r s, (calls r).kind ≠ (calls s).kind) :
    (∀ r, Collective.received? calls r = none) ∧
      Concluding calls fun _ => .error (.violated .desynchronized) := by
  obtain ⟨r, s, hne⟩ := h
  have hnone : ∀ t, Collective.received? calls t = none := by
    intro t
    rw [← Option.not_isSome_iff_eq_none, Collective.isSome_received?]
    exact fun hall => hne ((hall r).trans (hall s).symm)
  refine ⟨hnone, fun t => ?_⟩
  rw [hnone t]
  rfl

/-- Lists of numbers are all found, and then their lengths decide. -/
theorem concluding_components [Arithmetic α] (xs : Fin size → List α) :
    Concluding (fun r => Collective.components (xs r)) fun r =>
      if ∀ s, (xs s).length = (xs r).length then .ok (sumLists (xs r).length (List.ofFn xs))
      else .error (.violated .bufferLengths) := by
  intro r
  have hreceived := Collective.received?_of_kind .numbers xs
    (fun r => (Collective.components (xs r)).rest) r
  -- The test of the reduction as a statement about all ranks.
  have hall : (List.ofFn xs).all (fun ys => ys.length == (xs r).length) = true ↔
      ∀ s, (xs s).length = (xs r).length := by
    simp
  refine (congrArg (Collective.components (xs r)).next hreceived).trans ?_
  by_cases h : ∀ s, (xs s).length = (xs r).length
  · exact (congrArg ExceptT.run (if_pos (hall.2 h))).trans (congrArg Program.done (if_pos h).symm)
  · exact (congrArg ExceptT.run (if_neg (mt hall.1 h))).trans
      (congrArg Program.done (if_neg h).symm)

/-- The sum of lists of one length, component by component. -/
theorem sumLists_ofFn [Arithmetic α] (xs : Fin size → List α) {length : Nat}
    (hlength : ∀ r, (xs r).length = length) :
    sumLists length (List.ofFn xs) =
      (List.range length).map fun j => sumOf (List.ofFn fun r => (xs r).getD j 0) := by
  -- All lists are given by functions on the same indices.
  have hxs : ∀ r, xs r = (List.range length).map fun j => (xs r).getD j 0 := by
    intro r
    refine List.ext_getElem (by simp [hlength r]) fun j hj _ => ?_
    simp [List.getElem?_eq_getElem hj]
  have hsum := sumLists_map_range length (List.ofFn fun r j => (xs r).getD j 0)
  simp only [List.map_ofFn, Function.comp_def] at hsum
  rw [← hsum]
  exact congrArg (fun lists => sumLists length (List.ofFn lists)) (funext hxs)

end Ending

/-- A mismatch is noticed by all ranks. However the ranks take their steps, and whatever their slots
hold from before:

* if they hand over payloads of different kinds, all stop with the violation, and none comes to the
  second meeting;
* if they hand over payloads of one kind, all receive the values of all ranks;
* a sum of lists stops on all ranks with the violation if their lengths differ, and gives all ranks
  the sum of each component, added in the order of the ranks, if they do not. -/
theorem mismatch_unanimous [Arithmetic α] :
    (∀ (calls : Fin size → Collective α β) (m : Threads α (Except Stop β) size),
      m.Begins (fun r => (calls r).task.run) → (∃ r s, (calls r).kind ≠ (calls s).kind) →
        m.Settles (fun _ => .error (.violated .desynchronized)) ∧
          ∀ schedule m', m.follow schedule = some m' → ∀ r, ¬ m'.AtSecondMeeting r) ∧
      (∀ (kind : Payload) (values : Fin size → kind.Carrier α)
        (finish : Fin size → List (kind.Carrier α) → Except Stop β)
        (m : Threads α (Except Stop β) size),
        m.Begins (fun r =>
          (gatherAll kind (values r) >>= fun vs => ExceptT.mk (pure (finish r vs))).run) →
          m.Settles fun r => finish r (List.ofFn values)) ∧
      (∀ (xs : Fin size → List α) (m : Threads α (Except Stop (List α)) size),
        m.Begins (fun r => (sumComponents (xs r)).run) →
          ((∃ r s, (xs r).length ≠ (xs s).length) →
            m.Settles fun _ => .error (.violated .bufferLengths)) ∧
          ∀ length, (∀ r, (xs r).length = length) →
            m.Settles fun _ => .ok ((List.range length).map fun j =>
              sumOf (List.ofFn fun r => (xs r).getD j 0))) := by
  refine ⟨fun calls m hm hne => ?_, fun kind values finish m hm => ?_, fun xs m hm => ?_⟩
  · -- No rank finds anything, so none goes to the second meeting.
    obtain ⟨hnone, hout⟩ := concluding_of_mismatch hne
    refine ⟨hm.settles hout, fun schedule m' hrun r => ?_⟩
    obtain ⟨⟨stage, hstage⟩, _⟩ := hm.inStage.follow hout hrun
    exact hstage.not_atSecondMeeting (hnone r)
  · have hcalls : m.Begins fun r =>
        (Collective.task ⟨kind, values r, fun vs => ExceptT.mk (pure (finish r vs))⟩).run := hm
    refine hcalls.settles fun r => ?_
    rw [Collective.received?_of_kind]
    rfl
  · have hcalls : m.Begins fun r => (Collective.components (xs r)).task.run := by simpa using hm
    have hsettles := hcalls.settles (concluding_components xs)
    refine ⟨fun ⟨r, s, hne⟩ => ?_, fun length hlength => ?_⟩
    · -- There is no rank that all others agree with.
      have hout : ∀ t, ¬ ∀ u, (xs u).length = (xs t).length :=
        fun t hall => hne ((hall r).trans (hall s).symm)
      simpa only [hout, if_false] using hsettles
    · simpa only [hlength, implies_true, if_true, sumLists_ofFn xs hlength] using hsettles

/-- Two ranks after a gathering of numbers which the first one has not left yet: a flag and a number
do not match, two numbers do, lists of different lengths do not, and lists of one length do. -/
theorem mismatch_unanimous_two_ranks :
    let slots : Fin 2 → Option (Slot Int) :=
      ![some ⟨.number, (7 : Int)⟩, some ⟨.number, (8 : Int)⟩]
    let calls : Fin 2 → Collective Int Int :=
      ![⟨.flag, true, fun _ => pure 0⟩,
        ⟨.number, (9 : Int), fun (xs : List Int) => pure (sumOf xs)⟩]
    let m := resume slots (· == 0) fun r => (calls r).task.run
    let numbers : Fin 2 → Int := ![9, 10]
    let uneven : Fin 2 → List Int := ![[1, 2], [10]]
    let even : Fin 2 → List Int := ![[1, 2], [10, 20]]
    (m.Settles (fun _ => .error (.violated .desynchronized)) ∧
      (∀ schedule m', m.follow schedule = some m' → ∀ r, ¬ m'.AtSecondMeeting r)) ∧
      (resume slots (· == 0) fun r =>
        (gatherAll .number (numbers r) >>= fun (xs : List Int) =>
          ExceptT.mk (pure (.ok (sumOf xs)))).run).Settles (fun _ => .ok 19) ∧
      (resume slots (· == 0) fun r => (sumComponents (uneven r)).run).Settles
        (fun _ => .error (.violated .bufferLengths)) ∧
      (resume slots (· == 0) fun r => (sumComponents (even r)).run).Settles
        (fun _ => .ok [11, 22]) ∧
      ∃ m', m.follow [0, 0, 1, 1, 0, 0, 1, 1] = some m' ∧
        ∀ r, (m'.thread r).point = .call (.done (.error (.violated .desynchronized))) := by
  intro slots calls m numbers uneven even
  refine ⟨mismatch_unanimous.1 calls m (begins_resume _ _ _) ⟨0, 1, nofun⟩,
    mismatch_unanimous.2.1 .number numbers (fun _ (xs : List Int) => .ok (sumOf xs)) _
      (begins_resume _ _ _),
    (mismatch_unanimous (β := Int).2.2 uneven _ (begins_resume _ _ _)).1 ⟨0, 1, by decide⟩,
    (mismatch_unanimous (β := Int).2.2 even _ (begins_resume _ _ _)).2 2 (by decide),
    _, rfl, Fin.forall_fin_two.2 ⟨rfl, rfl⟩⟩

end Threads

end DualHessian
