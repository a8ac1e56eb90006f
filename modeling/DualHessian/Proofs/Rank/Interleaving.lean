import DualHessian.Proofs.Rank.Attainment
import DualHessian.Proofs.Rank.Barrier

/-!
# Gatherings under every interleaving

All ranks of a group share one barrier and one slot each, which every gathering uses again. As long
as the ranks make the same calls, no order in which they take their steps mixes up the gatherings.

* Between two meetings all ranks are in one `Phase`: they wait, store their values, read the slots,
  or have ended. A rank may still be on its way out of the barrier, or be in front of it again.
* `Threads.InPhase` is the invariant that ties the barrier to the ranks held back by it, and
  `Threads.InPhase.advance` says that every step keeps it, or leads to the next phase.
* `Threads.Round` is one call of a list of calls that all ranks make, and
  `Threads.rounds_isolated` says what the ranks receive from them.
-/

namespace DualHessian

namespace Threads

variable {α β : Type} {size : Nat}

/-! ## Phases -/

/-- What all ranks do between two meetings. -/
inductive Phase (α β : Type) (size : Nat) where
  /-- They wait. -/
  | waiting (next : Fin size → Program α .closed β)
  /-- They store the values that they gather. -/
  | storing (kind : Payload) (values : Fin size → kind.Carrier α)
      (next : Fin size → Option (List (kind.Carrier α)) → Program α .closed β)
  /-- They read the values that all have stored. -/
  | reading (kind : Payload) (values : Fin size → kind.Carrier α)
      (next : Fin size → Option (List (kind.Carrier α)) → Program α .closed β)
  /-- Their programs have ended. -/
  | ended (results : Fin size → β)

namespace Phase

/-- Where a rank stands at the beginning of a phase. -/
def entry : Phase α β size → Fin size → Point α β
  | waiting next, r => .call (.wait (next r))
  | storing kind values next, r => .call (.gather kind (values r) (next r))
  | reading kind _ next, r => .read kind (next r)
  | ended results, r => .call (.done (results r))

/-- Where a rank stands at the end of a phase. -/
def exit : Phase α β size → Fin size → Point α β
  | waiting next, r => .call (.wait (next r))
  | storing kind _ next, r => .meet (.read kind (next r))
  | reading _ values next, r => .meet (.call (next r (some (List.ofFn values))))
  | ended results, r => .call (.done (results r))

/-- What a rank receives during a phase. -/
def news : Phase α β size → List (Receipt α)
  | reading kind values _ => [⟨kind, some (List.ofFn values)⟩]
  | _ => []

/-- What the slot of a rank holds at the beginning of a phase. -/
def Before : Phase α β size → Fin size → Option (Slot α) → Prop
  | reading kind values _, r, slot => slot = some ⟨kind, values r⟩
  | _, _, _ => True

/-- What the slot of a rank holds at the end of a phase. -/
def After : Phase α β size → Fin size → Option (Slot α) → Prop
  | storing kind values _, r, slot => slot = some ⟨kind, values r⟩
  | reading kind values _, r, slot => slot = some ⟨kind, values r⟩
  | _, _, _ => True

end Phase

/-- How far a rank has got in a phase, after the given number of meetings. Before the phase all
ranks have received `old`. -/
inductive Status (old : List (Receipt α)) (ph : Phase α β size) (meetings : Nat) (r : Fin size)
    (t : Thread α β) : Prop
  /-- It has not left the barrier since the last meeting. -/
  | late (ticket : Nat) (hticket : t.ticket = some ticket) (earlier : ticket ≠ meetings)
      (hpoint : t.point.behind? = some (ph.entry r)) (hslot : ph.Before r t.slot)
      (hreceived : t.received = old)
  /-- It is at the beginning of the phase. -/
  | fresh (hticket : t.ticket = none) (hpoint : t.point = ph.entry r) (hslot : ph.Before r t.slot)
      (hreceived : t.received = old)
  /-- It is at the end of the phase. -/
  | ready (hticket : t.ticket = none) (hpoint : t.point = ph.exit r) (hslot : ph.After r t.slot)
      (hreceived : t.received = old ++ ph.news)
  /-- It is held back by the barrier. -/
  | held (behind : Point α β) (hticket : t.ticket = some meetings) (hpoint : t.point = ph.exit r)
      (hbehind : (ph.exit r).behind? = some behind) (hslot : ph.After r t.slot)
      (hreceived : t.received = old ++ ph.news)

/-- All ranks are in a phase. The barrier has counted the ranks that it holds back, and it does not
hold back all of them. -/
structure InPhase (m : Threads α β size) (old : List (Receipt α)) (ph : Phase α β size) : Prop where
  /-- How far every rank has got. -/
  status : ∀ r, Status old ph m.meetings r (m.thread r)
  /-- The ranks held back are counted. -/
  counted : ∃ s : Finset (Fin size),
    (∀ r, r ∈ s ↔ (m.thread r).ticket = some m.meetings) ∧ m.arrived = s.card
  /-- Some rank is not held back. -/
  room : ∀ _ : Fin size, m.arrived < size

/-! ## One step -/

section Step

variable {m : Threads α β size} {old : List (Receipt α)} {ph : Phase α β size} {r : Fin size}
  {t : Thread α β} {kind : Payload} {values : Fin size → kind.Carrier α}
  {next : Fin size → Option (List (kind.Carrier α)) → Program α .closed β}

/-- A rank outside the barrier is at the beginning or at the end of its phase. -/
private theorem Status.of_no_ticket {meetings : Nat} (h : Status old ph meetings r t)
    (hticket : t.ticket = none) :
    (t.point = ph.entry r ∧ ph.Before r t.slot ∧ t.received = old) ∨
      (t.point = ph.exit r ∧ ph.After r t.slot ∧ t.received = old ++ ph.news) := by
  cases h with
  | fresh _ hpoint hslot hreceived => exact .inl ⟨hpoint, hslot, hreceived⟩
  | ready _ hpoint hslot hreceived => exact .inr ⟨hpoint, hslot, hreceived⟩
  | late _ h => rw [hticket] at h; cases h
  | held _ h => rw [hticket] at h; cases h

/-- A rank with an old ticket has not left the barrier since the last meeting. -/
private theorem Status.of_old_ticket {meetings ticket : Nat} (h : Status old ph meetings r t)
    (hticket : t.ticket = some ticket) (hne : ticket ≠ meetings) :
    t.point.behind? = some (ph.entry r) ∧ ph.Before r t.slot ∧ t.received = old := by
  cases h with
  | late _ _ _ hpoint hslot hreceived => exact ⟨hpoint, hslot, hreceived⟩
  | fresh h => rw [hticket] at h; cases h
  | ready h => rw [hticket] at h; cases h
  | held _ h =>
    rw [hticket] at h
    exact absurd (Option.some.inj h) hne

/-- A rank that the barrier holds back is at the end of its phase. -/
private theorem Status.of_ticket {meetings : Nat} (h : Status old ph meetings r t)
    (hticket : t.ticket = some meetings) :
    (∃ behind, (ph.exit r).behind? = some behind) ∧ t.point = ph.exit r ∧ ph.After r t.slot ∧
      t.received = old ++ ph.news := by
  cases h with
  | held behind _ hpoint hbehind hslot hreceived =>
    exact ⟨⟨behind, hbehind⟩, hpoint, hslot, hreceived⟩
  | fresh h => rw [hticket] at h; cases h
  | ready h => rw [hticket] at h; cases h
  | late _ h hne =>
    rw [hticket] at h
    exact absurd (Option.some.inj h).symm hne

/-- A rank in front of the barrier that is not in it is at the end of its phase. -/
private theorem Status.at_exit {meetings : Nat} (h : Status old ph meetings r t)
    (hticket : t.ticket = none) {behind : Point α β} (hbehind : t.point.behind? = some behind) :
    t.point = ph.exit r ∧ ph.After r t.slot ∧ t.received = old ++ ph.news := by
  obtain ⟨hpoint, hslot, hreceived⟩ | hexit := h.of_no_ticket hticket
  · -- Only ranks that wait are in front of the barrier from the beginning.
    rw [hpoint] at hbehind
    cases ph with
    | waiting next => exact ⟨hpoint, trivial, by simpa [Phase.news] using hreceived⟩
    | storing | reading | ended => cases hbehind
  · exact hexit

/-- While the ranks read, every slot holds the value of its rank. -/
private theorem Status.slot_reading {meetings : Nat}
    (h : Status old (.reading kind values next) meetings r t) :
    t.slot = some ⟨kind, values r⟩ := by
  cases h with
  | late _ _ _ _ hslot => exact hslot
  | fresh _ _ hslot => exact hslot
  | ready _ _ hslot => exact hslot
  | held _ _ _ _ hslot => exact hslot

/-- A rank that reads receives the values of all ranks. -/
private theorem InPhase.readAll? (h : InPhase m old (.reading kind values next)) :
    m.readAll? kind = some (List.ofFn values) := by
  have hslots : (List.ofFn fun r => (m.thread r).slot) =
      (List.ofFn values).map fun value => some (Slot.mk kind value) := by
    rw [List.map_ofFn]
    exact congrArg List.ofFn (funext fun r => (h.status r).slot_reading)
  rw [Threads.readAll?, hslots, Slot.readAll?_map_mk]

private theorem InPhase.barrier (h : InPhase m old ph) : Counted m := ⟨h.counted, h.room⟩

/-- A rank may change its own thread outside the barrier. -/
private theorem InPhase.put (h : InPhase m old ph) (ht : Status old ph m.meetings r t)
    (hbefore : (m.thread r).ticket ≠ some m.meetings) (hafter : t.ticket = none) :
    InPhase (m.put r t) old ph := by
  have hbarrier := h.barrier.put hbefore hafter
  refine ⟨fun r' => ?_, hbarrier.counted, hbarrier.room⟩
  by_cases heq : r' = r
  · subst heq
    rw [thread_put_self]
    exact ht
  · rw [thread_put_ne m heq]
    exact h.status r'

/-- A rank that arrives at the barrier, and is not the last one, is held back. -/
private theorem InPhase.arrive_held (h : InPhase m old ph) {behind : Point α β}
    (hticket : (m.thread r).ticket = none) (hbehind : (m.thread r).point.behind? = some behind)
    (hlast : m.arrived + 1 ≠ size) : InPhase (m.arrive r behind) old ph := by
  have hbarrier : Counted (m.arrive r behind) := h.barrier.arrive hticket
  obtain ⟨hpoint, hslot, hreceived⟩ := (h.status r).at_exit hticket hbehind
  refine ⟨fun r' => ?_, hbarrier.counted, hbarrier.room⟩
  rw [arrive_of_not_last hlast]
  dsimp only
  by_cases heq : r' = r
  · subst heq
    rw [Function.update_self]
    exact .held behind rfl hpoint (hpoint ▸ hbehind) hslot hreceived
  · rw [Function.update_of_ne heq]
    exact h.status r'

/-- When the last rank arrives at the barrier, a new phase begins where the ranks get through. -/
private theorem InPhase.arrive_last (h : InPhase m old ph) {behind : Point α β}
    (hticket : (m.thread r).ticket = none) (hbehind : (m.thread r).point.behind? = some behind)
    (hlast : m.arrived + 1 = size) {ph' : Phase α β size}
    (hentry : ∀ r b, (ph.exit r).behind? = some b → ph'.entry r = b)
    (hslots : ∀ r slot, ph.After r slot → ph'.Before r slot) :
    InPhase (m.arrive r behind) (old ++ ph.news) ph' := by
  have hbarrier : Counted (m.arrive r behind) := h.barrier.arrive hticket
  obtain ⟨hpoint, hslot, hreceived⟩ := (h.status r).at_exit hticket hbehind
  refine ⟨fun r' => ?_, hbarrier.counted, hbarrier.room⟩
  rw [arrive_of_last hlast]
  dsimp only
  by_cases heq : r' = r
  · subst heq
    rw [Function.update_self]
    exact .fresh hticket (hentry r' behind (hpoint ▸ hbehind)).symm (hslots r' _ hslot) hreceived
  · rw [Function.update_of_ne heq]
    have hheld := h.barrier.others_held hticket hlast heq
    -- The meeting makes their tickets old, so from now on they are late.
    obtain ⟨⟨b, hb⟩, hpoint', hslot', hreceived'⟩ := (h.status r').of_ticket hheld
    refine .late m.meetings hheld (Nat.ne_of_lt (Nat.lt_succ_self _)) ?_ (hslots r' _ hslot')
      hreceived'
    rw [hpoint', hb, hentry r' b hb]

end Step

/-! ## Ranks in lockstep -/

/-- A property of the programs that the ranks still have to run and of what they have received,
which says that they make the same calls and which every call keeps. -/
def Lockstep (Good : List (Receipt α) → (Fin size → Program α .closed β) → Prop) : Prop :=
  ∀ old programs, Good old programs →
    (∃ results : Fin size → β, programs = fun r => .done (results r)) ∨
    (∃ next : Fin size → Program α .closed β, programs = (fun r => .wait (next r)) ∧
      Good old next) ∨
    (∃ (kind : Payload) (values : Fin size → kind.Carrier α)
        (next : Fin size → Option (List (kind.Carrier α)) → Program α .closed β),
      programs = (fun r => .gather kind (values r) (next r)) ∧
      Good (old ++ [⟨kind, some (List.ofFn values)⟩]) fun r => next r (some (List.ofFn values)))

/-- What comes after a phase is good. -/
def Fits (Good : List (Receipt α) → (Fin size → Program α .closed β) → Prop)
    (old : List (Receipt α)) : Phase α β size → Prop
  | .waiting next => Good old next
  | .storing kind values next | .reading kind values next =>
    Good (old ++ [⟨kind, some (List.ofFn values)⟩]) fun r => next r (some (List.ofFn values))
  | .ended results => Good old fun r => .done (results r)

variable {Good : List (Receipt α) → (Fin size → Program α .closed β) → Prop}

/-- The phase that good programs begin with. -/
private theorem Lockstep.exists_phase (hgood : Lockstep Good) {old : List (Receipt α)}
    {programs : Fin size → Program α .closed β} (h : Good old programs) :
    ∃ ph, Fits Good old ph ∧ (∀ r, ph.entry r = .call (programs r)) ∧
      ∀ r slot, ph.Before r slot := by
  obtain ⟨results, rfl⟩ | ⟨next, rfl, hnext⟩ | ⟨kind, values, next, rfl, hnext⟩ :=
    hgood old programs h
  · exact ⟨.ended results, h, fun _ => rfl, fun _ _ => trivial⟩
  · exact ⟨.waiting next, hnext, fun _ => rfl, fun _ _ => trivial⟩
  · exact ⟨.storing kind values next, hnext, fun _ => rfl, fun _ _ => trivial⟩

/-- The phase that follows when all ranks have met. -/
private theorem Lockstep.exists_next (hgood : Lockstep Good) {old : List (Receipt α)}
    {ph : Phase α β size} (h : Fits Good old ph) {r : Fin size} {behind : Point α β}
    (hbehind : (ph.exit r).behind? = some behind) :
    ∃ ph', Fits Good (old ++ ph.news) ph' ∧
      (∀ r b, (ph.exit r).behind? = some b → ph'.entry r = b) ∧
      ∀ r slot, ph.After r slot → ph'.Before r slot := by
  cases ph with
  | waiting next =>
    obtain ⟨ph', hfits, hentry, hslots⟩ := hgood.exists_phase h
    refine ⟨ph', by simpa [Phase.news] using hfits, fun r b hb => ?_, fun r slot _ => hslots r slot⟩
    rw [hentry r]
    exact Option.some.inj hb
  | storing kind values next =>
    refine ⟨.reading kind values next, ?_, fun r b hb => ?_, fun r slot hslot => hslot⟩
    · have hnews : (Phase.storing kind values next).news = [] := rfl
      rw [hnews, List.append_nil]
      exact h
    · exact Option.some.inj hb
  | reading kind values next =>
    obtain ⟨ph', hfits, hentry, hslots⟩ := hgood.exists_phase h
    refine ⟨ph', hfits, fun r b hb => ?_, fun r slot _ => hslots r slot⟩
    rw [hentry r]
    exact Option.some.inj hb
  | ended results => cases hbehind

/-- All ranks are in a phase with a good continuation. -/
def InStep (Good : List (Receipt α) → (Fin size → Program α .closed β) → Prop)
    (m : Threads α β size) : Prop :=
  ∃ old ph, Fits Good old ph ∧ InPhase m old ph

/-- At the beginning the ranks are in step. -/
theorem inStep_start (hgood : Lockstep Good) {programs : Fin size → Program α .closed β}
    (h : Good [] programs) : InStep Good (start programs) := by
  obtain ⟨ph, hfits, hentry, hslots⟩ := hgood.exists_phase h
  have hbarrier := (begins_start programs).counted
  exact ⟨[], ph, hfits, fun r => .fresh rfl (hentry r).symm (hslots r none) rfl,
    hbarrier.counted, hbarrier.room⟩

/-- Every step of a rank keeps the ranks in step. -/
theorem InStep.advance (hgood : Lockstep Good) {m m' : Threads α β size} (h : InStep Good m)
    {r : Fin size} (hstep : m.advance r = some m') : InStep Good m' := by
  obtain ⟨old, ph, hfits, hphase⟩ := h
  have hstatus := hphase.status r
  obtain ⟨kind, value, next, hticket, hpoint, rfl⟩ | ⟨kind, next, hticket, hpoint, rfl⟩ |
    ⟨behind, hticket, hbehind, rfl⟩ | ⟨ticket, behind, hticket, hne, hbehind, rfl⟩ :=
    advance_cases hstep
  · -- The rank stores its value: the phase is that of storing, and the rank is at its beginning.
    refine ⟨old, ph, hfits, hphase.put ?_ (by simp [hticket]) hticket⟩
    obtain ⟨hentry, _, hreceived⟩ | ⟨hexit, _⟩ := hstatus.of_no_ticket hticket
    · rw [hpoint] at hentry
      cases ph with
      | waiting | reading | ended => cases hentry
      | storing =>
        cases hentry
        exact .ready hticket rfl rfl (by simpa [Phase.news] using hreceived)
    · rw [hpoint] at hexit
      cases ph <;> cases hexit
  · -- The rank reads the slots: the phase is that of reading, so all slots hold their values.
    refine ⟨old, ph, hfits, hphase.put ?_ (by simp [hticket]) hticket⟩
    obtain ⟨hentry, hslot, hreceived⟩ | ⟨hexit, _⟩ := hstatus.of_no_ticket hticket
    · rw [hpoint] at hentry
      cases ph with
      | waiting | storing | ended => cases hentry
      | reading =>
        cases hentry
        rw [hphase.readAll?]
        exact .ready hticket rfl hslot (congrArg (· ++ _) hreceived)
    · rw [hpoint] at hexit
      cases ph <;> cases hexit
  · -- The rank arrives at the barrier.
    obtain ⟨hexit, _, _⟩ := hstatus.at_exit hticket hbehind
    by_cases hlast : m.arrived + 1 = size
    · -- It is the last one, and the next phase begins.
      obtain ⟨ph', hfits', hentry, hslots⟩ := hgood.exists_next hfits (hexit ▸ hbehind)
      exact ⟨_, ph', hfits', hphase.arrive_last hticket hbehind hlast hentry hslots⟩
    · exact ⟨old, ph, hfits, hphase.arrive_held hticket hbehind hlast⟩
  · -- The rank leaves the barrier.
    obtain ⟨hpoint, hslot, hreceived⟩ := hstatus.of_old_ticket hticket hne
    rw [hbehind] at hpoint
    exact ⟨old, ph, hfits, hphase.put (.fresh rfl (Option.some.inj hpoint) hslot hreceived)
      (by simpa [hticket] using hne) rfl⟩

/-! ## Every schedule -/

/-- The ranks stay in step under every schedule. -/
theorem InStep.follow (hgood : Lockstep Good) {schedule : List (Fin size)} {m m' : Threads α β size}
    (h : InStep Good m) (hrun : m.follow schedule = some m') : InStep Good m' := by
  -- By induction on the schedule: every step of it keeps the ranks in step.
  induction schedule generalizing m with
  | nil => exact Option.some.inj hrun ▸ h
  | cons r schedule ih =>
    obtain ⟨m₁, hstep, hrest⟩ := Option.bind_eq_some_iff.1 hrun
    exact ih (h.advance hgood hstep) hrest

/-- When a rank has ended, the phase is the last one. -/
private theorem Status.of_done {old : List (Receipt α)} {ph : Phase α β size} {meetings : Nat}
    {r : Fin size} {t : Thread α β} (h : Status old ph meetings r t) {b : β}
    (hpoint : t.point = .call (.done b)) :
    ∃ results, ph = .ended results ∧ t.ticket = none ∧ t.point = .call (.done (results r)) ∧
      t.received = old := by
  cases h with
  | late _ _ _ hbehind => rw [hpoint] at hbehind; cases hbehind
  | held _ _ hexit hbehind => rw [← hexit, hpoint] at hbehind; cases hbehind
  | fresh hticket hentry _ hreceived =>
    cases ph with
    | ended results => exact ⟨results, rfl, hticket, hentry, hreceived⟩
    | waiting | storing | reading => cases hpoint.symm.trans hentry
  | ready hticket hexit _ hreceived =>
    cases ph with
    | ended results => exact ⟨results, rfl, hticket, hexit, hreceived.trans (List.append_nil _)⟩
    | waiting | storing | reading => cases hpoint.symm.trans hexit

/-- A rank that cannot take a step is held back by the barrier, or has ended. -/
private theorem InPhase.of_stuck {m : Threads α β size} {old : List (Receipt α)}
    {ph : Phase α β size} (h : InPhase m old ph) {r : Fin size} (hstuck : m.advance r = none) :
    (m.thread r).ticket = some m.meetings ∨ ∃ b, (m.thread r).point = .call (.done b) := by
  obtain hheld | hdone | ⟨hsome, hnone⟩ := advance_eq_none hstuck
  · exact .inl hheld
  · exact .inr hdone
  · obtain ⟨ticket, hticket⟩ := Option.ne_none_iff_exists'.1 hsome
    by_cases hne : ticket = m.meetings
    · exact .inl (hne ▸ hticket)
    · -- It could leave the barrier.
      rw [((h.status r).of_old_ticket hticket hne).1] at hnone
      cases hnone

/-- If no rank of a group in step can take a step, all have ended. -/
theorem InStep.ended {m : Threads α β size} (h : InStep Good m)
    (hstuck : ∀ r, m.advance r = none) (hsize : 0 < size) :
    ∃ old, ∃ results : Fin size → β, Good old (fun r => .done (results r)) ∧
      ∀ r, (m.thread r).ticket = none ∧ (m.thread r).point = .call (.done (results r)) ∧
        (m.thread r).received = old := by
  obtain ⟨old, ph, hfits, hphase⟩ := h
  -- The barrier does not hold back all ranks, so one of them has ended, and the phase is the last.
  obtain ⟨r, hr⟩ := hphase.barrier.exists_free hsize
  obtain ⟨b, hdone⟩ := (hphase.of_stuck (hstuck r)).resolve_left hr
  obtain ⟨results, rfl, _⟩ := (hphase.status r).of_done hdone
  refine ⟨old, results, hfits, fun r' => ?_⟩
  obtain hheld | ⟨b', hdone'⟩ := hphase.of_stuck (hstuck r')
  · obtain ⟨⟨behind, hbehind⟩, _⟩ := (hphase.status r').of_ticket hheld
    cases hbehind
  · obtain ⟨results', heq, hended⟩ := (hphase.status r').of_done hdone'
    cases heq
    exact hended

private theorem lockstep_attains {R : Replies .closed size} {post : (Fin size → β) → Prop} :
    Lockstep fun (_ : List (Receipt α)) programs => Group.Attains R post programs := by
  intro old programs h
  cases h with
  | done results => exact .inl ⟨results, rfl⟩
  | wait next rest => exact .inr (.inl ⟨next, rfl, rest⟩)
  | gather kind values next rest => exact .inr (.inr ⟨kind, values, next, rfl, rest⟩)
  | alone _ _ q => cases q
  | together q => cases q

/-- What a group attains, its threads attain under every schedule: if none can take a step, all have
ended with results as wanted. -/
theorem ended_of_attains {R : Replies .closed size} {post : (Fin size → β) → Prop}
    {programs : Fin size → Program α .closed β} (h : Group.Attains R post programs)
    (hsize : 0 < size) (schedule : List (Fin size)) (m : Threads α β size)
    (hrun : (start programs).follow schedule = some m) (hstuck : ∀ r, m.advance r = none) :
    ∃ results, post results ∧ ∀ r, (m.thread r).point = .call (.done (results r)) := by
  have hstep := (inStep_start lockstep_attains h).follow lockstep_attains hrun
  obtain ⟨_, results, hattains, hended⟩ := hstep.ended hstuck hsize
  refine ⟨results, ?_, fun r => (hended r).2.1⟩
  -- Programs that have ended attain what they attain only by their results.
  generalize hprograms : (fun r => Program.done (results r)) = programs' at hattains
  have hfirst := congrFun hprograms ⟨0, hsize⟩
  cases hattains with
  | done results' holds =>
    have heq : results = results' := funext fun r => Program.done.inj (congrFun hprograms r)
    exact heq ▸ holds
  | wait | gather => cases hfirst
  | alone _ _ q => cases q
  | together q => cases q

/-! ## Rounds -/

/-- One of the calls that all ranks make. -/
inductive Round (α : Type) (size : Nat) where
  /-- They wait for each other. -/
  | barrier
  /-- Each rank hands over its value. -/
  | gather (kind : Payload) (values : Fin size → kind.Carrier α)

/-- The program of a rank that makes its calls one after the other. -/
def perform : List (Round α size) → Fin size → Program α .closed Unit
  | [], _ => .done ()
  | .barrier :: rounds, r => .wait (perform rounds r)
  | .gather kind values :: rounds, r => .gather kind (values r) fun _ => perform rounds r

/-- What a rank ought to receive from a list of calls: for every gathering the values of all ranks,
in their order. -/
def receipts : List (Round α size) → List (Receipt α)
  | [] => []
  | .barrier :: rounds => receipts rounds
  | .gather kind values :: rounds => ⟨kind, some (List.ofFn values)⟩ :: receipts rounds

private theorem receipts_append (rounds rounds' : List (Round α size)) :
    receipts (rounds ++ rounds') = receipts rounds ++ receipts rounds' := by
  induction rounds with
  | nil => rfl
  | cons round rounds ih =>
    cases round with
    | barrier => exact ih
    | gather kind values => exact congrArg (_ :: ·) ih

/-- The ranks have made the first of the calls and still have to make the others. -/
private def Performs (rounds : List (Round α size)) (old : List (Receipt α))
    (programs : Fin size → Program α .closed Unit) : Prop :=
  ∃ before after, rounds = before ++ after ∧ old = receipts before ∧ programs = perform after

private theorem lockstep_performs (rounds : List (Round α size)) : Lockstep (Performs rounds) := by
  rintro old programs ⟨before, after, hrounds, rfl, rfl⟩
  cases after with
  | nil => exact .inl ⟨fun _ => (), rfl⟩
  | cons round after =>
    have happend : rounds = (before ++ [round]) ++ after := by simpa using hrounds
    cases round with
    | barrier =>
      refine .inr (.inl ⟨perform after, rfl, before ++ [.barrier], after, happend, ?_, rfl⟩)
      rw [receipts_append]
      exact (List.append_nil _).symm
    | gather kind values =>
      refine .inr (.inr ⟨kind, values, fun r _ => perform after r, rfl,
        before ++ [.gather kind values], after, happend, ?_, rfl⟩)
      rw [receipts_append]
      rfl

private theorem Performs.old_prefix {rounds : List (Round α size)} {old : List (Receipt α)}
    {programs : Fin size → Program α .closed Unit} (h : Performs rounds old programs) :
    old <+: receipts rounds := by
  obtain ⟨before, after, rfl, rfl, _⟩ := h
  rw [receipts_append]
  exact List.prefix_append _ _

/-- What a rank has received is the beginning of what it ought to receive. -/
private theorem InStep.received_prefix {rounds : List (Round α size)} {m : Threads α Unit size}
    (h : InStep (Performs rounds) m) (r : Fin size) :
    (m.thread r).received <+: receipts rounds := by
  obtain ⟨old, ph, hfits, hphase⟩ := h
  -- Only a rank that has read its slots has received more than `old`, and that is `ph.news`.
  have hnews : old ++ ph.news <+: receipts rounds := by
    cases ph with
    | waiting next =>
      exact (List.append_nil old).symm ▸ Performs.old_prefix hfits
    | storing kind values next =>
      have := Performs.old_prefix hfits
      exact (List.append_nil old).symm ▸ (List.prefix_append old _).trans this
    | reading kind values next => exact Performs.old_prefix hfits
    | ended results => exact (List.append_nil old).symm ▸ Performs.old_prefix hfits
  have hold : old <+: receipts rounds := (List.prefix_append old _).trans hnews
  cases hphase.status r with
  | late _ _ _ _ _ hreceived => exact hreceived ▸ hold
  | fresh _ _ _ hreceived => exact hreceived ▸ hold
  | ready _ _ _ hreceived => exact hreceived ▸ hnews
  | held _ _ _ _ _ hreceived => exact hreceived ▸ hnews

/-- Isolation of rounds. All ranks of a group make the same calls, handing over any values. Whatever
the order in which they take their steps, the gatherings that a rank has completed have given it the
values that all ranks handed over to them, and when no rank can take a step, all have made all their
calls. -/
theorem rounds_isolated (rounds : List (Round α size)) (schedule : List (Fin size))
    (m : Threads α Unit size) (hrun : (start (perform rounds)).follow schedule = some m) :
    (∀ r, (m.thread r).received <+: receipts rounds) ∧
      ((∀ r, m.advance r = none) →
        ∀ r, (m.thread r).Ended ∧ (m.thread r).received = receipts rounds) := by
  have hstart : InStep (Performs rounds) (start (perform rounds)) :=
    inStep_start (lockstep_performs rounds) ⟨[], rounds, rfl, rfl, rfl⟩
  have hstep : InStep (Performs rounds) m := hstart.follow (lockstep_performs rounds) hrun
  refine ⟨fun r => hstep.received_prefix r, fun hstuck r => ?_⟩
  obtain ⟨old, results, ⟨before, after, hrounds, hold, hprograms⟩, hended⟩ :=
    hstep.ended hstuck (Nat.zero_lt_of_lt r.isLt)
  obtain ⟨hticket, hpoint, hreceived⟩ := hended r
  -- Only the empty list of calls has a program that has ended.
  cases after with
  | nil =>
    rw [List.append_nil] at hrounds
    exact ⟨⟨hticket, _, hpoint⟩, hreceived.trans (hold.trans (congrArg receipts hrounds.symm))⟩
  | cons round after =>
    have hr := congrFun hprograms r
    cases round <;> cases hr

/-- Two ranks that gather numbers, wait for each other, and gather truth values. The first one goes
ahead whenever it can, and both receive what was handed over in either gathering. -/
theorem rounds_isolated_two_ranks :
    let rounds : List (Round Nat 2) :=
      [.gather .number fun r => r.val + 7, .barrier, .gather .flag fun r => r == 0]
    let schedule : List (Fin 2) :=
      [0, 0, 1, 1, 0, 0, 0, 1, 1, 0, 0, 1, 0, 0, 0, 1, 1, 0, 0, 0, 1, 1, 0]
    ∃ m, (start (perform rounds)).follow schedule = some m ∧ ∀ r, (m.thread r).Ended ∧
      (m.thread r).received =
        [⟨.number, some ([7, 8] : List Nat)⟩, ⟨.flag, some [true, false]⟩] := by
  intro rounds schedule
  have hend : (((start (perform rounds)).follow schedule).any fun m =>
      decide (∀ r, (m.advance r).isNone)) = true := by
    decide +kernel
  obtain ⟨m, hrun, hstuck⟩ := (Option.any_eq_true _ _).1 hend
  refine ⟨m, hrun, (rounds_isolated rounds schedule m hrun).2 fun r => ?_⟩
  exact Option.isNone_iff_eq_none.1 (of_decide_eq_true hstuck r)

end Threads

end DualHessian
