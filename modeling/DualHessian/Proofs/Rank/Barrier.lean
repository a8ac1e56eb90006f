import DualHessian.Proofs.Rank.Threads
import Mathlib.Data.Fintype.Card

/-!
# The barrier of a group

What the barrier knows of the threads, whatever they do otherwise: it has counted those that it
holds back, and it never holds back all of them.

* `Threads.Counted` is this invariant. It is kept when a thread moves outside the barrier
  (`Threads.Counted.put`) and when one arrives (`Threads.Counted.arrive`).
* `Threads.Counted.others_held` says that the last thread to arrive finds all others held back, and
  `Threads.Counted.exists_free` that some thread is not.
* `Threads.Begins` is the state of the threads right after a meeting, in front of given programs.
-/

namespace DualHessian

namespace Threads

variable {α β : Type} {size : Nat} {m : Threads α β size} {r : Fin size} {behind : Point α β}

/-! ## Arrivals -/

theorem arrive_of_last (hlast : m.arrived + 1 = size) (r : Fin size) (behind : Point α β) :
    m.arrive r behind =
      { thread := Function.update m.thread r { m.thread r with point := behind }
        arrived := 0
        meetings := m.meetings + 1 } :=
  if_pos hlast

theorem arrive_of_not_last (hlast : m.arrived + 1 ≠ size) (r : Fin size) (behind : Point α β) :
    m.arrive r behind =
      { thread := Function.update m.thread r { m.thread r with ticket := some m.meetings }
        arrived := m.arrived + 1
        meetings := m.meetings } :=
  if_neg hlast

theorem thread_arrive_ne {r' : Fin size} (h : r' ≠ r) :
    (m.arrive r behind).thread r' = m.thread r' := by
  unfold arrive
  split <;> simp [h]

/-- A step of one thread leaves the others alone. -/
theorem thread_advance_ne {m' : Threads α β size} (hstep : m.advance r = some m') {r' : Fin size}
    (h : r' ≠ r) : m'.thread r' = m.thread r' := by
  obtain ⟨_, _, _, _, _, rfl⟩ | ⟨_, _, _, _, rfl⟩ | ⟨_, _, _, rfl⟩ | ⟨_, _, _, _, _, rfl⟩ :=
    advance_cases hstep
  · exact thread_put_ne m h _
  · exact thread_put_ne m h _
  · exact thread_arrive_ne h
  · exact thread_put_ne m h _

/-! ## The invariant -/

/-- The barrier has counted the threads that it holds back, which are not all. -/
structure Counted (m : Threads α β size) : Prop where
  /-- The threads held back are counted. -/
  counted : ∃ s : Finset (Fin size),
    (∀ r, r ∈ s ↔ (m.thread r).ticket = some m.meetings) ∧ m.arrived = s.card
  /-- Some thread is not held back. -/
  room : ∀ _ : Fin size, m.arrived < size

namespace Counted

/-- The barrier right after a meeting. -/
theorem of_none_held (harrived : m.arrived = 0) (h : ∀ r, (m.thread r).ticket ≠ some m.meetings) :
    Counted m where
  counted := ⟨∅, fun r => iff_of_false (Finset.notMem_empty r) (h r), harrived⟩
  room r := harrived ▸ Nat.zero_lt_of_lt r.isLt

variable (h : Counted m)

include h

/-- A thread may change outside the barrier. -/
theorem put {t : Thread α β} (hbefore : (m.thread r).ticket ≠ some m.meetings)
    (hafter : t.ticket = none) : Counted (m.put r t) where
  counted := by
    obtain ⟨s, hs, hcard⟩ := h.counted
    refine ⟨s, fun r' => ?_, hcard⟩
    rw [hs r']
    by_cases heq : r' = r
    · subst heq
      rw [thread_put_self, hafter]
      exact iff_of_false hbefore nofun
    · rw [thread_put_ne m heq]
      exact Iff.rfl
  room := h.room

/-- When the last thread arrives, all others are held back. -/
theorem others_held (hticket : (m.thread r).ticket = none) (hlast : m.arrived + 1 = size)
    {r' : Fin size} (hne : r' ≠ r) : (m.thread r').ticket = some m.meetings := by
  obtain ⟨s, hs, hcard⟩ := h.counted
  have hr : r ∉ s := fun hr => nomatch hticket.symm.trans ((hs r).1 hr)
  -- Otherwise the barrier would still wait for another one.
  have hall : insert r s = Finset.univ := by
    rw [← Finset.card_eq_iff_eq_univ, Finset.card_insert_of_notMem hr, ← hcard, hlast,
      Fintype.card_fin]
  have hmem : r' ∈ insert r s := hall ▸ Finset.mem_univ r'
  exact (hs r').1 ((Finset.mem_insert.1 hmem).resolve_left hne)

/-- A thread may arrive at the barrier. -/
theorem arrive (hticket : (m.thread r).ticket = none) : Counted (m.arrive r behind) := by
  by_cases hlast : m.arrived + 1 = size
  · rw [arrive_of_last hlast]
    refine of_none_held rfl fun r' => ?_
    -- No ticket bears the new number of meetings.
    by_cases heq : r' = r
    · subst heq
      simp [hticket]
    · simp [heq, h.others_held hticket hlast heq]
  · obtain ⟨s, hs, hcard⟩ := h.counted
    have hr : r ∉ s := fun hr => nomatch hticket.symm.trans ((hs r).1 hr)
    rw [arrive_of_not_last hlast]
    -- The thread is one more that is held back, and the last one is still missing.
    refine ⟨⟨insert r s, fun r' => ?_, ?_⟩, fun r' => ?_⟩
    · rw [Finset.mem_insert, hs r']
      by_cases heq : r' = r
      · subst heq
        simp
      · simp [heq]
    · rw [Finset.card_insert_of_notMem hr, hcard]
    · have hroom := h.room r'
      show m.arrived + 1 < size
      omega

/-- The barrier does not hold back all threads. -/
theorem exists_free (hsize : 0 < size) : ∃ r, (m.thread r).ticket ≠ some m.meetings := by
  by_contra hall
  push Not at hall
  -- Then the barrier would have counted all threads.
  obtain ⟨s, hs, hcard⟩ := h.counted
  have huniv : s = Finset.univ := Finset.eq_univ_of_forall fun r => (hs r).2 (hall r)
  have hroom := h.room ⟨0, hsize⟩
  rw [hcard, huniv, Finset.card_univ, Fintype.card_fin] at hroom
  exact Nat.lt_irrefl _ hroom

end Counted

/-! ## Beginnings -/

/-- The threads begin their programs. Some may still be on their way out of the barrier, and their
slots may hold anything. -/
structure Begins (m : Threads α β size) (programs : Fin size → Program α .closed β) : Prop where
  /-- None has arrived at the barrier since the last meeting. -/
  arrived : m.arrived = 0
  /-- All stand in front of their programs. -/
  standing : ∀ r,
    ((m.thread r).ticket = none ∧ (m.thread r).point = .call (programs r)) ∨
      ∃ ticket, (m.thread r).ticket = some ticket ∧ ticket ≠ m.meetings ∧
        (m.thread r).point.behind? = some (.call (programs r))

theorem Begins.counted {m : Threads α β size} {programs : Fin size → Program α .closed β}
    (h : m.Begins programs) : Counted m := by
  refine .of_none_held h.arrived fun r => ?_
  obtain ⟨hticket, _⟩ | ⟨ticket, hticket, hne, _⟩ := h.standing r
  · simp [hticket]
  · simpa [hticket] using hne

theorem begins_start (programs : Fin size → Program α .closed β) :
    (start programs).Begins programs where
  arrived := rfl
  standing _ := .inl ⟨rfl, rfl⟩

/-- The threads at the beginning of their programs after one meeting. Some are late, and the slots
may hold something from before. -/
def resume (slots : Fin size → Option (Slot α)) (late : Fin size → Bool)
    (programs : Fin size → Program α .closed β) : Threads α β size where
  thread r :=
    if late r then ⟨slots r, .meet (.call (programs r)), some 0, []⟩
    else ⟨slots r, .call (programs r), none, []⟩
  arrived := 0
  meetings := 1

theorem begins_resume (slots : Fin size → Option (Slot α)) (late : Fin size → Bool)
    (programs : Fin size → Program α .closed β) : (resume slots late programs).Begins programs where
  arrived := rfl
  standing r := by
    cases h : late r with
    | false => exact .inl (by simp [resume, h])
    | true =>
      exact .inr ⟨0, by simp [resume, h], Nat.zero_ne_one, by simp [resume, h, Point.behind?]⟩

end Threads

end DualHessian
