import DualHessian.Hessian.Assembly
import DualHessian.Proofs.Distributed.Accumulation
import DualHessian.Proofs.Rank.Service
import Mathlib.Data.List.Infix

/-!
# The assembler keeps the ranks in lockstep

The ranks of a group may see different sparsity patterns, own different rows and drop different
derivatives. Nevertheless all of them issue the same calls, which depend only on the size of the
matrix and on the pairs that belong to the pattern of at least one rank. If a sample fails on some
rank, all ranks stop together.

* `Assembler.schedule` lists the calls of an assembly that is not stopped.
* `Assembler.Visited` is what the ranks have done and found after some of the pairs, and
  `Assembler.Halted` what they have done when a sample has failed. One pair keeps the first or leads
  to the second, and so do all pairs (`Assembler.decides_visit`, `Assembler.decides_visitAll`).
* `Assembler.decides_assembleOpenly` says what comes out of an assembly whose samples may fail, and
  `Assembler.issues_assemble` which calls it issues if none does.
-/

namespace DualHessian

/-- Whether a request of an assembly is put by all ranks together: samples are, notes are not. -/
def Sampling.isSample {α : Type} : (Sampling α).Request → Bool
  | .note _ => false
  | .sample _ => true

/-- The replies of a service whose samples may fail: those of all ranks to one list of perturbations
are related to it by `S`. Notes are taken by each rank on its own. -/
def Replies.answering {α : Type} (size : Nat)
    (S : List (Perturbation α) → (Fin size → Except Failure α) → Prop) :
    Replies (Sampling α) size where
  shared := Sampling.isSample
  alone _ _ _ := True
  together
    | .note _, _ => True
    | .sample perturbations, replies => S perturbations replies

/-- The samples have succeeded, and their values are related to the perturbations by `S`. -/
def Succeeding {α : Type} {size : Nat} (S : List (Perturbation α) → (Fin size → α) → Prop)
    (perturbations : List (Perturbation α)) (replies : Fin size → Except Failure α) : Prop :=
  ∃ x, S perturbations x ∧ replies = fun r => .ok (x r)

/-- The replies of a service whose samples succeed. -/
abbrev Replies.sampling {α : Type} (size : Nat)
    (S : List (Perturbation α) → (Fin size → α) → Prop) : Replies (Sampling α) size :=
  .answering size (Succeeding S)

/-- The perturbations of a sample that has been taken, and its outcome on a rank. -/
def Exchange.sample? {α : Type} :
    Exchange (Sampling α) → Option (List (Perturbation α) × Except Failure α)
  | .request (.sample perturbations) reply => some (perturbations, reply)
  | _ => none

/-- The samples that a rank has taken, in order. -/
def samplesIn {α : Type} (es : List (Exchange (Sampling α))) :
    List (List (Perturbation α) × Except Failure α) :=
  es.filterMap Exchange.sample?

namespace Tally

variable {α : Type} {n : Nat}

/-- A rank deposits into its own rows only. -/
theorem owns_of_mem_deposits {p : Partition n} {t : Tally α n} {e : Entry α}
    (he : e ∈ (t.deposits p).entries) : p.owns e.row = true := by
  obtain ⟨⟨i, j, value⟩, _, he⟩ := List.mem_flatMap.1 he
  simp only [ownEntries, List.mem_append, List.mem_ite_nil_right, List.mem_singleton] at he
  rcases he with ⟨h, rfl⟩ | ⟨h, rfl⟩
  · exact h
  · exact h.2

variable [Magnitude α]

/-- One more derivative, which is stored unless its magnitude is below the tolerance. -/
def add (tolerance : α) (i j : Fin n) (value : α) (t : Tally α n) : Tally α n :=
  if Magnitude.less (Magnitude.abs value) tolerance then t.drop else t.keep i j value

/-- What a rank has found after evaluating pairs with the given values. -/
def ofFound (tolerance : α) (found : List (Fin n × Fin n × α)) : Tally α n :=
  found.foldl (fun t e => t.add tolerance e.1 e.2.1 e.2.2) .empty

/-- A further estimate is added after those found before. -/
theorem ofFound_append (tolerance : α) (found : List (Fin n × Fin n × α)) (i j : Fin n)
    (value : α) :
    ofFound tolerance (found ++ [(i, j, value)]) =
      (ofFound tolerance found).add tolerance i j value := by
  simp [ofFound]

end Tally

namespace Assembler

variable {α : Type} {n size : Nat}

/-! ## The schedule -/

section Schedule

variable [Arithmetic α]

/-- The samples of one pair, the second direction varying fastest. -/
def sampleCalls (h : α) (i j : Nat) : List (Call (Sampling α)) :=
  [-2, -1, 0, 1, 2].flatMap fun di => [-2, -1, 0, 1, 2].map fun dj =>
    .request (.sample [⟨i, whole di * h⟩, ⟨j, whole dj * h⟩])

/-- The calls for one pair: the ranks agree on whether it is present, and if it is they take the
samples and agree on whether some sample has failed. -/
def pairCalls (h : α) (present : Nat → Nat → Bool) (i j : Nat) : List (Call (Sampling α)) :=
  .gather .flag :: if present i j then sampleCalls h i j ++ [.gather .flag] else []

/-- The calls of an assembly: those for all pairs `i ≤ j`, row by row, and the exchange of what has
been found for rows of other ranks. -/
def schedule (h : α) (n : Nat) (present : Nat → Nat → Bool) : List (Call (Sampling α)) :=
  ((upperPairs n).flatMap fun e => pairCalls h present e.1 e.2) ++ [.gather .entries]

/-- The derivative that is combined from values on the grid. -/
def combined (h : α) (values : List α) : α := Stencil.fourthOrder.combine (onGridOf values) h

/-- A derivative on every rank: it is combined from values on the grid that are replies to the
samples of the pair. -/
def Estimate (S : List (Perturbation α) → (Fin size → α) → Prop) (h : α) (i j : Nat)
    (v : Fin size → α) : Prop :=
  ∃ samples : List (Fin size → α),
    List.Forall₂ (fun d x => S (gridPerturbations h i j d) x) grid samples ∧
      v = fun r => Stencil.fourthOrder.combine (onGridOf (samples.map (· r))) h

end Schedule

/-! ## One pair -/

section Pair

variable {S : List (Perturbation α) → (Fin size → Except Failure α) → Prop}

/-- Some rank has got a failure for a sample. -/
def Failing (S : List (Perturbation α) → (Fin size → Except Failure α) → Prop)
    (es : Fin size → List (Exchange (Sampling α))) : Prop :=
  ∃ perturbations replies r, S perturbations replies ∧
    (perturbations, replies r) ∈ samplesIn (es r) ∧ (replies r).isOk = false

/-- The values of replies, or the first failure among them. -/
def collected (replies : List (Except Failure α)) : Except Failure (List α) := replies.mapM id

/-- Replies can be collected if none is a failure. -/
theorem isOk_collected {replies : List (Except Failure α)} :
    (collected replies).isOk = replies.all (·.isOk) := by
  unfold collected
  induction replies with
  | nil => rfl
  | cons reply replies ih =>
    rw [List.mapM_cons, List.all_cons, ← ih]
    cases reply with
    | error f => rfl
    | ok x => cases replies.mapM id <;> rfl

/-- Values without a failure are collected as they are. -/
theorem collected_ok (values : List α) : collected (values.map .ok) = .ok values := by
  unfold collected
  induction values with
  | nil => rfl
  | cons x values ih =>
    rw [List.map_cons, List.mapM_cons, ih]
    rfl

/-- The first failure among replies. -/
def firstFailure? (replies : List (Except Failure α)) : Option Failure :=
  replies.findSome? fun
    | .ok _ => none
    | .error f => some f

/-- Replies are collected up to the first failure. -/
theorem collected_eq (replies : List (Except Failure α)) :
    collected replies = match firstFailure? replies with
      | some f => .error f
      | none => .ok (replies.filterMap Except.toOption) := by
  unfold collected firstFailure?
  induction replies with
  | nil => rfl
  | cons reply replies ih =>
    rw [List.mapM_cons, ih]
    cases reply with
    | error f => rfl
    | ok x =>
      rw [List.findSome?_cons]
      cases replies.findSome? _ <;> rfl

private theorem isOk_map {β γ : Type} (f : β → γ) (outcome : Except Failure β) :
    (outcome.map f).isOk = outcome.isOk := by
  cases outcome with
  | ok b => rfl
  | error f => rfl

/-- A rank collects its own values. -/
theorem collected_values (values : List (Fin size → α)) (r : Fin size) :
    collected ((values.map fun x r => (.ok (x r) : Except Failure α)).map (· r)) =
      .ok (values.map (· r)) := by
  rw [List.map_map, ← collected_ok, List.map_map]
  rfl

/-- Some rank has no result exactly if some sample has failed on it. -/
private theorem exists_not_ok_iff {γ : Type} {f : List α → γ}
    {replies : List (Fin size → Except Failure α)} :
    (∃ r : Fin size, (!((collected (replies.map (· r))).map f).isOk) = true) ↔
      ∃ r, ∃ reply ∈ replies, (reply r).isOk = false := by
  refine exists_congr fun r => ?_
  rw [isOk_map, isOk_collected, List.all_map, Bool.not_eq_true', List.all_eq_false]
  simp

/-- Replies of which none has failed on any rank are values. -/
private theorem exists_values {replies : List (Fin size → Except Failure α)}
    (h : ¬∃ r, ∃ reply ∈ replies, (reply r).isOk = false) :
    ∃ values : List (Fin size → α), replies = values.map fun x r => .ok (x r) := by
  have hreply : ∀ reply ∈ replies, ∀ r, ∃ x, reply r = .ok x := by
    intro reply hmem r
    cases hr : reply r with
    | ok x => exact ⟨x, rfl⟩
    | error f => exact absurd ⟨r, reply, hmem, by rw [hr]; rfl⟩ h
  clear h
  induction replies with
  | nil => exact ⟨[], rfl⟩
  | cons reply replies ih =>
    obtain ⟨values, rfl⟩ := ih fun reply' hmem => hreply reply' (List.mem_cons_of_mem _ hmem)
    choose x hx using hreply reply List.mem_cons_self
    exact ⟨x :: values, by rw [List.map_cons, ← funext hx]⟩

/-- A reply is one to a list of perturbations, with which it is listed. -/
private theorem exists_perturbations {δ : Type} {f : δ → List (Perturbation α)} {ds : List δ}
    {replies : List (Fin size → Except Failure α)}
    (h : List.Forall₂ (fun d reply => S (f d) reply) ds replies)
    {reply : Fin size → Except Failure α} (hreply : reply ∈ replies) (r : Fin size) :
    ∃ perturbations, S perturbations reply ∧
      (perturbations, reply r) ∈ (ds.map f).zip (replies.map (· r)) := by
  induction h with
  | nil => cases hreply
  | @cons d first ds replies hfirst _ ih =>
    rcases List.mem_cons.1 hreply with rfl | hreply
    · exact ⟨f d, hfirst, List.mem_cons_self⟩
    · obtain ⟨perturbations, hadmitted, hmem⟩ := ih hreply
      exact ⟨perturbations, hadmitted, List.mem_cons_of_mem _ hmem⟩

variable [Arithmetic α]

/-- The exchanges of the samples of one pair. -/
def sampleExchanges (h : α) (i j : Nat) (replies : List (Except Failure α)) :
    List (Exchange (Sampling α)) :=
  ((grid.map (gridPerturbations h i j)).zip replies).map fun s => .request (.sample s.1) s.2

omit [Arithmetic α] in
private theorem samples_of_turns {f : Int × Int → List (Perturbation α)} {ds : List (Int × Int)}
    {turns : List ((Fin size → List (Exchange (Sampling α))) × (Fin size → Except Failure α))}
    (h : List.Forall₂ (fun d turn => S (f d) turn.2 ∧
      turn.1 = fun r => [.request (.sample (f d)) (turn.2 r)]) ds turns) :
    List.Forall₂ (fun d reply => S (f d) reply) ds (turns.map (·.2)) ∧
      ∀ r, (turns.flatMap fun turn => turn.1 r) =
        ((ds.map f).zip (turns.map fun turn => turn.2 r)).map fun s =>
          .request (.sample s.1) s.2 := by
  induction h with
  | nil => exact ⟨.nil, fun _ => rfl⟩
  | cons hturn _ ih =>
    obtain ⟨hreply, hexchanges⟩ := hturn
    refine ⟨.cons hreply ih.1, fun r => ?_⟩
    rw [List.flatMap_cons, hexchanges, ih.2 r]
    rfl

/-- Evaluating a pair takes its samples, and combines their values if none has failed. -/
theorem traces_evaluate (h : α) (i j : Nat) :
    Group.Traces (.answering size S)
      (fun es out => ∃ replies : List (Fin size → Except Failure α),
        List.Forall₂ (fun d reply => S (gridPerturbations h i j d) reply) grid replies ∧
          es = (fun r => sampleExchanges h i j (replies.map (· r))) ∧
            out = fun r => (collected (replies.map (· r))).map (combined h))
      fun _ => evaluate h i j := by
  have hsample : ∀ d, Group.Traces (.answering size S)
      (fun es replies => S (gridPerturbations h i j d) replies ∧
        es = fun r => [.request (.sample (gridPerturbations h i j d)) (replies r)])
      fun _ => takeSample (gridPerturbations h i j d) := fun d =>
    Group.Traces.request (R := .answering size S) (q := .sample (gridPerturbations h i j d)) rfl
  unfold evaluate gridSamples
  simp only [bind_assoc, pure_bind]
  refine (Group.Traces.mapM hsample grid).bind _ ?_
  rintro _ _ ⟨turns, hturns, rfl, rfl⟩
  obtain ⟨hadmitted, hexchanges⟩ := samples_of_turns hturns
  refine Group.Traces.done ⟨turns.map (·.2), hadmitted, ?_, ?_⟩
  · funext r
    rw [List.append_nil]
    refine (hexchanges r).trans ?_
    rw [sampleExchanges, List.map_map]
    rfl
  · funext r
    rw [List.map_map]
    rfl

omit [Arithmetic α] in
/-- The samples of two logs are those of the first and then those of the second. -/
theorem samplesIn_append (es es' : List (Exchange (Sampling α))) :
    samplesIn (es ++ es') = samplesIn es ++ samplesIn es' := List.filterMap_append

/-- The samples of a pair are those of the grid with their replies. -/
theorem samplesIn_sampleExchanges (h : α) (i j : Nat) (replies : List (Except Failure α)) :
    samplesIn (sampleExchanges h i j replies) =
      (grid.map (gridPerturbations h i j)).zip replies := by
  rw [samplesIn, sampleExchanges, List.filterMap_map]
  exact List.filterMap_some

/-- The calls for the samples of a pair do not depend on the replies. -/
theorem map_call_sampleExchanges {h : α} {i j : Nat} {replies : List (Except Failure α)}
    (hlength : replies.length = grid.length) :
    (sampleExchanges h i j replies).map Exchange.call = sampleCalls h i j := by
  have hfst : ((grid.map (gridPerturbations h i j)).zip replies).map (·.1) =
      grid.map (gridPerturbations h i j) :=
    List.map_fst_zip (by rw [List.length_map, hlength])
  have hcalls : (sampleExchanges h i j replies).map Exchange.call =
      (((grid.map (gridPerturbations h i j)).zip replies).map (·.1)).map fun perturbations =>
        .request (.sample perturbations) := by
    rw [sampleExchanges, List.map_map, List.map_map]
    rfl
  rw [hcalls, hfst]
  rfl

omit [Arithmetic α] in
/-- The notes of the first rank are no exchanges. -/
theorem decides_noteOnRoot
    {halt : (Fin size → List (Exchange (Sampling α))) → (Fin size → Stop) → Prop}
    (c : Fin size → Place) (progress : Fin size → Progress α) :
    Group.Decides (.answering size S) halt (fun es out => es = (fun _ => []) ∧ out = fun _ => ())
      fun r => noteOnRoot (c r) (progress r) := by
  refine .of_alone fun r => ?_
  unfold noteOnRoot
  split
  · exact .ask _ _ rfl fun _ _ => .done _ rfl
  · exact .done _ rfl

variable [Magnitude α]

/-- Taking a derivative into the tally is no exchange. -/
theorem decides_take
    {halt : (Fin size → List (Exchange (Sampling α))) → (Fin size → Stop) → Prop}
    (a : Fin size → Assembler α) (i j : Fin n) (v : Fin size → α) (t : Fin size → Tally α n) :
    Group.Decides (.answering size S) halt
      (fun es out => es = (fun _ => []) ∧ out = fun r => (t r).add (a r).dropTolerance i j (v r))
      fun r => (a r).take i j (v r) (t r) := by
  refine .of_alone fun r => ?_
  unfold take Tally.add
  split
  · exact .ask _ _ rfl fun _ _ => .done _ rfl
  · exact .ask _ _ rfl fun _ _ => .done _ rfl

/-- Whether some rank's pattern has a position. -/
def anyHolds (pattern : Fin size → Occupancy) (i j : Nat) : Bool :=
  decide (∃ r, (pattern r).holds i j = true)

/-- What all ranks have done and found after the given pairs. For those that are present, every
sample has succeeded on all ranks; `found` lists their values with the pairs. -/
structure Visited (S : List (Perturbation α) → (Fin size → Except Failure α) → Prop) (h : α)
    (tolerance : Fin size → α) (present : Nat → Nat → Bool) (pairs : List (Fin n × Fin n))
    (found : List (Fin n × Fin n × List (Fin size → α)))
    (es : Fin size → List (Exchange (Sampling α))) (tallies : Fin size → Tally α n) : Prop where
  /-- The pairs that are present have been evaluated. -/
  pairs_eq : found.map (fun e => (e.1, e.2.1)) = pairs.filter fun e => present e.1 e.2
  /-- The values are replies to the samples of their pair. -/
  admitted : ∀ e ∈ found, List.Forall₂
    (fun d x => S (gridPerturbations h e.1 e.2.1 d) fun r => .ok (x r)) grid e.2.2
  /-- Every rank has issued the calls of all pairs. -/
  calls_eq : ∀ r, (es r).map Exchange.call = pairs.flatMap fun e => pairCalls h present e.1 e.2
  /-- Every rank has got its own values. -/
  samples_eq : ∀ r, samplesIn (es r) = found.flatMap fun e =>
    (grid.map (gridPerturbations h e.1 e.2.1)).zip (e.2.2.map fun x => .ok (x r))
  /-- Every rank has taken the derivatives into its tally that are combined from its own values. -/
  tallies_eq : tallies = fun r => Tally.ofFound (tolerance r)
    (found.map fun e => (e.1, e.2.1, combined h (e.2.2.map (· r))))

namespace Visited

variable {h : α} {tolerance : Fin size → α} {present : Nat → Nat → Bool}
  {pairs : List (Fin n × Fin n)} {found : List (Fin n × Fin n × List (Fin size → α))}
  {es : Fin size → List (Exchange (Sampling α))} {t : Fin size → Tally α n}

/-- Before the first pair, nothing is found. -/
theorem nil : Visited S h tolerance present [] [] (fun _ => []) fun _ => Tally.empty (n := n) where
  pairs_eq := rfl
  admitted _ he := nomatch he
  calls_eq _ := rfl
  samples_eq _ := rfl
  tallies_eq := rfl

/-- A pair that no rank's pattern has. -/
theorem skip (ht : Visited S h tolerance present pairs found es t) {i j : Fin n}
    (hpresent : present i j = false) :
    Visited S h tolerance present (pairs ++ [(i, j)]) found
      (fun r => es r ++ [.gather .flag]) t where
  pairs_eq := by
    rw [ht.pairs_eq, List.filter_append, List.filter_cons_of_neg (by simp [hpresent]),
      List.filter_nil, List.append_nil]
  admitted := ht.admitted
  calls_eq r := by
    rw [List.map_append, ht.calls_eq r, List.flatMap_append, List.flatMap_singleton, pairCalls,
      hpresent]
    rfl
  samples_eq r := by
    rw [samplesIn_append, ht.samples_eq r]
    exact List.append_nil _
  tallies_eq := ht.tallies_eq

/-- A pair that some rank's pattern has, and of which no sample has failed. -/
theorem step (ht : Visited S h tolerance present pairs found es t) {i j : Fin n}
    (hpresent : present i j = true) {values : List (Fin size → α)}
    (hvalues : List.Forall₂ (fun d x => S (gridPerturbations h i j d) fun r => .ok (x r)) grid
      values) :
    Visited S h tolerance present (pairs ++ [(i, j)]) (found ++ [(i, j, values)])
      (fun r => es r ++ ([.gather .flag] ++
        (sampleExchanges h i j (values.map fun x => .ok (x r)) ++ [.gather .flag])))
      fun r => (t r).add (tolerance r) i j (combined h (values.map (· r))) where
  pairs_eq := by
    rw [List.map_append, ht.pairs_eq, List.filter_append,
      List.filter_cons_of_pos (by simp [hpresent])]
    rfl
  admitted e he := by
    rcases List.mem_append.1 he with he | he
    · exact ht.admitted e he
    · rw [List.mem_singleton.1 he]
      exact hvalues
  calls_eq r := by
    have hlength : (values.map fun x => (.ok (x r) : Except Failure α)).length = grid.length := by
      rw [List.length_map, hvalues.length_eq]
    rw [List.map_append, List.map_append, List.map_append, ht.calls_eq r,
      map_call_sampleExchanges hlength, List.flatMap_append, List.flatMap_singleton, pairCalls,
      hpresent]
    rfl
  samples_eq r := by
    rw [samplesIn_append, samplesIn_append, samplesIn_append, ht.samples_eq r,
      samplesIn_sampleExchanges, List.flatMap_append, List.flatMap_singleton]
    exact congrArg (_ ++ ·) (List.append_nil _)
  tallies_eq := by
    rw [ht.tallies_eq]
    funext r
    rw [List.map_append, List.map_singleton, Tally.ofFound_append]

end Visited

/-- A rank reports its own first failure, and if it has none a failure on another rank. -/
def reportedAt (i j : Nat) (replies : List (Except Failure α)) : Failure :=
  match firstFailure? replies with
  | some f => f.wrap (.entry i j)
  | none => .of (.entryElsewhere i j)

/-- What all ranks have done when they stop at a pair because some sample of it has failed. The
pairs `before` it come first; `found` lists those of them that are present with the values of their
samples, and `replies` are those to the samples of the pair itself. -/
structure Halted (S : List (Perturbation α) → (Fin size → Except Failure α) → Prop) (h : α)
    (present : Nat → Nat → Bool) (before : List (Fin n × Fin n)) (i j : Fin n)
    (found : List (Fin n × Fin n × List (Fin size → α)))
    (replies : List (Fin size → Except Failure α))
    (es : Fin size → List (Exchange (Sampling α))) (stops : Fin size → Stop) : Prop where
  /-- The pair is present. -/
  present_eq : present i j = true
  /-- The pairs before it that are present have been evaluated. -/
  pairs_eq : found.map (fun e => (e.1, e.2.1)) = before.filter fun e => present e.1 e.2
  /-- Every sample of theirs has succeeded on all ranks. -/
  succeeded : ∀ e ∈ found, List.Forall₂
    (fun d x => S (gridPerturbations h e.1 e.2.1 d) fun r => .ok (x r)) grid e.2.2
  /-- All samples of the pair have been taken. -/
  admitted : List.Forall₂ (fun d reply => S (gridPerturbations h i j d) reply) grid replies
  /-- One of them has failed on some rank. -/
  failed : ∃ r, ∃ reply ∈ replies, (reply r).isOk = false
  /-- Every rank has issued all calls of the pairs up to this one. -/
  calls_eq : ∀ r, (es r).map Exchange.call =
    (before ++ [(i, j)]).flatMap fun e => pairCalls h present e.1 e.2
  /-- Every rank has got its own replies. -/
  samples_eq : ∀ r, samplesIn (es r) =
    (found.flatMap fun e =>
      (grid.map (gridPerturbations h e.1 e.2.1)).zip (e.2.2.map fun x => .ok (x r))) ++
        (grid.map (gridPerturbations h i j)).zip (replies.map (· r))
  /-- Every rank reports what it has got for the pair. -/
  stops_eq : ∀ r, stops r = .failed (reportedAt i j (replies.map (· r)))

/-- All ranks stop at one of the pairs. -/
def HaltedWithin (S : List (Perturbation α) → (Fin size → Except Failure α) → Prop) (h : α)
    (present : Nat → Nat → Bool) (pairs : List (Fin n × Fin n))
    (es : Fin size → List (Exchange (Sampling α))) (stops : Fin size → Stop) : Prop :=
  ∃ before i j found replies,
    before ++ [(i, j)] <+: pairs ∧ Halted S h present before i j found replies es stops

omit [Magnitude α] in
/-- Where all ranks stop, some rank has got a failure. -/
theorem HaltedWithin.failing {h : α} {present : Nat → Nat → Bool} {pairs : List (Fin n × Fin n)}
    {es : Fin size → List (Exchange (Sampling α))} {stops : Fin size → Stop}
    (hhalted : HaltedWithin S h present pairs es stops) : Failing S es := by
  obtain ⟨_, i, j, _, replies, -, hhalted⟩ := hhalted
  obtain ⟨r, reply, hreply, hfailed⟩ := hhalted.failed
  obtain ⟨perturbations, hadmitted, hmem⟩ := exists_perturbations hhalted.admitted hreply r
  refine ⟨perturbations, reply, r, hadmitted, ?_, hfailed⟩
  rw [hhalted.samples_eq r]
  exact List.mem_append_right _ hmem

/-- A pair that some rank's pattern has, and of which a sample has failed. -/
theorem Visited.halt {h : α} {tolerance : Fin size → α} {present : Nat → Nat → Bool}
    {pairs : List (Fin n × Fin n)} {found : List (Fin n × Fin n × List (Fin size → α))}
    {es : Fin size → List (Exchange (Sampling α))} {t : Fin size → Tally α n}
    (ht : Visited S h tolerance present pairs found es t) {i j : Fin n}
    (hpresent : present i j = true) {replies : List (Fin size → Except Failure α)}
    (hreplies : List.Forall₂ (fun d reply => S (gridPerturbations h i j d) reply) grid replies)
    (hfailed : ∃ r, ∃ reply ∈ replies, (reply r).isOk = false) :
    Halted S h present pairs i j found replies
      (fun r => es r ++ ([.gather .flag] ++
        (sampleExchanges h i j (replies.map (· r)) ++ [.gather .flag])))
      fun r => .failed (failureAt i j ((collected (replies.map (· r))).map (combined h))) where
  present_eq := hpresent
  pairs_eq := ht.pairs_eq
  succeeded := ht.admitted
  admitted := hreplies
  failed := hfailed
  calls_eq r := by
    have hlength : (replies.map (· r)).length = grid.length := by
      rw [List.length_map, hreplies.length_eq]
    rw [List.map_append, List.map_append, List.map_append, ht.calls_eq r,
      map_call_sampleExchanges hlength, List.flatMap_append, List.flatMap_singleton, pairCalls,
      hpresent]
    rfl
  samples_eq r := by
    rw [samplesIn_append, samplesIn_append, samplesIn_append, ht.samples_eq r,
      samplesIn_sampleExchanges]
    exact congrArg (_ ++ ·) (List.append_nil _)
  stops_eq r := by
    rw [reportedAt, collected_eq]
    cases firstFailure? (replies.map (· r)) <;> rfl

/-- One pair issues its calls, on the ranks whose pattern does not have it as on the others. -/
theorem decides_visit (step : Step α) (tolerance : Fin size → α) (pattern : Fin size → Occupancy)
    (i j : Fin n) {all pairs : List (Fin n × Fin n)}
    {found : List (Fin n × Fin n × List (Fin size → α))}
    {es : Fin size → List (Exchange (Sampling α))} {t : Fin size → Tally α n}
    (hpairs : pairs ++ [(i, j)] <+: all)
    (ht : Visited S step.size tolerance (anyHolds pattern) pairs found es t) :
    Group.Decides (.answering size S)
      (fun es' => HaltedWithin S step.size (anyHolds pattern) all fun r => es r ++ es' r)
      (fun es' t' => ∃ found', Visited S step.size tolerance (anyHolds pattern) (pairs ++ [(i, j)])
        found' (fun r => es r ++ es' r) t')
      fun r => (Assembler.mk step (tolerance r)).visit (pattern r) i j (t r) := by
  unfold visit
  refine (Group.Decides.onAnyRank fun r => (pattern r).holds i j).bind _ ?_
  rintro _ _ ⟨rfl, rfl⟩
  rw [← anyHolds]
  -- The branch depends on what all ranks have heard, not on the pattern of the rank.
  cases hpresent : anyHolds pattern i j with
  | false => exact .pure ⟨found, ht.skip hpresent⟩
  | true =>
    refine (Group.Decides.lift (traces_evaluate step.size i j)).bind _ ?_
    rintro _ _ ⟨replies, hreplies, rfl, rfl⟩
    refine (Group.Decides.onAnyRank _).bind _ ?_
    rintro _ _ ⟨rfl, rfl⟩
    by_cases hfailed : ∃ r, ∃ reply ∈ replies, (reply r).isOk = false
    · -- The rank with the failed sample tells the others, and all of them stop.
      rw [decide_eq_true (exists_not_ok_iff.2 hfailed)]
      refine .throw ⟨pairs, i, j, found, replies, hpairs, ?_⟩
      simpa only [List.append_nil] using ht.halt hpresent hreplies hfailed
    · -- No rank has a failed sample, so all ranks go on to take their values.
      rw [decide_eq_false (mt exists_not_ok_iff.1 hfailed)]
      obtain ⟨values, rfl⟩ := exists_values hfailed
      simp only [collected_values]
      refine (decides_take (fun r => ⟨step, tolerance r⟩) i j _ t).mono ?_
      rintro _ _ ⟨rfl, rfl⟩
      have hstep := ht.step hpresent (List.forall₂_map_right_iff.1 hreplies)
      refine ⟨found ++ [(i, j, values)], ?_⟩
      simpa only [List.map_map, Function.comp_def, List.append_nil] using hstep

/-! ## All pairs -/

private def rowPairs (i : Fin n) : List (Fin n × Fin n) :=
  ((List.finRange n).filter fun j => decide (i ≤ j)).map fun j => (i, j)

private theorem decides_visitRow (step : Step α) (tolerance : Fin size → α) (c : Fin size → Place)
    (pattern : Fin size → Occupancy) (i : Fin n) {all pairs : List (Fin n × Fin n)}
    {found : List (Fin n × Fin n × List (Fin size → α))}
    {es : Fin size → List (Exchange (Sampling α))} {t : Fin size → Tally α n}
    (hpairs : pairs ++ rowPairs i <+: all)
    (ht : Visited S step.size tolerance (anyHolds pattern) pairs found es t) :
    Group.Decides (.answering size S)
      (fun es' => HaltedWithin S step.size (anyHolds pattern) all fun r => es r ++ es' r)
      (fun es' t' => ∃ found', Visited S step.size tolerance (anyHolds pattern)
        (pairs ++ rowPairs i) found' (fun r => es r ++ es' r) t')
      fun r => (Assembler.mk step (tolerance r)).visitRow (c r) (pattern r) (t r) i := by
  unfold visitRow
  refine (decides_noteOnRoot c fun _ => .row i n).bind _ ?_
  rintro _ _ ⟨rfl, rfl⟩
  simp only [List.nil_append]
  refine Group.Decides.foldlM
    (fun r t j => (Assembler.mk step (tolerance r)).visit (pattern r) i j t)
    (fun js es t => ∃ found, Visited S step.size tolerance (anyHolds pattern)
      (pairs ++ js.map fun j => (i, j)) found es t)
    _ ?_ ⟨found, by simpa using ht⟩
  rintro js j hjs es t ⟨found, ht⟩
  rw [List.map_append, ← List.append_assoc]
  have hrow : (js ++ [j]).map (fun j => (i, j)) <+: rowPairs i := hjs.map _
  rw [List.map_append] at hrow
  refine decides_visit step tolerance pattern i j (.trans ?_ hpairs) ht
  rw [List.append_assoc]
  exact (List.prefix_append_right_inj pairs).2 hrow

/-- All pairs issue their calls, row by row. -/
theorem decides_visitAll (step : Step α) (tolerance : Fin size → α) (c : Fin size → Place)
    (pattern : Fin size → Occupancy) :
    Group.Decides (.answering size S)
      (HaltedWithin S step.size (anyHolds pattern) (upperPairs n))
      (fun es t => ∃ found,
        Visited S step.size tolerance (anyHolds pattern) (upperPairs n) found es t)
      fun r => (Assembler.mk step (tolerance r)).visitAll (n := n) (c r) (pattern r) := by
  unfold visitAll
  refine Group.Decides.foldlM
    (fun r t i => (Assembler.mk step (tolerance r)).visitRow (c r) (pattern r) t i)
    (fun is es t => ∃ found, Visited S step.size tolerance (anyHolds pattern)
      (is.flatMap rowPairs) found es t) _ ?_ ⟨[], .nil⟩
  rintro is i his es t ⟨found, ht⟩
  have hpairs : (is ++ [i]).flatMap rowPairs <+: upperPairs n := his.flatMap rowPairs
  rw [List.flatMap_append, List.flatMap_singleton] at hpairs ⊢
  exact decides_visitRow step tolerance c pattern i hpairs ht

/-! ## The assembly -/

/-- Assembles as `assemble` does, and returns the deposits as well. -/
def assembleOpenly (a : Assembler α) (c : Place) (p : Partition n) (pattern : Occupancy) :
    Task α (Sampling α) (Deposits α p × RowMatrix α p) := do
  if pattern.rows = n ∧ pattern.columns = n then
    let t ← a.visitAll c pattern
    noteOnRoot c (.finished t.evaluated t.dropped a.dropTolerance)
    let matrix ← (t.deposits p).toMatrix
    return (t.deposits p, matrix)
  else
    throw (.failed (.of (.patternShape pattern.rows pattern.columns n)))

/-- An assembly does the same whether or not it returns its deposits. -/
theorem assemble_eq (a : Assembler α) (c : Place) (p : Partition n) (pattern : Occupancy) :
    a.assemble c p pattern = Prod.snd <$> a.assembleOpenly c p pattern := by
  unfold assemble assembleOpenly
  split
  · simp only [map_bind, map_pure, bind_pure]
  · rfl

/-- What comes out of an assembly. The matrix of every rank is made of its deposits, and these are
of what all ranks have found. -/
theorem decides_assembleOpenly (step : Step α) (tolerance : Fin size → α) (c : Fin size → Place)
    (p : Fin size → Partition n) (pattern : Fin size → Occupancy)
    (hshape : ∀ r, (pattern r).rows = n ∧ (pattern r).columns = n) :
    Group.Decides (.answering size S)
      (HaltedWithin S step.size (anyHolds pattern) (upperPairs n))
      (fun es out => ∃ found es' t,
        Visited S step.size tolerance (anyHolds pattern) (upperPairs n) found es' t ∧
          es = (fun r => es' r ++ [.gather .entries]) ∧
            out = fun r =>
              ((t r).deposits (p r), .ofEntries (p r) n ((t r).deposits (p r)).entries))
      fun r => (Assembler.mk step (tolerance r)).assembleOpenly (c r) (p r) (pattern r) := by
  unfold assembleOpenly
  simp only [hshape, and_self, if_true]
  refine (decides_visitAll step tolerance c pattern).bind _ ?_
  rintro es t ⟨found, ht⟩
  let finished : Fin size → Progress α :=
    fun r => .finished (t r).evaluated (t r).dropped (tolerance r)
  refine (decides_noteOnRoot c finished).bind _ ?_
  rintro _ _ ⟨rfl, rfl⟩
  have hown : ∀ r, ∀ e ∈ ((t r).deposits (p r)).entries, (p r).owns e.row = true :=
    fun _ _ he => Tally.owns_of_mem_deposits he
  refine (Deposits.decides_toMatrix (fun r => (t r).deposits (p r)) fun _ => rfl).bind _ ?_
  rintro _ _ ⟨rfl, rfl⟩
  simp only [Group.arriving_of_own hown]
  exact .pure ⟨found, es, t, ht, rfl, rfl⟩

/-- An assembly whose samples may fail ends with a matrix on all ranks, or all ranks stop. -/
theorem decides_assemble (step : Step α) (tolerance : Fin size → α) (c : Fin size → Place)
    (p : Fin size → Partition n) (pattern : Fin size → Occupancy)
    (hshape : ∀ r, (pattern r).rows = n ∧ (pattern r).columns = n) :
    Group.Decides (.answering size S)
      (HaltedWithin S step.size (anyHolds pattern) (upperPairs n))
      (fun es out => ∃ found es' t,
        Visited S step.size tolerance (anyHolds pattern) (upperPairs n) found es' t ∧
          es = (fun r => es' r ++ [.gather .entries]) ∧
            out = fun r => .ofEntries (p r) n ((t r).deposits (p r)).entries)
      fun r => (Assembler.mk step (tolerance r)).assemble (c r) (p r) (pattern r) := by
  simp only [assemble_eq]
  refine (decides_assembleOpenly step tolerance c p pattern hshape).map _ ?_
  rintro es _ ⟨found, es', t, ht, hes, rfl⟩
  exact ⟨found, es', t, ht, hes, rfl⟩

/-- What comes out of an assembly, whatever the ranks report if some sample has failed. -/
theorem tries_assembleOpenly (step : Step α) (tolerance : Fin size → α) (c : Fin size → Place)
    (p : Fin size → Partition n) (pattern : Fin size → Occupancy)
    (hshape : ∀ r, (pattern r).rows = n ∧ (pattern r).columns = n) :
    Group.Tries (.answering size S) (Failing S)
      (fun es out => ∃ found es' t,
        Visited S step.size tolerance (anyHolds pattern) (upperPairs n) found es' t ∧
          es = (fun r => es' r ++ [.gather .entries]) ∧
            out = fun r =>
              ((t r).deposits (p r), .ofEntries (p r) n ((t r).deposits (p r)).entries))
      fun r => (Assembler.mk step (tolerance r)).assembleOpenly (c r) (p r) (pattern r) :=
  (decides_assembleOpenly step tolerance c p pattern hshape).tries fun _ _ => HaltedWithin.failing

end Pair

/-! ## Samples that succeed -/

section Success

variable {S : List (Perturbation α) → (Fin size → α) → Prop}

private theorem not_failing (es : Fin size → List (Exchange (Sampling α))) :
    ¬Failing (Succeeding S) es := by
  rintro ⟨_, _, r, ⟨x, _, rfl⟩, _, hfailed⟩
  cases hfailed

private theorem values_of_succeeding {f : Int × Int → List (Perturbation α)}
    {ds : List (Int × Int)} {values : List (Fin size → α)}
    (h : List.Forall₂ (fun d x => Succeeding S (f d) fun r => .ok (x r)) ds values) :
    List.Forall₂ (fun d x => S (f d) x) ds values := by
  refine h.imp fun d x hx => ?_
  obtain ⟨y, hy, hxy⟩ := hx
  have hvalues : x = y := funext fun r => Except.ok.inj (congrFun hxy r)
  exact hvalues ▸ hy

private theorem exists_of_succeeding {f : Int × Int → List (Perturbation α)} {ds : List (Int × Int)}
    {replies : List (Fin size → Except Failure α)}
    (h : List.Forall₂ (fun d reply => Succeeding S (f d) reply) ds replies) :
    ∃ values : List (Fin size → α), List.Forall₂ (fun d x => S (f d) x) ds values ∧
      replies = values.map fun x r => .ok (x r) := by
  induction h with
  | nil => exact ⟨[], .nil, rfl⟩
  | cons hreply _ ih =>
    obtain ⟨x, hx, rfl⟩ := hreply
    obtain ⟨values, hvalues, rfl⟩ := ih
    exact ⟨x :: values, .cons hx hvalues, rfl⟩

variable [Arithmetic α]

/-- Samples over the whole grid give an estimate. -/
theorem estimate_combined {h : α} {i j : Nat} {values : List (Fin size → α)}
    (hvalues : List.Forall₂ (fun d x => S (gridPerturbations h i j d) x) grid values) :
    Estimate S h i j fun r => combined h (values.map (· r)) :=
  ⟨values, hvalues, rfl⟩

/-- Evaluating a pair takes its samples. -/
theorem issues_evaluate (h : α) (i j : Nat) :
    Group.Issues (.sampling size S) (sampleCalls h i j)
      (fun out => ∃ v, Estimate S h i j v ∧ out = fun r => .ok (v r))
      fun _ => evaluate h i j := by
  refine (traces_evaluate h i j).issues ?_
  rintro _ _ ⟨replies, hreplies, rfl, rfl⟩
  obtain ⟨values, hvalues, rfl⟩ := exists_of_succeeding hreplies
  refine ⟨⟨_, estimate_combined hvalues, ?_⟩, fun r => ?_⟩
  · funext r
    rw [collected_values]
    rfl
  · refine map_call_sampleExchanges ?_
    rw [List.length_map, List.length_map, hvalues.length_eq]

variable [Magnitude α]

/-- What all ranks have found after the given pairs: derivatives for those that are present, each
estimated on all ranks, and on every rank its own values of them. -/
def Found (S : List (Perturbation α) → (Fin size → α) → Prop) (h : α)
    (tolerance : Fin size → α) (present : Nat → Nat → Bool) (pairs : List (Fin n × Fin n))
    (tallies : Fin size → Tally α n) : Prop :=
  ∃ found : List (Fin n × Fin n × (Fin size → α)),
    found.map (fun e => (e.1, e.2.1)) = pairs.filter (fun e => present e.1 e.2) ∧
      (∀ e ∈ found, Estimate S h e.1 e.2.1 e.2.2) ∧
      tallies = fun r => Tally.ofFound (tolerance r) (found.map fun e => (e.1, e.2.1, e.2.2 r))

/-- Where all samples succeed, the derivatives that have been combined are estimates. -/
theorem Visited.found_of_succeeding {h : α} {tolerance : Fin size → α}
    {present : Nat → Nat → Bool} {pairs : List (Fin n × Fin n)}
    {found : List (Fin n × Fin n × List (Fin size → α))}
    {es : Fin size → List (Exchange (Sampling α))} {t : Fin size → Tally α n}
    (ht : Visited (Succeeding S) h tolerance present pairs found es t) :
    Found S h tolerance present pairs t := by
  refine ⟨found.map fun e => (e.1, e.2.1, fun r => combined h (e.2.2.map (· r))), ?_, ?_, ?_⟩
  · rw [List.map_map, ← ht.pairs_eq]
    rfl
  · intro e he
    obtain ⟨e, hfound, rfl⟩ := List.mem_map.1 he
    exact estimate_combined (values_of_succeeding (ht.admitted e hfound))
  · rw [ht.tallies_eq]
    simp only [List.map_map]
    rfl

/-- An assembly issues its schedule on all ranks, and the matrix of every rank is made of the
derivatives that all ranks have found. -/
theorem issues_assemble (step : Step α) (tolerance : Fin size → α) (c : Fin size → Place)
    (p : Fin size → Partition n) (pattern : Fin size → Occupancy)
    (hshape : ∀ r, (pattern r).rows = n ∧ (pattern r).columns = n) :
    Group.Issues (.sampling size S) (schedule step.size n (anyHolds pattern))
      (Group.Succeeded fun out => ∃ t,
        Found S step.size tolerance (anyHolds pattern) (upperPairs n) t ∧
          out = fun r => .ofEntries (p r) n ((t r).deposits (p r)).entries)
      fun r => ((Assembler.mk step (tolerance r)).assemble (c r) (p r) (pattern r)).run := by
  have hassemble := decides_assemble (S := Succeeding S) step tolerance c p pattern hshape
  have hnone : ∀ es s,
      ¬HaltedWithin (Succeeding S) step.size (anyHolds pattern) (upperPairs n) es s :=
    fun es _ hhalted => not_failing es hhalted.failing
  refine (hassemble.succeeds hnone).issues ?_
  rintro _ _ ⟨_, ⟨found, es, t, ht, rfl, rfl⟩, rfl⟩
  refine ⟨⟨_, ⟨t, ht.found_of_succeeding, rfl⟩, rfl⟩, fun r => ?_⟩
  rw [List.map_append, ht.calls_eq r]
  rfl

end Success

/-! ## Lockstep -/

/-- The service of every rank, with its notes, gives replies that are related to the perturbations
as the outcomes of its samples are. -/
theorem answers_of_outcomes {σ : Fin size → Type}
    {S : List (Perturbation α) → (Fin size → Except Failure α) → Prop}
    {service : (r : Fin size) → Sampler (σ r) α .closed}
    {record : (r : Fin size) → Progress α → Stateful (σ r) α .closed Unit}
    {inv : ((r : Fin size) → σ r) → Prop}
    (hsample : ∀ perturbations states, inv states →
      Group.Attains (.closed size)
        (fun out => ∃ replies s, S perturbations replies ∧ inv s ∧
          out = fun r => ((replies r).mapError Stop.failed, s r))
        fun r => (service r perturbations).run (states r))
    (hrecord : ∀ r progress states, inv states →
      ∃ s, inv (Function.update states r s) ∧
        (record r progress).run (states r) = .done (.ok (), s)) :
    Group.Answers (.answering size S) (.closed size) inv
      fun r => (service r).answer (record r) where
  alone r
    | .note progress, _, states, hstates => by
      obtain ⟨s, hs, hrun⟩ := hrecord r progress states hstates
      have hdone : ((service r).answer (record r) (.note progress)).run (states r) =
          .done (.ok (), s) := hrun
      rw [hdone]
      exact .done _ ⟨(), s, trivial, hs, rfl⟩
  together
    | .sample perturbations, _, states, hstates => by
      refine Group.Attains.bind (hsample perturbations states hstates) _ ?_
      rintro _ ⟨replies, s, hreplies, hs, rfl⟩
      -- A rank whose sample has failed goes on, with the failure as its reply.
      refine Group.Attains.of_eq_done (fun r => ?_) ⟨replies, s, ⟨hreplies, hs⟩, rfl⟩
      beta_reduce
      cases replies r with
      | ok x => rfl
      | error f => rfl

private theorem answers_of_samples {σ : Fin size → Type}
    {service : (r : Fin size) → Sampler (σ r) α .closed}
    {record : (r : Fin size) → Progress α → Stateful (σ r) α .closed Unit}
    {inv : ((r : Fin size) → σ r) → Prop}
    (hsample : ∀ perturbations states, inv states →
      Group.Proceeds (.closed size) states (fun _ s => inv s) fun r => service r perturbations)
    (hrecord : ∀ r progress states, inv states →
      ∃ s, inv (Function.update states r s) ∧
        (record r progress).run (states r) = .done (.ok (), s)) :
    Group.Answers (.sampling size fun _ _ => True) (.closed size) inv
      fun r => (service r).answer (record r) := by
  refine answers_of_outcomes (fun perturbations states hstates => ?_) hrecord
  refine Group.Attains.mono (hsample perturbations states hstates) ?_
  rintro _ ⟨x, s, hs, rfl⟩
  exact ⟨fun r => .ok (x r), s, ⟨x, trivial, rfl⟩, hs, rfl⟩

variable [Arithmetic α] [Magnitude α]

/-- Lockstep of an assembly. The ranks may disagree on every position of their patterns, and own
what they like; `service` are services whose samples succeed on all ranks, from all states with the
property `inv`. Then all ranks get a matrix, and every rank has issued the calls of the schedule,
which depend on the step, the size, and the positions that some rank's pattern has. -/
theorem assemble_lockstep {σ : Fin size → Type} (service : (r : Fin size) → Sampler (σ r) α .closed)
    (record : (r : Fin size) → Progress α → Stateful (σ r) α .closed Unit)
    (inv : ((r : Fin size) → σ r) → Prop)
    (hsample : ∀ perturbations states, inv states →
      Group.Proceeds (.closed size) states (fun _ s => inv s) fun r => service r perturbations)
    (hrecord : ∀ r progress states, inv states →
      ∃ s, inv (Function.update states r s) ∧
        (record r progress).run (states r) = .done (.ok (), s))
    (step : Step α) (tolerance : Fin size → α) (c : Fin size → Place) (p : Fin size → Partition n)
    (pattern : Fin size → Occupancy)
    (hshape : ∀ r, (pattern r).rows = n ∧ (pattern r).columns = n)
    (states : (r : Fin size) → σ r) (hstates : inv states) :
    ∃ results,
      Group.Returns
        (fun r => ((service r).runProgram (record r)
          (((Assembler.mk step (tolerance r)).assemble (c r) (p r) (pattern r)).run.logged
            Sampling.isSample)).run (states r))
        results ∧
      ∀ r, ∃ M s, results r = (.ok (schedule step.size n (anyHolds pattern), .ok M), s) := by
  have hassemble := issues_assemble (S := fun _ _ => True) step tolerance c p pattern hshape
  -- The calls are recorded first, then the service answers them out of its states.
  have hserved := Group.Attains.serve hassemble (answers_of_samples hsample hrecord) hstates
  obtain ⟨results, ⟨b, s, ⟨⟨_, ⟨M, _, rfl⟩, rfl⟩, _⟩, rfl⟩, hreturns⟩ := hserved.returns
  exact ⟨_, hreturns, fun r => ⟨M r, s r, rfl⟩⟩

/-- Two ranks stay in lockstep where the first one owns nothing and its pattern is empty, and the
second one owns the only row and its pattern is full. -/
theorem assemble_lockstep_two_ranks :
    let pattern : Fin 2 → Occupancy := fun r => ⟨1, 1, fun _ _ => r == 1⟩
    let service : Sampler Unit Float .closed := fun _ =>
      MonadLift.monadLift (sumOverRanks (1 : Float) : Task Float .closed Float)
    ∃ results,
      Group.Returns
        (fun r => (service.runProgram (fun _ => pure ())
          (((Assembler.mk (⟨1, rfl⟩ : Step Float) 0).assemble
            (.member r.val 2 r.isLt) (.ownedBySecond r) (pattern r)).run.logged
            Sampling.isSample)).run ())
        results ∧
      ∀ r, ∃ M s, results r = (.ok (schedule 1 1 (anyHolds pattern), .ok M), s) := by
  intro pattern service
  refine assemble_lockstep (fun _ => service) (fun _ _ => pure ()) (fun _ => True) ?_ ?_ ⟨1, rfl⟩
    (fun _ => 0) (fun r => .member r.val 2 r.isLt) Partition.ownedBySecond pattern
    (fun _ => ⟨rfl, rfl⟩) (fun _ => ()) trivial
  · intro perturbations states _
    exact (Group.Proceeds.lift (Group.achieves_sumOverRanks fun _ => 1)).mono fun _ _ _ => trivial
  · intro r progress states _
    exact ⟨(), trivial, rfl⟩

end Assembler

end DualHessian
