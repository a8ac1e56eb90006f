import DualHessian.Proofs.Rank.Runs
import DualHessian.Verify.Suite

/-!
# What a suite runs

A suite begins its cases one after the other and stops behind the first one that does not pass,
whatever the cases do and however they end.

* `Turn` is one case that a suite has executed, with what it has done and how it has ended.
* `Suite.Executed` says which turns the cases of a suite take: those up to the first one that does
  not pass. `Suite.runs_runCases` says that they make up the runs of the suite.
* `Suite.runs_prefix` adds what a run returns.
-/

namespace DualHessian

theorem Report.status_eq_zero {α : Type} {r : Report α} : r.status = 0 ↔ r.passed = true := by
  cases h : r.verdict <;> simp [status, passed, h]

/-- A case that is executed. -/
structure Turn (α : Type) where
  /-- The case. -/
  case : Case α
  /-- What it does. -/
  exchanges : List (Exchange (Console α))
  /-- How it ends. -/
  outcome : Except Stop (Report α)

namespace Turn

variable {α : Type}

/-- Whether the case passes. -/
def passed (t : Turn α) : Bool :=
  match t.outcome with
  | .ok report => report.passed
  | .error _ => false

/-- What the suite does in a turn: it tells which case it begins, and executes it. -/
def told (t : Turn α) : List (Exchange (Console α)) :=
  .request (.tell (.verifying t.case.label)) () :: t.exchanges

/-- The outcome of a turn, where a failure names the label of the case. -/
def reported (t : Turn α) : Except Stop (Report α) :=
  match t.outcome with
  | .error (.failed f) => .error (.failed (f.wrap (.case t.case.label)))
  | outcome => outcome

/-- What the suite obtains by a turn. -/
def result (t : Turn α) : Except Stop (Labelled α) := t.reported.map (⟨t.case.label, ·⟩)

theorem reported_eq_ok {t : Turn α} {report : Report α} :
    t.reported = .ok report ↔ t.outcome = .ok report := by
  unfold reported
  split <;> simp_all

/-- A case that stops early does not pass. -/
theorem passed_of_reported_error {t : Turn α} {stop : Stop} (h : t.reported = .error stop) :
    t.passed = false := by
  unfold passed
  split
  case h_1 report houtcome => cases h.symm.trans (reported_eq_ok.2 houtcome)
  case h_2 => rfl

end Turn

namespace Suite

variable {α : Type} {settings : Settings α} {c : Case α} {cases : List (Case α)}
  {turns : List (Turn α)} {es : List (Exchange (Console α))}

/-- The turns are those of the cases up to the first one that does not pass. -/
structure Executed (settings : Settings α) (cases : List (Case α)) (turns : List (Turn α)) :
    Prop where
  /-- The cases are taken in their order, from the first one on. -/
  begun : turns.map Turn.case <+: cases
  /-- Each case does what it does on its own. -/
  runs : ∀ t ∈ turns, (t.case.run settings).run.Runs t.exchanges t.outcome
  /-- After a case that does not pass there is no other one. -/
  passed : ∀ t ∈ turns.dropLast, t.passed = true
  /-- Nothing but a case that does not pass keeps the others from being executed. -/
  complete : (∀ t ∈ turns, t.passed = true) → turns.map Turn.case = cases

/-! ## Turns -/

theorem executed_nil : Executed settings [] turns ↔ turns = [] := by
  constructor
  · intro h
    exact List.map_eq_nil_iff.1 (List.prefix_nil.1 h.begun)
  · rintro rfl
    exact ⟨List.nil_prefix, by simp, by simp, fun _ => rfl⟩

/-- The first case is executed, and the others are exactly if it passes. -/
theorem executed_cons : Executed settings (c :: cases) turns ↔
    ∃ t rest, turns = t :: rest ∧ t.case = c ∧
      (t.case.run settings).run.Runs t.exchanges t.outcome ∧
      if t.passed = true then Executed settings cases rest else rest = [] := by
  -- The first of several turns is not the last one, so it has to pass.
  have hinit {t : Turn α} {rest : List (Turn α)} (hne : rest ≠ []) :
      (t :: rest).dropLast = t :: rest.dropLast := List.dropLast_cons_of_ne_nil hne
  constructor
  · intro h
    cases turns with
    | nil => cases h.complete (by simp)
    | cons t rest =>
      obtain ⟨hcase, hbegun⟩ := List.cons_prefix_cons.1 h.begun
      refine ⟨t, rest, rfl, hcase, h.runs t List.mem_cons_self, ?_⟩
      split
      case isTrue hpassed =>
        refine ⟨hbegun, fun t' ht' => h.runs t' (List.mem_cons_of_mem t ht'), fun t' ht' => ?_,
          fun hall => ?_⟩
        · have hne : rest ≠ [] := List.ne_nil_of_mem (List.dropLast_subset _ ht')
          exact h.passed t' (hinit hne ▸ List.mem_cons_of_mem t ht')
        · exact (List.cons.inj (h.complete (List.forall_mem_cons.2 ⟨hpassed, hall⟩))).2
      case isFalse hpassed =>
        by_contra hne
        exact hpassed (h.passed t (hinit hne ▸ List.mem_cons_self))
  · rintro ⟨t, rest, rfl, rfl, hruns, hrest⟩
    split at hrest
    case isTrue hpassed =>
      refine ⟨List.cons_prefix_cons.2 ⟨rfl, hrest.begun⟩,
        List.forall_mem_cons.2 ⟨hruns, hrest.runs⟩, ?_, fun hall => ?_⟩
      · by_cases hne : rest = []
        · simp [hne]
        · rw [hinit hne]
          exact List.forall_mem_cons.2 ⟨hpassed, hrest.passed⟩
      · exact congrArg (t.case :: ·) (hrest.complete (List.forall_mem_cons.1 hall).2)
    case isFalse hpassed =>
      subst hrest
      exact ⟨List.cons_prefix_cons.2 ⟨rfl, List.nil_prefix⟩, by simpa using hruns, by simp,
        fun hall => absurd (hall t List.mem_cons_self) hpassed⟩

/-! ## Runs -/

theorem runs_tell {event : Event α} {out : Except Stop Unit} :
    (Console.tell event).run.Runs es out ↔ es = [.request (.tell event) ()] ∧ out = .ok () := by
  constructor
  · rintro (_ | _ | _ | ⟨_, h⟩)
    obtain ⟨rfl, rfl⟩ := Program.runs_done.1 h
    exact ⟨rfl, rfl⟩
  · rintro ⟨rfl, rfl⟩
    exact Program.Runs.ask (P := Console α) (q := .tell event) () (.done _)

/-- A case is run as it would be on its own. -/
theorem runs_runCase {out : Except Stop (Report α)} :
    (runCase settings c).run.Runs es out ↔
      ∃ t : Turn α, t.case = c ∧ t.exchanges = es ∧
        (t.case.run settings).run.Runs t.exchanges t.outcome ∧ out = t.reported := by
  have hrun : (runCase settings c).run = (c.run settings).run >>= fun outcome =>
      .done (Turn.reported ⟨c, es, outcome⟩) := by
    refine congrArg ((c.run settings).run >>= ·) (funext fun outcome => ?_)
    obtain (_ | _) | _ := outcome <;> rfl
  simp only [hrun, Program.runs_bind, Program.runs_done]
  constructor
  · rintro ⟨es₁, _, outcome, rfl, hruns, rfl, rfl⟩
    exact ⟨⟨c, es₁, outcome⟩, rfl, (List.append_nil es₁).symm, hruns, rfl⟩
  · rintro ⟨t, rfl, rfl, hruns, rfl⟩
    exact ⟨t.exchanges, [], t.outcome, (List.append_nil _).symm, hruns, rfl, rfl⟩

/-- The runs of a suite are made up of the turns that its cases take. -/
theorem runs_runCases {out : Except Stop (List (Labelled α))} :
    (runCases settings cases).run.Runs es out ↔ ∃ turns, Executed settings cases turns ∧
      es = turns.flatMap Turn.told ∧ out = turns.mapM Turn.result := by
  induction cases generalizing es out with
  | nil =>
    simp only [executed_nil, exists_eq_left]
    exact Program.runs_done
  | cons c cases ih =>
    -- What follows a turn that has ended with a report.
    have hafter (t : Turn α) (report : Report α) (houtcome : t.outcome = .ok report)
        {es' : List (Exchange (Console α))} : (if report.passed then do
          let rest ← runCases settings cases
          return ⟨t.case.label, report⟩ :: rest
        else return [⟨t.case.label, report⟩] :
          Task α (Console α) (List (Labelled α))).run.Runs es' out ↔
        ∃ rest, (if t.passed = true then Executed settings cases rest else rest = []) ∧
          es' = rest.flatMap Turn.told ∧ out = (t :: rest).mapM Turn.result := by
      have hpassed : t.passed = report.passed := by rw [Turn.passed, houtcome]
      have hresult (rest : List (Turn α)) : (t :: rest).mapM Turn.result =
          (rest.mapM Turn.result).map (⟨t.case.label, report⟩ :: ·) := by
        rw [List.mapM_cons, Turn.result, Turn.reported_eq_ok.2 houtcome]
        cases rest.mapM Turn.result <;> rfl
      simp only [hresult, hpassed]
      cases report.passed with
      | true =>
        simp only [if_true, Task.runs_map, ih]
        constructor
        · rintro ⟨_, ⟨rest, hrest, rfl, rfl⟩, rfl⟩
          exact ⟨rest, hrest, rfl, rfl⟩
        · rintro ⟨rest, hrest, rfl, rfl⟩
          exact ⟨_, ⟨rest, hrest, rfl, rfl⟩, rfl⟩
      | false =>
        simp only [Bool.false_eq_true, if_false, exists_eq_left]
        exact Program.runs_done
    constructor
    · intro h
      obtain ⟨stop, hstop, -⟩ | ⟨_, es', _, rfl, htell, hbegun⟩ := Task.runs_bind.1 h
      · cases (runs_tell.1 hstop).2
      obtain ⟨rfl, -⟩ := runs_tell.1 htell
      obtain ⟨stop, hrun, rfl⟩ | ⟨_, es', report, rfl, hrun, hrest⟩ := Task.runs_bind.1 hbegun
      · obtain ⟨t, rfl, rfl, hruns, hreported⟩ := runs_runCase.1 hrun
        refine ⟨[t], executed_cons.2 ⟨t, [], rfl, rfl, hruns, ?_⟩, ?_, ?_⟩
        · simp [Turn.passed_of_reported_error hreported.symm]
        · simp [Turn.told]
        · rw [List.mapM_cons, Turn.result, ← hreported]
          rfl
      · obtain ⟨t, rfl, rfl, hruns, hreported⟩ := runs_runCase.1 hrun
        obtain ⟨rest, hexecuted, rfl, rfl⟩ :=
          (hafter t report (Turn.reported_eq_ok.1 hreported.symm)).1 hrest
        exact ⟨t :: rest, executed_cons.2 ⟨t, rest, rfl, rfl, hruns, hexecuted⟩, rfl, rfl⟩
    · rintro ⟨turns, hexecuted, rfl, rfl⟩
      obtain ⟨t, rest, rfl, rfl, hruns, hrest⟩ := executed_cons.1 hexecuted
      refine Task.runs_bind.2 (.inr ⟨_, t.exchanges ++ rest.flatMap Turn.told, (), rfl,
        runs_tell.2 ⟨rfl, rfl⟩, Task.runs_bind.2 ?_⟩)
      have hrun : (runCase settings t.case).run.Runs t.exchanges t.reported :=
        runs_runCase.2 ⟨t, rfl, rfl, hruns, rfl⟩
      cases hreported : t.reported with
      | error stop =>
        obtain rfl : rest = [] := by
          simpa [Turn.passed_of_reported_error hreported] using hrest
        refine .inl ⟨stop, ?_, ?_⟩
        · simpa [hreported] using hrun
        · rw [List.mapM_cons, Turn.result, hreported]
          rfl
      | ok report =>
        exact .inr ⟨t.exchanges, _, report, rfl, hreported ▸ hrun,
          (hafter t report (Turn.reported_eq_ok.1 hreported)).2 ⟨rest, hrest, rfl, rfl⟩⟩

/-! ## Reports -/

theorem firstFailure?_eq_none {reports : List (Labelled α)} :
    firstFailure? reports = none ↔ ∀ r ∈ reports, r.report.passed = true := by
  simp [firstFailure?, List.find?_eq_none]

/-- The status is zero exactly if there is no report of a failure. -/
theorem status_eq_zero {reports : List (Labelled α)} :
    status reports = 0 ↔ ∀ r ∈ reports, r.report.passed = true := by
  rw [← firstFailure?_eq_none, status]
  cases hfirst : firstFailure? reports with
  | none => simp
  | some r =>
    have hfailed : ¬r.report.passed = true := by simpa using List.find?_some hfirst
    simpa using mt Report.status_eq_zero.1 hfailed

/-- Turns that all end with a report. -/
theorem mapM_result (h : ∀ t ∈ turns, ∃ report, t.outcome = .ok report) :
    ∃ reports, turns.mapM Turn.result = .ok reports ∧
      turns.map (fun t => (t.case.label, t.outcome)) =
        reports.map fun r => (r.label, .ok r.report) := by
  induction turns with
  | nil => exact ⟨[], rfl, rfl⟩
  | cons t rest ih =>
    obtain ⟨⟨report, hreport⟩, hrest⟩ := List.forall_mem_cons.1 h
    obtain ⟨reports, hreports, hlabels⟩ := ih hrest
    refine ⟨⟨t.case.label, report⟩ :: reports, ?_, ?_⟩
    · rw [List.mapM_cons, hreports, Turn.result, Turn.reported_eq_ok.2 hreport]
      rfl
    · rw [List.map_cons, hlabels, hreport]
      rfl

/-- If all but the last of some reports are those of passed cases, the first failure is the last
one, or there is none. -/
theorem firstFailure?_eq_getLast? {reports : List (Labelled α)}
    (h : ∀ r ∈ reports.dropLast, r.report.passed = true) :
    firstFailure? reports = reports.getLast?.filter fun r => !r.report.passed := by
  obtain rfl | ⟨init, last, rfl⟩ := List.eq_nil_or_concat' reports
  · rfl
  · rw [List.dropLast_concat] at h
    rw [firstFailure?, List.find?_append, ← firstFailure?, firstFailure?_eq_none.2 h,
      List.getLast?_concat, Option.none_or]
    cases hlast : last.report.passed <;> simp [Option.filter, hlast]

/-- Turns pass exactly if their reports do. -/
private theorem forall_passed_iff {reports : List (Labelled α)}
    (h : (turns.map fun t => (t.case.label, t.outcome)) =
      reports.map fun r => (r.label, .ok r.report)) :
    (∀ t ∈ turns, t.passed = true) ↔ ∀ r ∈ reports, r.report.passed = true := by
  have hpassed : turns.map Turn.passed = reports.map fun r => r.report.passed := by
    have hmap := congrArg (List.map fun e : String × Except Stop (Report α) =>
      match e.2 with
      | .ok report => report.passed
      | .error _ => false) h
    rw [List.map_map, List.map_map] at hmap
    exact hmap
  have hall : (∀ b ∈ turns.map Turn.passed, b = true) ↔
      ∀ b ∈ (reports.map fun r => r.report.passed), b = true := by rw [hpassed]
  simpa only [List.forall_mem_map] using hall

/-- A case before the last one has ended with a report. -/
private theorem Executed.exists_report {init : List (Turn α)} {last : Turn α}
    (h : Executed settings cases (init ++ [last])) :
    ∀ t ∈ init, ∃ report, t.outcome = .ok report := by
  intro t ht
  have hpassed := h.passed t (by rwa [List.dropLast_concat])
  unfold Turn.passed at hpassed
  split at hpassed
  case h_1 report houtcome => exact ⟨report, houtcome⟩
  case h_2 => cases hpassed

/-- What a suite returns after turns of which the last one has ended with a report. -/
theorem Executed.reports (h : Executed settings cases turns)
    (hlast : ∀ t, turns.getLast? = some t → ∃ report, t.outcome = .ok report) :
    ∃ reports, turns.mapM Turn.result = .ok reports ∧
      (turns.map fun t => (t.case.label, t.outcome)) =
        (reports.map fun r => (r.label, .ok r.report)) ∧
      (∀ r ∈ reports.dropLast, r.report.passed = true) ∧
      firstFailure? reports = (reports.getLast?.filter fun r => !r.report.passed) ∧
      (status reports = 0 ↔ turns.map Turn.case = cases ∧ ∀ t ∈ turns, t.passed = true) := by
  -- Only the last turn may end without a report.
  have hreported : ∀ t ∈ turns, ∃ report, t.outcome = .ok report := by
    obtain rfl | ⟨init, last, rfl⟩ := List.eq_nil_or_concat' turns
    · simp
    · intro t ht
      obtain ht | ht := List.mem_append.1 ht
      · exact h.exists_report t ht
      · obtain rfl := List.mem_singleton.1 ht
        exact hlast t List.getLast?_concat
  obtain ⟨reports, hreports, hlabels⟩ := mapM_result hreported
  have hinit : ∀ r ∈ reports.dropLast, r.report.passed = true := by
    have hdropped := congrArg List.dropLast hlabels
    rw [← List.map_dropLast, ← List.map_dropLast] at hdropped
    exact (forall_passed_iff hdropped).1 h.passed
  refine ⟨reports, hreports, hlabels, hinit, firstFailure?_eq_getLast? hinit, ?_⟩
  rw [status_eq_zero, ← forall_passed_iff hlabels]
  exact ⟨fun hall => ⟨h.complete hall, hall⟩, And.right⟩

/-- What a suite returns after turns of which the last one has stopped early. -/
theorem Executed.stopped (h : Executed settings cases turns) {t : Turn α} {stop : Stop}
    (hlast : turns.getLast? = some t) (hstop : t.reported = .error stop) :
    turns.mapM Turn.result = .error stop := by
  obtain ⟨init, rfl⟩ := List.getLast?_eq_some_iff.1 hlast
  obtain ⟨reports, hreports, -⟩ := mapM_result h.exists_report
  rw [List.mapM_append, hreports, List.mapM_cons, Turn.result, hstop]
  rfl

/-- A suite runs exactly the cases up to the first one that does not pass, whatever its cases do and
however they end: this is what each of its runs consists of, every such sequence of turns makes up a
run, and there always is one. If the last of the cases executed has failed to run, the suite fails
with its label. Otherwise the reports are those of all cases executed, with their labels and in
their order; all but the last are those of passed cases, so the last one is the first failure if
there is any; and the status is zero exactly if every case of the suite has been executed and has
passed. -/
theorem runs_prefix (s : Suite α) :
    (∀ es out, s.run.run.Runs es out ↔ ∃ turns, Executed s.settings s.cases turns ∧
      es = turns.flatMap Turn.told ∧ out = turns.mapM Turn.result) ∧
    (∃ turns, Executed s.settings s.cases turns) ∧
    ∀ turns, Executed s.settings s.cases turns →
      (∀ t f, turns.getLast? = some t → t.outcome = .error (.failed f) →
        turns.mapM Turn.result = .error (.failed (f.wrap (.case t.case.label)))) ∧
      (∀ t v, turns.getLast? = some t → t.outcome = .error (.violated v) →
        turns.mapM Turn.result = .error (.violated v)) ∧
      ((∀ t, turns.getLast? = some t → ∃ report, t.outcome = .ok report) →
        ∃ reports, turns.mapM Turn.result = .ok reports ∧
          (turns.map fun t => (t.case.label, t.outcome)) =
            (reports.map fun r => (r.label, .ok r.report)) ∧
          (∀ r ∈ reports.dropLast, r.report.passed = true) ∧
          firstFailure? reports = (reports.getLast?.filter fun r => !r.report.passed) ∧
          (status reports = 0 ↔ turns.map Turn.case = s.cases ∧ ∀ t ∈ turns, t.passed = true)) := by
  have hreply : ∀ q, Nonempty ((Console α).Reply q)
    | .tell _ => ⟨()⟩
    | .createDirectory _ => ⟨true⟩
    | .writeMatrix .. => ⟨Written.done⟩
  refine ⟨fun es out => runs_runCases, ?_, fun turns h => ⟨fun t f hlast hfailed => ?_,
    fun t v hlast hviolated => ?_, h.reports⟩⟩
  · obtain ⟨es, out, hruns⟩ := Program.exists_runs hreply s.run.run
    obtain ⟨turns, hexecuted, -⟩ := runs_runCases.1 hruns
    exact ⟨turns, hexecuted⟩
  · exact h.stopped hlast (by rw [Turn.reported, hfailed])
  · exact h.stopped hlast (by rw [Turn.reported, hviolated])

/-- A suite whose second case does not pass never begins the third one, which would fail to run. -/
theorem runs_prefix_three_cases :
    let passing : Report Rat := ⟨1, 1, 1, 0, 0, 0, 0, 1 / 10, .pass⟩
    let failing : Report Rat := ⟨1, 1, 1, 1, 1, 1, 1, 1 / 10, .fail⟩
    let s : Suite Rat := ⟨⟨1 / 10, 1 / 10, 0, 1, "out", 5, .unit⟩,
      [⟨"first", fun _ => pure passing⟩, ⟨"second", fun _ => pure failing⟩,
        ⟨"third", fun _ => throw (.failed (.of .noHessianGiven))⟩]⟩
    ∃ reports,
      s.run.run.Runs
        [.request (.tell (.verifying "first")) (), .request (.tell (.verifying "second")) ()]
        (.ok reports) ∧
      reports = [⟨"first", passing⟩, ⟨"second", failing⟩] ∧
      firstFailure? reports = some ⟨"second", failing⟩ ∧ status reports ≠ 0 := by
  intro passing failing s
  let turns : List (Turn Rat) := [⟨⟨"first", fun _ => pure passing⟩, [], .ok passing⟩,
    ⟨⟨"second", fun _ => pure failing⟩, [], .ok failing⟩]
  have hexecuted : Executed s.settings s.cases turns :=
    executed_cons.2 ⟨_, _, rfl, rfl, .done _, executed_cons.2 ⟨_, _, rfl, rfl, .done _, rfl⟩⟩
  obtain ⟨hruns, -, hturns⟩ := runs_prefix s
  obtain ⟨-, -, hreports⟩ := hturns turns hexecuted
  obtain ⟨reports, hresult, -, -, hfirst, hstatus⟩ := hreports fun t ht =>
    ⟨failing, Option.some.inj ht ▸ rfl⟩
  obtain rfl : [⟨"first", passing⟩, ⟨"second", failing⟩] = reports := Except.ok.inj hresult
  refine ⟨_, (hruns _ _).2 ⟨turns, hexecuted, rfl, hresult.symm⟩, rfl, hfirst, fun hzero => ?_⟩
  exact absurd ((hstatus.1 hzero).2 _ (List.mem_cons_of_mem _ List.mem_cons_self)) (by decide)

end Suite

end DualHessian
