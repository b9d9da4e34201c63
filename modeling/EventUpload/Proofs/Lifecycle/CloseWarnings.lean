import EventUpload.Proofs.Lifecycle.Closing
import EventUpload.Proofs.Lifecycle.WarnedOnce

/-!
# What the end of a blocking invocation says

The end of a blocking invocation is answered by a report, at once or when its wait is over. By then
nobody else has said anything to the invocation, so what it is warned of is what the end itself says:
`Genuine.reports`. If all sinks are done it warns of each of them that has failed, unless the sink has
done so itself. If the cap has cut the wait it only says that: a sink that had failed by then is in the
report, but is not warned of (`not_eachOnce_cutWait`).

`Reports` gives the two ways in which the answer comes about, since a call may be answered when it is
made, and then no look at a waiting call precedes it. `Reported` is about the invocation when the answer
is there and asks for nothing that came before: that the log had no warning to this invocation until
then is a fact about genuine runs (`Voiced.waits`), and it is why the theorem can speak of all warnings
that the invocation was ever given.

`EachOnce` is the wish that a failure be warned of, however the wait has ended. It is met if all sinks
are done, and the counterexample has one sink that has timed out and one that is pending when the cap is
reached.
-/

set_option autoImplicit false

namespace EventUpload

open Lifecycle

namespace Lifecycle

variable {l : Lifecycle} {i : Nat} {v : Invocation}

/-- What an invocation was warned of when the wait at its end is answered, after the warnings that it
had before. -/
def EndSays (v : Invocation) (cap : Nat) (before after : List String) : Prop :=
  v.allDone = true ∧ after = before ++ v.warnings SinkError.closeWarning? ∨
    v.allDone = false ∧ after = before ++ [capReached cap]

/-- The wait is answered by a report, and the invocation is told something. -/
theorem says_check_finish {start deadline longest nextWord : Nat} {noticed : List Bool} {a : Answer}
    (hv : l.invocation? i = some v)
    (ha : (l.check (.finish i start deadline noticed longest nextWord)).2 = .answered a) :
    a = reportOf v ∧
      (l.check (.finish i start deadline noticed longest nextWord)).1.invocation? i = some v ∧
      EndSays v (deadline - start) (l.warningsTo (.invocation i))
        ((l.check (.finish i start deadline noticed longest nextWord)).1.warningsTo
          (.invocation i)) := by
  have hinvocations := invocations_check_finish start deadline noticed longest nextWord l i
  have hover := over_of_check_finish start deadline noticed longest nextWord hv ha
  have hreport := (check_finish_answered start deadline noticed longest nextWord hv hover).1
  rw [ha] at hreport
  refine ⟨Progress.answered.inj hreport, (congrArg (·[i]?) hinvocations).trans hv, ?_⟩
  have hnotice := hush_noticeClosed l i v noticed
  cases hdone : v.allDone with
  | true =>
    refine .inl ⟨hdone, ?_⟩
    simp only [check, hv, hdone, if_true]
    rw [(hush_leaveClosing _).warnings, noteFinished, (hush_note _ _ _).warnings,
      warningsTo_retire, warningsTo_sayAll, if_pos rfl, hnotice.warnings,
      Invocation.closeWarnings_errors]
  | false =>
    refine .inr ⟨hdone, ?_⟩
    have hdue : deadline ≤ (l.noticeClosed i v noticed).now := by
      rw [(quiet_noticeClosed l i v noticed).now]
      exact hover.resolve_left (by simp [hdone])
    simp only [check, hv, hdone, if_pos hdue, Bool.false_eq_true, if_false]
    rw [(hush_leaveClosing _).warnings, noteFinished, (hush_note _ _ _).warnings,
      warningsTo_warn, if_pos rfl, hnotice.warnings]

end Lifecycle

namespace Run

variable {r s : Run} {i : Nat} {report : Report}

/-- The end of a blocking invocation is answered by a report: at once, or when a look finds that its wait
is over. -/
inductive Reports (r : Run) (i : Nat) (report : Report) : Run → Prop where
  | atOnce : r.IsFree → r.lifecycle.phase = .active → r.lifecycle.active = some i →
      (r.lifecycle.finish .blocking).2 = .answered (.report report) →
      Reports r i report (r.call (HostCall.finish .blocking).make none)
  | later {earlier later : List Pending} {start deadline longest nextWord : Nat}
      {noticed : List Bool} {m : Lifecycle} :
      r.calls = earlier ++ .waiting (.finish i start deadline noticed longest nextWord) none :: later →
      r.lifecycle.check (.finish i start deadline noticed longest nextWord) =
        (m, .answered (.report report)) →
      Reports r i report ⟨m, earlier ++ .finished (.answer (.report report) m.now) :: later⟩

/-- Every warning that is due for the outcome of some sink was given, and as often as it is due. -/
def EachOnce (l : Lifecycle) (i : Nat) (v : Invocation) : Prop :=
  ∀ text ∈ v.warnings SinkError.closeWarning?,
    (l.warningsTo (.invocation i)).count text = (v.warnings SinkError.closeWarning?).count text

/-- What is known when the end of a blocking invocation has been answered: how the sinks stand is in the
report, and all that the invocation was ever warned of are the errors of its sinks, if all of them are
done, or that the cap was reached. -/
structure Reported (l : Lifecycle) (i : Nat) (report : Report) (v : Invocation) : Prop where
  here : l.invocation? i = some v
  report : report = .ofOutcomes .blocking v.outcomes
  all : v.allDone = true → l.warningsTo (.invocation i) = v.warnings SinkError.closeWarning?
  cut : v.allDone = false → ∃ cap, l.warningsTo (.invocation i) = [capReached cap]

theorem Reported.of_check {l m : Lifecycle} {v : Invocation} {start deadline longest nextWord : Nat}
    {noticed : List Bool} (hv : l.invocation? i = some v) (hmode : v.mode = .blocking)
    (hnone : l.warningsTo (.invocation i) = [])
    (hcheck : l.check (.finish i start deadline noticed longest nextWord) =
      (m, .answered (.report report))) : Reported m i report v := by
  obtain ⟨hreport, hhere, hwarned⟩ := says_check_finish hv (congrArg Prod.snd hcheck)
  rw [hcheck, hnone] at hwarned
  rw [hcheck] at hhere
  refine ⟨hhere, ?_, fun hdone => ?_, fun hdone => ?_⟩
  · rw [reportOf, hmode] at hreport
    exact Answer.report.inj hreport
  · rcases hwarned with ⟨-, hsaid⟩ | ⟨hnot, -⟩
    · exact hsaid
    · exact absurd (hdone.symm.trans hnot) (by simp)
  · rcases hwarned with ⟨hall, -⟩ | ⟨-, hsaid⟩
    · exact absurd (hdone.symm.trans hall) (by simp)
    · exact ⟨_, hsaid⟩

/-- **The end of a blocking invocation.** When it is answered, in whatever genuine run, the report has
the outcomes of all sinks. If all are done, each one that has failed was warned of exactly once, in
order, by the text of its error, unless the sink announces it itself. If the cap has cut the wait, that
is the only warning, whatever has failed by then. -/
theorem Genuine.reports (h : r.Genuine) (hs : r.Reports i report s) :
    ∃ v, Reported s.lifecycle i report v ∧ (v.allDone = true → EachOnce s.lifecycle i v) := by
  obtain ⟨ws, hws⟩ := h.exists_history
  have hledger := hws.voiced
  have hreported : ∃ v, Reported s.lifecycle i report v := by
    cases hs with
    | atOnce hf hp ha hanswer =>
      obtain ⟨-, hlt, hnew, -⟩ := h.orderly.active i ha
      have hv := List.getElem?_eq_getElem hlt
      have hclosing := invocation?_closeAndPublish
        (l := { r.lifecycle with phase := .closing, active := none }) hv .blocking none
      have hcheck := finish_blocking_eq hp ha hclosing
      rw [lifecycle_call]
      -- Nobody has said anything to an invocation that was not published before.
      refine ⟨_, .of_check hclosing rfl ?_ (hcheck.symm.trans (Prod.ext rfl hanswer))⟩
      have hclosed := hush_closeStream { r.lifecycle with phase := .closing, active := none } i none
      exact (hclosed.warnings _).trans (hledger.fresh i hnew).1
    | later hcalls hcheck =>
      have hwait : (i, .wait) ∈ r.errands := by
        rw [errands_split hcalls]
        exact List.mem_append_right _ (List.mem_cons_self ..)
      obtain ⟨hpub, hnone, hmode⟩ := hledger.waits i hwait
      obtain ⟨v, hv⟩ := hledger.exists_invocation hpub
      exact ⟨v, .of_check hv (hmode v hv) hnone hcheck⟩
  obtain ⟨v, hv⟩ := hreported
  refine ⟨v, hv, fun hdone text _ => ?_⟩
  rw [hv.all hdone]

/-- The run up to a given time, at which the sinks take what has happened to them. -/
def sinksAt (r : Run) (t : Nat) : Run :=
  { r with lifecycle := ({ r.lifecycle with now := t } : Lifecycle).settle }

theorem Genuine.sinksAt (h : r.Genuine) {t : Nat} (ht : r.lifecycle.now ≤ t) :
    (r.sinksAt t).Genuine :=
  Genuine.closed.settleLifecycle (Genuine.closed.time ht h)

/-- The only sink of the invocation has timed out. -/
def overdue : Run :=
  (firstEnded ⟨0, 0, 0, 20⟩ (responders [("a", 10, none)]) .blocking).sinksAt 10

/-- One sink has timed out and another is still pending when the cap is reached. -/
def cutWait : Run :=
  ((firstEnded ⟨0, 0, 0, 20⟩ (responders [("a", 10, none), ("b", 0, none)])
    .blocking).sinksAt 10).sinksAt 20

theorem genuine_overdue : overdue.Genuine :=
  (genuine_firstEnded (fresh_responders _) _ _).sinksAt (by decide)

theorem genuine_cutWait : cutWait.Genuine :=
  ((genuine_firstEnded (fresh_responders _) _ _).sinksAt (by decide)).sinksAt (by decide)

theorem Genuine.reports_overdue : ∃ s v, overdue.Genuine ∧
    overdue.Reports 0 ⟨.blocking, [⟨"a", .timedOut⟩]⟩ s ∧
    Reported s.lifecycle 0 ⟨.blocking, [⟨"a", .timedOut⟩]⟩ v ∧ v.allDone = true ∧
    EachOnce s.lifecycle 0 v := by
  have hcalls : overdue.calls = [.finished (.answer .ok 0), .finished (.answer (.started ["a"]) 0)] ++
      .waiting (.finish 0 0 20 [false] 10 1000) none :: [] := rfl
  have hreports : overdue.Reports 0 ⟨.blocking, [⟨"a", .timedOut⟩]⟩ _ :=
    .later hcalls (Prod.ext rfl rfl)
  obtain ⟨v, hv, honce⟩ := genuine_overdue.reports hreports
  have hdone : v.allDone = true := by
    cases Option.some.inj (hv.here.symm.trans rfl)
    rfl
  exact ⟨_, v, genuine_overdue, hreports, hv, hdone, honce hdone⟩

/-- The report of the wait that the cap has cut. -/
def cutReport : Report := ⟨.blocking, [⟨"a", .timedOut⟩, ⟨"b", .pending⟩]⟩

/-- A sink that has timed out is in the report, but nobody is warned of it. -/
theorem not_eachOnce_cutWait : ∃ s v, cutWait.Genuine ∧ cutWait.Reports 0 cutReport s ∧
    s.lifecycle.invocation? 0 = some v ∧
    v.outcomes.head? = some ("a", some (.failed (.closeTimeout "a" 10))) ∧
    ¬ EachOnce s.lifecycle 0 v := by
  have hcalls : cutWait.calls =
      [.finished (.answer .ok 0), .finished (.answer (.started ["a", "b"]) 0)] ++
        .waiting (.finish 0 0 20 [false, false] 20 1000) none :: [] := rfl
  have hreports : cutWait.Reports 0 cutReport _ := .later hcalls (Prod.ext rfl rfl)
  refine ⟨_, _, genuine_cutWait, hreports, rfl, rfl, fun honce => ?_⟩
  have hcount := honce (SinkError.closeTimeout "a" 10).message (by decide)
  exact absurd hcount (by decide)

end Run

end EventUpload
