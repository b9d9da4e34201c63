import EventUpload.Proofs.Lifecycle.Accounts
import EventUpload.Proofs.Lifecycle.WaitingCalls
import EventUpload.Proofs.Lifecycle.LastWait
import EventUpload.Proofs.Lifecycle.Registered

/-!
# The process ends while the host waits

While the host waits for the end of an invocation its process may crash, or come to its end. Then two
wait for the same uploads, each with a limit of its own, and both of them retire the uploads and leave
the phase when they are done. `Hasty.cut_short` says what the host gets to see: the first wait is
answered with a report when the earlier of the two limits has been reached, at the latest; what was not
over when the grace was, is reported as cancelled; the uploads are retired once; and the phase is the
one that the end of the process leaves.

The instant of the report is `d` milliseconds after the process has been asked to end. `CutShort` has
what is known of it whatever the phase, and `GivesWay` what is known unless the process has crashed
before: a process that has crashed takes no notice of being asked again, and then the wait goes on under
its own cap. Somebody may have asked for the end of the process before; that wait has a limit too, and
`CutShort.earlier` says that the report is there when it is reached.

If both limits come at the same instant, which of the two calls is looked at first matters for nothing
but the report: the sinks are cancelled by the one and not by the other. So `GivesWay.cancelled` asks
for a grace that is over before the cap. `graceOver` is the lifecycle at that instant before any call is
looked at, which is where the report can be read off; what has an outcome there keeps it
(`Lifecycle/CheckedSinks`).

"Once" is counted in the journal. Both calls retire the uploads, but only one of them finds them
pending, and a retirement that finds nothing is not a clearing.
-/

set_option autoImplicit false

namespace EventUpload

open List (Forall₂)
open Relation (ReflTransGen)
open Lifecycle

namespace Call

variable {call : Call} {i start deadline longest : Nat}

theorem core_finish (h : call.core = .finish i start deadline [] longest 0) :
    ∃ noticed word, call = .finish i start deadline noticed longest word := by
  cases call with
  | reconcile index grace deadline' => exact absurd h (by simp [core])
  | settle index grace deadline' ending => exact absurd h (by simp [core])
  | finish index start' deadline' noticed longest' word =>
    cases h
    exact ⟨noticed, word, rfl⟩

end Call

namespace Invocation

/-- A report has an entry for every sink. -/
theorem names_report (v : Invocation) :
    (Report.ofOutcomes v.mode v.outcomes).outcomes.map SinkOutcome.name = v.sinks.map Sink.name := by
  simp [Report.ofOutcomes, outcomes, Function.comp_def]

theorem Onward.names {v w : Invocation} (h : v.Onward w) :
    w.sinks.map Sink.name = v.sinks.map Sink.name := by
  have hnames := congrArg (fun p : CommandIds × List (String × Nat) => p.2.map Prod.fst) h.roster
  simpa [Invocation.roster, rosterOf, Function.comp_def] using hnames

end Invocation

namespace Lifecycle

variable {l m : Lifecycle} {i grace start deadline longest word : Nat} {noticed : List Bool}
  {ending : Ending} {v : Invocation}

/-- The end of an invocation leaves the closing phase when it is over. -/
theorem phase_check_finish {a : Answer}
    (h : (l.check (.finish i start deadline noticed longest word)).2 = .answered a) :
    (l.check (.finish i start deadline noticed longest word)).1.phase ≠ .closing := by
  simp only [check] at h ⊢
  split at h
  · exact Orderly.leaveClosing_phase l
  · split at h
    · next hdone =>
      rw [if_pos hdone]
      exact Orderly.leaveClosing_phase _
    · next hdone =>
      rw [if_neg hdone]
      split at h
      · next hdue =>
        rw [if_pos hdue]
        exact Orderly.leaveClosing_phase _
      · exact absurd h (by simp)

theorem Passes.not_closing (h : l.Passes m) (hl : l.phase ≠ .closing) : m.phase ≠ .closing := by
  rcases h.phase with hm | ⟨-, hm⟩
  · rwa [hm]
  · rw [hm]
    simp

/-- Without a grace nobody waits. -/
theorem pos_of_settleWithin {call : Call} (h : (l.settleWithin grace ending).2 = .waiting call) :
    0 < grace := by
  unfold settleWithin at h
  split at h
  · have hlt := (hasToWait_of_check h).1.lt
    exact Nat.pos_of_lt_add_right hlt
  · exact absurd h (by simp)

end Lifecycle

namespace Run

variable {r s : Run} {i k d start deadline longest word : Nat} {noticed : List Bool}
  {ending : Ending} {v w : Invocation}

/-! ## The end of the process is asked for

A crash or a shutdown comes while the end of an invocation waits, and begins a wait of its own beside
it, unless the process has crashed before. Both calls look at the same uploads. -/

theorem asked_crashed (hp : r.lifecycle.phase = .crashed) (ending : Ending) :
    r.asked ending = ⟨r.lifecycle, r.calls ++ [.finished (.answer .ok r.lifecycle.now)]⟩ := by
  rw [asked, call, make_ending_crashed hp]
  rfl

/-- Unless the process has crashed before, its uploads are outstanding no longer, or waited for. -/
theorem asked_cases (hp : r.lifecycle.phase ≠ .crashed) (ending : Ending) :
    (r.lifecycle.aborted ending).Passes (r.asked ending).lifecycle ∧
      (r.asked ending).lifecycle.now = r.lifecycle.now ∧
      ((r.asked ending).lifecycle.outstanding? = none ∨
        0 < ending.grace r.lifecycle.limits ∧ ∀ i, (r.asked ending).lifecycle.pending = some i →
          .waiting (.settle i (ending.grace r.lifecycle.limits)
            (r.lifecycle.now + ending.grace r.lifecycle.limits) ending) none ∈ (r.asked ending).calls) := by
  obtain ⟨hnow, -, hphase, -, -⟩ := aborted_aside r.lifecycle ending
  have hfits : ending.Fits (r.lifecycle.aborted ending).phase := by
    rw [hphase]
    exact ending.fits_during hp
  have hmake := make_ending hp ending
  rcases settleWithin_cases (ending.grace r.lifecycle.limits) hfits with
    ⟨m, hm, hpasses, hmnow, hwound, -⟩ | ⟨j, v, ho, hm⟩
  · have hlifecycle : (r.asked ending).lifecycle = m := by
      rw [asked, lifecycle_call, hmake, hm]
    rw [hlifecycle]
    exact ⟨hpasses, hmnow.trans hnow, .inl hwound.outstanding⟩
  · have hlifecycle : (r.asked ending).lifecycle = r.lifecycle.aborted ending := by
      rw [asked, lifecycle_call, hmake, hm]
    have hcalls : (r.asked ending).calls = r.calls ++ [.waiting (.settle j
        (ending.grace r.lifecycle.limits) (r.lifecycle.now + ending.grace r.lifecycle.limits) ending)
        none] := by
      rw [asked, call, hmake, hm, hnow]
      rfl
    rw [hlifecycle, hcalls]
    refine ⟨.refl _, hnow, .inr ⟨pos_of_settleWithin (congrArg Prod.snd hm), fun i hi => ?_⟩⟩
    obtain rfl := Option.some.inj ((outstanding?_eq_some.mp ho).1.symm.trans hi)
    exact List.mem_append_right _ (List.mem_singleton.mpr rfl)

theorem now_asked (r : Run) (ending : Ending) : (r.asked ending).lifecycle.now = r.lifecycle.now := by
  by_cases hp : r.lifecycle.phase = .crashed
  · rw [asked_crashed hp]
  · exact (asked_cases hp ending).2.1

theorem endsBy_asked (hp : r.lifecycle.phase ≠ .crashed)
    (hv : (r.asked ending).lifecycle.invocation? i = some v) (hne : v.sinks ≠ []) :
    (r.asked ending).EndsBy i (r.lifecycle.now + ending.grace r.lifecycle.limits) := by
  intro hi
  rcases (asked_cases hp ending).2.2 with hnone | ⟨-, hwaits⟩
  · exact absurd (outstanding?_eq_none.mp hnone i hi v hv) hne
  · exact ⟨_, _, hwaits i hi⟩

/-- While somebody waits no invocation is active, so nothing is closed. -/
theorem sheds_asked (hsound : r.lifecycle.Sound) (ha : r.lifecycle.active = none)
    (hp : r.lifecycle.phase ≠ .crashed) : r.lifecycle.Sheds (r.asked ending).lifecycle := by
  have haborted : r.lifecycle.Sheds (r.lifecycle.aborted ending) := by
    rw [aborted_of_inactive ha]
    exact (sheds_refl hsound).same rfl
  rw [asked, lifecycle_call, make_ending hp]
  exact haborted.trans (sheds_settleWithin haborted.sound _ ending)

/-- The lifecycle when the grace of the end of the process is over: everything has come about that does so
by itself, and no call has been looked at. Without a grace that is the lifecycle as it is. -/
def graceOver (r : Run) (ending : Ending) : Lifecycle :=
  if ending.grace r.lifecycle.limits = 0 then r.lifecycle
  else ((r.asked ending).arrival (ending.grace r.lifecycle.limits)).lifecycle.settle

/-! ## The answer to the end of an invocation

The call that was waiting first is answered as soon as the uploads are over, and at its own deadline at
the latest. If they are over because they were given up, the report says so. -/

/-- What the look finds that answers the end of an invocation. -/
theorem AnsweredFrom.finished {l : Lifecycle}
    (h : AnsweredFrom l k (.finish i start deadline [] longest 0) s) (hv : l.invocation? i = some v) :
    ∃ u w, v.Onward u ∧ s.lifecycle.invocation? i = some w ∧ u.Onward w ∧
      s.calls[k]? = some (.finished (.answer (reportOf u) l.now)) ∧
      (u.allDone = true ∨ deadline ≤ l.now) ∧ s.lifecycle.phase ≠ .closing := by
  obtain ⟨m, call, a, hm, hnow, hcore, hanswer, hlater, hreply⟩ := h
  obtain ⟨noticed, word, rfl⟩ := Call.core_finish hcore
  obtain ⟨u, hu, hvu⟩ := hm.invocation? hv
  have hover := over_of_check_finish start deadline noticed longest word hu hanswer
  obtain ⟨hreport, hsame⟩ := check_finish_answered start deadline noticed longest word hu hover
  obtain ⟨w, hw, huw⟩ := hlater.invocation? ((congrArg (·[i]?) hsame).trans hu)
  cases hanswer.symm.trans hreport
  exact ⟨u, w, hvu.onward, hw, huw.onward, hreply, hnow ▸ hover,
    hlater.not_closing (phase_check_finish hanswer)⟩

/-- How the wait for the end of an invocation gives way to the end of the process. -/
structure GivesWay (r : Run) (ending : Ending) (i deadline d : Nat) (report : Report) : Prop where
  /-- It is answered when the grace is over, at the latest. -/
  within : d ≤ ending.grace r.lifecycle.limits
  /-- If the grace is over before the cap is reached, what has no outcome then is reported as cancelled. -/
  cancelled : d = ending.grace r.lifecycle.limits → r.lifecycle.now + d < deadline →
    ∃ u, (r.graceOver ending).invocation? i = some u ∧ report = .ofOutcomes .blocking (u.sinks.map fun s =>
      (s.name, s.seen.done.resolve (.failed (.cancelled s.name))))
  /-- Whatever else the host does in the meantime: when everything at an instant has been done, whoever waits
  for the end of the invocation has neither reached his cap nor the end of the grace. -/
  meanwhile : ∀ t, ReflTransGen Proceeds (r.asked ending) t → t.Rests →
    ∀ call, .waiting call none ∈ t.calls → call.errand = (i, .wait) →
      t.lifecycle.now < call.deadline ∧
        t.lifecycle.now < r.lifecycle.now + ending.grace r.lifecycle.limits
  /-- When the end of the process has returned, -/
  phase : (r.woundUp ending).lifecycle.phase = ending.final
  /-- the uploads have been retired, once and for all. -/
  retired : ∀ t, ReflTransGen Proceeds (r.woundUp ending) t → clearings i t.lifecycle.journal = 1

/-- **What becomes of a wait** for the end of an invocation when the host asks for the end of the process:
`d` milliseconds later it is answered with a report. -/
structure CutShort (r : Run) (ending : Ending) (k i deadline : Nat) (v : Invocation) (d : Nat)
    (report : Report) : Prop where
  reply : ((r.asked ending).arrival d).settle.calls[k]? =
    some (.finished (.answer (.report report) (r.lifecycle.now + d)))
  /-- At no instant before it has been answered. -/
  waits : ∀ e < d, ((r.asked ending).arrival e).settle.calls[k]?.bind Pending.reply? = none
  /-- It is answered when its cap is reached, at the latest, -/
  capped : d ≤ deadline - r.lifecycle.now
  /-- or when somebody has waited long enough who has asked for the end of the process before. -/
  earlier : ∀ grace limit other, .waiting (.settle i grace limit other) none ∈ r.calls →
    d ≤ limit - r.lifecycle.now
  mode : report.mode = .blocking
  sinks : report.outcomes.map SinkOutcome.name = v.sinks.map Sink.name
  /-- If its cap is not reached all sinks are over, and the report says how they have ended. -/
  ended : r.lifecycle.now + d < deadline → ∃ w,
    ((r.asked ending).arrival d).settle.lifecycle.invocation? i = some w ∧ w.allDone = true ∧
      report = .ofOutcomes .blocking w.outcomes
  phase : ((r.asked ending).arrival d).settle.lifecycle.phase =
    if r.lifecycle.phase = .crashed then .crashed else ending.final
  /-- A process that has crashed before takes no notice. -/
  ignored : r.lifecycle.phase = .crashed →
    r.asked ending = ⟨r.lifecycle, r.calls ++ [.finished (.answer .ok r.lifecycle.now)]⟩
  givesWay : r.lifecycle.phase ≠ .crashed → r.GivesWay ending i deadline d report

namespace Awaited

/-- The end of the process changes nothing of it. -/
theorem asked (h : r.Awaited i start v) (ending : Ending) :
    ∃ u, (r.asked ending).Awaited i start u ∧ v.Onward u := by
  obtain ⟨honward, hphase⟩ := course_ending h.inactive ending
  have hlifecycle : (r.asked ending).lifecycle = (ending.call.make r.lifecycle).1 := lifecycle_call r _
  rw [← hlifecycle] at honward hphase
  obtain ⟨u, hu, hvu⟩ := forall₂_getElem? honward h.invocation
  refine ⟨u, ?_, hvu⟩
  exact {
    hasty := h.hasty.asked ending
    inactive := by
      by_cases hp : r.lifecycle.phase = .crashed
      · rw [asked_crashed hp]
        exact h.inactive
      · exact (asked_cases hp ending).1.active.trans (aborted_aside r.lifecycle ending).2.2.2.1
    phase := by
      rcases hphase with hsame | hover
      · rw [hsame]
        exact h.phase
      · exact .inr hover
    published := (proceeds_asked r ending).published h.hasty.orderly h.published
    invocation := hu
    sinks := hvu.sinks_ne_nil h.sinks
    watched := h.watched.onward hvu
    mode := hvu.mode.trans h.mode }

theorem endsBy (h : r.Awaited i start v) (hp : r.lifecycle.phase ≠ .crashed) (ending : Ending) :
    (r.asked ending).EndsBy i (r.lifecycle.now + ending.grace r.lifecycle.limits) := by
  obtain ⟨u, hu, -⟩ := h.asked ending
  exact endsBy_asked hp hu.invocation hu.sinks

/-- What is not outstanding has been cleared away. -/
theorem cleared (h : r.Awaited i start v) (hs : ReflTransGen Proceeds r s)
    (hw : s.lifecycle.invocation? i = some w) (hvw : v.Onward w)
    (hnone : s.lifecycle.outstanding? = none) : s.lifecycle.Cleared i :=
  ⟨h.hasty.published_of_proceeds hs h.published, fun hi =>
    hvw.sinks_ne_nil h.sinks (outstanding?_eq_none.mp hnone i hi w hw)⟩

/-- Whoever is still waiting at the end of an instant has neither reached his cap nor the end of the
grace. -/
theorem meanwhile (h : r.Awaited i start v) (hp : r.lifecycle.phase ≠ .crashed)
    (hs : ReflTransGen Proceeds (r.asked ending) s) (hrest : s.Rests) {call : Call}
    (hcall : .waiting call none ∈ s.calls) (herrand : call.errand = (i, .wait)) :
    s.lifecycle.now < call.deadline ∧
      s.lifecycle.now < r.lifecycle.now + ending.grace r.lifecycle.limits := by
  obtain ⟨u, hu, -⟩ := h.asked ending
  have hwait := hrest.calls call none hcall
  refine ⟨hwait.lt, ?_⟩
  cases call with
  | reconcile index grace deadline => exact absurd herrand (by simp [Call.errand])
  | settle index grace deadline ending => exact absurd herrand (by simp [Call.errand])
  | finish index start deadline noticed longest word =>
    obtain rfl : index = i := congrArg Prod.fst herrand
    obtain ⟨w, hw, hopen, -⟩ := hwait
    exact ((endsBy_of_proceeds hu.hasty hu.published (h.endsBy hp ending) hs).lt_of_rests
      (hu.hasty.of_proceeds hs) (hu.hasty.published_of_proceeds hs hu.published) hrest hw hopen).2

/-- When the grace is over, what has no outcome is cancelled. -/
theorem outcomes (h : r.Awaited i start v) (hp : r.lifecycle.phase ≠ .crashed)
    (hd : d = ending.grace r.lifecycle.limits)
    (hat : ((r.asked ending).arrival d).lifecycle.now = r.lifecycle.now + d)
    (hw : ((r.asked ending).arrival d).settle.lifecycle.invocation? i = some w) :
    ∃ u, (r.graceOver ending).invocation? i = some u ∧ w.outcomes = u.sinks.map fun s =>
      (s.name, s.seen.done.resolve (.failed (.cancelled s.name))) := by
  obtain ⟨u, hu, hvu⟩ := h.asked ending
  by_cases hgrace : ending.grace r.lifecycle.limits = 0
  · rw [graceOver, if_pos hgrace]
    refine ⟨v, h.invocation, ?_⟩
    -- The call itself has given up what was left.
    have hnone : (r.asked ending).lifecycle.outstanding? = none :=
      (asked_cases hp ending).2.2.resolve_right fun hwaits => absurd hgrace (Nat.ne_of_gt hwaits.1)
    have hover := hu.hasty.allDone (hu.cleared .refl hu.invocation (.refl u) hnone) hu.invocation
    obtain ⟨⟨_, hvoiced⟩, -⟩ := h.hasty.voiced
    obtain ⟨w', hw', huw⟩ :=
      ((passes_arrival _ d).trans (passes_settleRounds _ _)).invocation? hu.invocation
    cases hw.symm.trans hw'
    rw [huw.onward.outcomes hover]
    exact (sheds_asked hvoiced.sound h.inactive hp).outcomes h.invocation hu.invocation hover
  · rw [graceOver, if_neg hgrace, ← hd]
    have hs := hu.hasty.proceeds_arrival d
    obtain ⟨u', hu', -⟩ := ((passes_arrival _ d).trans (passes_settle _)).invocation? hu.invocation
    refine ⟨u', hu', ?_⟩
    refine (endsBy_of_proceeds hu.hasty hu.published (h.endsBy hp ending) hs).outcomes
      (hu.hasty.of_proceeds hs) (hu.hasty.published_of_proceeds hs hu.published) ?_ hu' hw
    rw [hat, hd]

theorem givesWay (h : r.Awaited i start v) (hp : r.lifecycle.phase ≠ .crashed) {report : Report}
    (hat : ((r.asked ending).arrival d).lifecycle.now = r.lifecycle.now + d)
    (hbefore : ∀ e < d, ∃ w, ((r.asked ending).arrival e).settle.lifecycle.invocation? i = some w ∧
      w.allDone = false)
    (hover : r.lifecycle.now + d < deadline → ∃ w,
      ((r.asked ending).arrival d).settle.lifecycle.invocation? i = some w ∧ w.allDone = true ∧
        report = .ofOutcomes .blocking w.outcomes) : r.GivesWay ending i deadline d report := by
  obtain ⟨u, hu, -⟩ := h.asked ending
  obtain ⟨d', hd'⟩ := exists_windsUp r ending hp
  have hs : ReflTransGen Proceeds (r.asked ending) (r.woundUp ending) := by
    rw [hd'.instant]
    exact (hu.hasty.proceeds_arrival d').trans (hu.hasty.arrival d').proceeds_settle
  have hwound := hu.hasty.of_proceeds hs
  obtain ⟨w, hw, huw⟩ : ∃ w, (r.woundUp ending).lifecycle.invocation? i = some w ∧ u.Unasked w := by
    rw [hd'.instant]
    exact ((passes_arrival _ d').trans (passes_settleRounds _ _)).invocation? hu.invocation
  have hcleared := hu.cleared hs hw huw.onward hd'.outstanding
  exact {
    within := by
      by_contra hlate
      obtain ⟨w, hw, hopen⟩ := hbefore _ (Nat.not_le.mp hlate)
      have hlt := (h.endsBy hp ending).lt hu.hasty hu.published hw hopen
      rw [now_asked] at hlt
      exact absurd hlt (Nat.lt_irrefl _)
    cancelled := fun hd hlt => by
      obtain ⟨w, hw, -, hreport⟩ := hover hlt
      obtain ⟨u', hu', houtcomes⟩ := h.outcomes hp hd hat hw
      exact ⟨u', hu', houtcomes ▸ hreport⟩
    meanwhile := fun t ht hrest call hcall herrand => h.meanwhile hp ht hrest hcall herrand
    phase := hd'.phase
    retired := fun t ht => by
      obtain ⟨x, hx, hroster⟩ := hwound.roster_of_proceeds ht hw
      have hfull := Invocation.sinks_ne_nil_of_roster hroster (huw.onward.sinks_ne_nil hu.sinks)
      obtain ⟨hpub, hnot⟩ := cleared_of_proceeds hwound ht hcleared
      have honce := ((hwound.of_proceeds ht).orderly.accounted.once i x hx hfull hpub).2
      exact (honce.resolve_left fun hpending => hnot hpending.1).2 }

end Awaited

/-- The phase when the wait has been answered. -/
theorem Awaited.phase_answered (h : r.Awaited i start v) (ending : Ending)
    (hpasses : (r.asked ending).lifecycle.Passes s.lifecycle) (hleft : s.lifecycle.phase ≠ .closing) :
    s.lifecycle.phase = if r.lifecycle.phase = .crashed then .crashed else ending.final := by
  by_cases hp : r.lifecycle.phase = .crashed
  · rw [if_pos hp]
    rw [asked_crashed hp] at hpasses
    exact hpasses.crashed hp
  · rw [if_neg hp]
    have hlater := (asked_cases hp ending).1.trans hpasses
    have hduring := (aborted_aside r.lifecycle ending).2.2.1
    cases ending with
    | crash => exact hlater.crashed hduring
    | shutdown =>
      have hsame : (r.lifecycle.aborted .shutdown).phase = r.lifecycle.phase := hduring
      rcases hlater.phase with hkept | ⟨-, hidle⟩
      · rw [hkept, hsame] at hleft ⊢
        exact (h.phase.resolve_left hleft).resolve_right hp
      · exact hidle

/-- **The process ends while the host waits.** Whoever else is waiting and whatever the sinks do: the wait
for the end of an invocation is answered with a report, before its cap is reached and before the grace of
the end of the process is over; what has no outcome when the grace is over is reported as cancelled; and
when all have returned the uploads have been retired once, and the process has crashed or is idle. -/
theorem Hasty.cut_short (h : r.Hasty) (hcall : r.calls[k]? =
    some (.waiting (.finish i start deadline noticed longest word) none)) (ending : Ending) :
    ∃ v d report, r.lifecycle.invocation? i = some v ∧ r.CutShort ending k i deadline v d report := by
  obtain ⟨v, hv⟩ := h.awaited (List.mem_of_getElem? hcall)
  obtain ⟨u, hu, hvu⟩ := hv.asked ending
  have hwaits : (r.asked ending).Waits k (.finish i start deadline [] longest 0) := by
    refine ⟨.finish i start deadline noticed longest word, ?_, rfl⟩
    exact (List.getElem?_append_left (List.getElem?_eq_some_iff.mp hcall).1).trans hcall
  obtain ⟨d, hcapped, hat, hanswered, hbefore⟩ := exists_answeredFrom hwaits
  rw [now_asked] at hcapped hat
  have hlater := passes_arrival (r.asked ending) d
  obtain ⟨u', hu', huu'⟩ := hlater.invocation? hu.invocation
  obtain ⟨x, w, hux, hw, hxw, hreply, hdone, hphase⟩ := hanswered.finished hu'
  rw [hat] at hreply hdone
  have hvx : v.Onward x := (hvu.trans huu'.onward).trans hux
  have hmode : x.mode = .blocking := hvx.mode.trans hv.mode
  have hopen (e : Nat) (he : e < d) : ∃ w,
      ((r.asked ending).arrival e).settle.lifecycle.invocation? i = some w ∧ w.allDone = false := by
    obtain ⟨w, hw, hopen, -⟩ := (hbefore e he).hasToWait
    exact ⟨w, hw, hopen⟩
  have hover (hlt : r.lifecycle.now + d < deadline) : ∃ w,
      ((r.asked ending).arrival d).settle.lifecycle.invocation? i = some w ∧ w.allDone = true ∧
        (.ofOutcomes x.mode x.outcomes : Report) = .ofOutcomes .blocking w.outcomes := by
    have hall := hdone.resolve_right (Nat.not_le.mpr hlt)
    refine ⟨w, hw, hxw.allDone hall, ?_⟩
    rw [hmode, hxw.outcomes hall]
  exact ⟨v, d, .ofOutcomes x.mode x.outcomes, hv.invocation, {
    reply := hreply
    waits := fun e he => by
      obtain ⟨call, hcall, -⟩ := hbefore e he
      rw [hcall]
      rfl
    capped := hcapped
    earlier := fun grace limit other hmem => by
      by_contra hlate
      have hends : (r.asked ending).EndsBy i limit := fun _ =>
        ⟨grace, other, List.mem_append_left _ hmem⟩
      obtain ⟨w, hw, hopen⟩ := hopen _ (Nat.not_le.mp hlate)
      have hlt := hends.lt hu.hasty hu.published hw hopen
      rw [now_asked] at hlt
      omega
    mode := hmode
    sinks := x.names_report.trans hvx.names
    ended := hover
    phase := hv.phase_answered ending (hlater.trans (passes_settleRounds _ _)) hphase
    ignored := fun hp => asked_crashed hp ending
    givesWay := fun hp => hv.givesWay hp hat hopen hover }⟩

/-- A run in which the host waits for two sinks, of which one will soon be done and the other never. -/
def halfUpload : Run :=
  firstEnded ⟨0, 2, 5, 100⟩ (responders [("quick", 0, some (1, .done)), ("stuck", 0, none)]) .blocking

theorem hasty_halfUpload : halfUpload.Hasty :=
  (genuine_firstEnded (fresh_responders _) ⟨0, 2, 5, 100⟩ .blocking).hasty

theorem cut_short_halfUpload : halfUpload.lifecycle.phase = .closing ∧
    ∃ v, halfUpload.lifecycle.invocation? 0 = some v ∧ v.allDone = false ∧
      halfUpload.CutShort .crash 2 0 100 v 2
        ⟨.blocking, [⟨"quick", .succeeded⟩, ⟨"stuck", .cancelled⟩]⟩ := by
  refine ⟨rfl, ?_⟩
  obtain ⟨v, d, report, hv, hcut⟩ := hasty_halfUpload.cut_short (k := 2) rfl .crash
  have hnow : halfUpload.lifecycle.now = 0 := rfl
  have hwithin : d ≤ 2 := (hcut.givesWay (by decide)).within
  have hreply := hcut.reply
  have hd : d = 2 := by
    by_contra hne
    obtain rfl | rfl : d = 0 ∨ d = 1 := by omega
    · have hwaits : ((halfUpload.asked .crash).arrival 0).settle.calls[2]?.bind Pending.reply? = none := rfl
      rw [hreply] at hwaits
      exact absurd hwaits (by simp [Pending.reply?])
    · have hwaits : ((halfUpload.asked .crash).arrival 1).settle.calls[2]?.bind Pending.reply? = none := rfl
      rw [hreply] at hwaits
      exact absurd hwaits (by simp [Pending.reply?])
  subst hd
  have hsame : ((halfUpload.asked .crash).arrival 2).settle.calls[2]? = some (.finished (.answer (.report
      ⟨.blocking, [⟨"quick", .succeeded⟩, ⟨"stuck", .cancelled⟩]⟩) 2)) := rfl
  cases hreply.symm.trans hsame
  refine ⟨v, hv, ?_, hcut⟩
  cases hv
  rfl

end Run

end EventUpload
