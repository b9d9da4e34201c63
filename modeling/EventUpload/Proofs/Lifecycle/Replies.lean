import EventUpload.Proofs.Lifecycle.Active
import EventUpload.Proofs.Lifecycle.ProcessEnd
import EventUpload.Proofs.Lifecycle.Reconcile
import EventUpload.Proofs.Lifecycle.Schedule

/-!
# What a reply leaves behind

A host that makes one call after another only ever sees the lifecycle that a reply leaves behind. That
lifecycle is orderly with no call waiting (`Orderly.perform`), and it is one to which time alone leads
from the lifecycle in which the call was made (`Run.passes_perform`). The two together say where a reply
finds the phase: the end of an invocation and a shutdown are left idle, a crash is left crashed, and
what was asked for is left waiting to be started.

The lemmas are about `Run.perform`, which makes a call and lets time pass until it is answered; it is
what a command does with a lifecycle. Nothing about sinks is assumed, so they hold for sinks that never
complete: the waits all have deadlines.

For the phase it is enough that time alone does not leave one, except for idle, and that each call says
at once in which phase it waits. `WindingUp` is needed for the rest: that nothing is outstanding when
the process has ended is a matter of the call that is waiting, and is shown of everything that goes on
by itself as long as that is the only call.
-/

set_option autoImplicit false

namespace EventUpload

open Lifecycle

variable {l m : Lifecycle}

/-! ## What goes on by itself

An orderly lifecycle without waiting calls is what a host finds between its calls, and it is orderly
again when its next call has been answered. -/

/-- From an orderly lifecycle, what goes on by itself leads to orderly ones, and makes no call. -/
theorem Orderly.closed (l : Lifecycle) :
    Run.Closed fun r => Orderly r.lifecycle r.roles ∧ l.Passes r.lifecycle where
  nodup := fun h => h.1.drains.1
  sinks := fun h => ⟨h.1.quiet (quiet_settleSinks _), h.2.trans (passes_afterSinks _)⟩
  drain := fun _ h => ⟨h.1.settleDrain _, h.2.trans (passes_settleDrain _ _)⟩
  time := fun hle h => ⟨h.1.drift (.time hle), h.2.aside _ _ _ _ _⟩
  look := fun h => ⟨Run.Step.orderly (.look rfl) h.1, h.2.trans (Run.passes_look _ _ none)⟩
  word := fun h => ⟨Run.Step.orderly (.word rfl) h.1, h.2.trans (.of_posts (says_endInstant _ _))⟩
  forget := fun h => ⟨Run.Step.orderly .forget h.1, h.2⟩

theorem Orderly.called {c : HostCall} (h : Orderly l []) (hc : (Run.ofLifecycle l).Admits c) :
    Orderly ((Run.ofLifecycle l).call c.make none).lifecycle
        ((Run.ofLifecycle l).call c.make none).roles ∧
      (c.make l).1.Passes ((Run.ofLifecycle l).call c.make none).lifecycle := by
  refine ⟨Run.Step.orderly (.call c hc) h, ?_⟩
  rw [Run.lifecycle_call]
  exact .refl _

/-- **A reply leaves an orderly lifecycle behind**, with no call waiting. -/
theorem Orderly.perform {c : HostCall} (h : Orderly l []) (hc : (Run.ofLifecycle l).Admits c) :
    Orderly (Run.perform l c.make none).1 [] :=
  ((Orderly.closed (c.make l).1).perform (h.called hc)).1

/-- While a host waits for its reply, nothing happens but what goes on by itself. -/
theorem Run.passes_perform {c : HostCall} (h : Orderly l []) (hc : (Run.ofLifecycle l).Admits c) :
    (c.make l).1.Passes (Run.perform l c.make none).1 :=
  ((Orderly.closed (c.make l).1).perform (h.called hc)).2

/-- The same for a call that is answered when it is made. -/
theorem Orderly.answered {c : HostCall} {a : Answer} (h : Orderly l [])
    (hc : (Run.ofLifecycle l).Admits c) (hmake : c.make l = (m, .answered a)) : Orderly m [] := by
  have hleft := h.perform hc
  rwa [Run.perform_answered c.make hmake] at hleft

theorem Run.isFree_ofLifecycle (l : Lifecycle) : (Run.ofLifecycle l).IsFree :=
  isFree_of_waitingCount rfl

/-- A reply comes at the instant that the lifecycle has reached. -/
theorem Run.now_perform {c : HostCall} {a : Answer} {t : Nat}
    (h : Run.perform l c.make none = (m, .answer a t)) : m.now = t := by
  cases hmake : c.make l with
  | mk n progress =>
    cases progress with
    | answered b =>
      rw [perform_answered c.make hmake] at h
      cases h
      rfl
    | waiting next =>
      obtain ⟨d, k, b, a', -, -, -, hnow, -, hawait⟩ :=
        await_awaiting n next (le_deadline_of_make hmake)
      rw [perform_waiting c.make hmake hawait] at h
      cases h
      rw [settle_now, check_now, settle_now, hnow]

namespace Lifecycle

variable {i : Nat}

/-! ## Before an invocation -/

/-- Asking an idle lifecycle for the next invocation is answered within the grace, and leaves it
waiting to be told to start, with nothing outstanding. -/
theorem exists_perform_before (hidle : l.phase = .idle) :
    ∃ m d, Run.perform l HostCall.before.make none = (m, .answer .ok (l.now + d)) ∧
      d ≤ l.limits.previous ∧ m.phase = .waitingPrevious ∧ m.outstanding? = none := by
  cases ho : l.outstanding? with
  | none =>
    have ho' : Lifecycle.outstanding? { l with phase := .waitingPrevious } = none := ho
    have hmake : HostCall.before.make l = (l.inPhase .waitingPrevious, .answered .ok) := by
      simp only [HostCall.make, before]
      rw [if_neg (by rw [hidle]; decide), ho']
      rfl
    exact ⟨l.inPhase .waitingPrevious, 0, Run.perform_answered _ hmake, Nat.zero_le _, rfl, ho⟩
  | some p =>
    obtain ⟨d, m, h⟩ := exists_reconciles (i := p.1) (v := p.2) hidle ho
    refine ⟨m, d, h.answered, h.within, h.phase, outstanding?_eq_none.mpr fun j hj => ?_⟩
    exact absurd (h.pending.symm.trans hj) (by simp)

/-- In any other phase it is refused, and nothing has changed. -/
theorem perform_before_of_ne (hne : l.phase ≠ .idle) (patience : Option Nat) :
    Run.perform l HostCall.before.make patience =
      (l, .answer (.refused (.outOfOrder .before l.phase)) l.now) :=
  Run.perform_answered _ (if_pos hne)

/-! ## The end of an invocation -/

theorem passes_finish (hp : l.phase = .active) (ha : l.active = some i) (mode : UploadMode)
    {v : Invocation} (hv : (l.ended i mode).invocation? i = some v) :
    (l.ended i mode).Passes (l.finish mode).1 := by
  rcases finish_cases hp ha mode hv with
    ⟨start, deadline, noticed, longest, nextWord, heq⟩ | ⟨m, n, a, hm, hn, heq⟩
  · rw [heq]
    exact passes_check _ _
  · rw [heq]
    have hdrain := (Passes.of_posts hm).aside m.now (m.drains ++ [i]) m.journal m.strays m.outside
    exact (hdrain.trans (.of_posts hn)).trans (passes_leaveClosing n)

/-- **The end of an invocation** leaves the lifecycle idle. -/
theorem perform_finish (h : Orderly l []) (hp : l.phase = .active) (mode : UploadMode) :
    (Run.perform l (HostCall.finish mode).make none).1.active = none ∧
      (Run.perform l (HostCall.finish mode).make none).1.phase = .idle := by
  obtain ⟨i, v, ha, hv⟩ := h.active_of_phase hp
  have hadmits : (Run.ofLifecycle l).Admits (.finish mode) := Run.isFree_ofLifecycle l
  have hpasses := (passes_finish hp ha mode (invocation?_ended hv mode)).trans
    (Run.passes_perform h hadmits)
  refine ⟨hpasses.active.trans (active_ended l i mode), ?_⟩
  rcases hpasses.phase with hphase | ⟨-, hphase⟩
  · -- Nobody is left who could leave the closing phase, so it has been left.
    have hclosing := (h.perform hadmits).closing (hphase.trans (phase_ended l i mode))
    exact absurd hclosing (by simp)
  · exact hphase

/-! ## The end of the process

A lifecycle that waits for a start is left out: a host that is answered never leaves one behind. -/

theorem passes_settleWithin (l : Lifecycle) (grace : Nat) (ending : Ending) :
    l.Passes (l.settleWithin grace ending).1 := by
  unfold settleWithin
  split
  · exact passes_check l _
  · dsimp only
    split
    · next hshutdown =>
      have hne : l.phase ≠ .crashed := by simpa using (Bool.and_eq_true_iff.mp hshutdown).2
      exact ⟨rfl, .inl rfl, .inr ⟨hne, rfl⟩, (Passes.refl l).invocations⟩
    · exact .refl l

theorem admits_ending (l : Lifecycle) (ending : Ending) :
    (Run.ofLifecycle l).Admits ending.call := by
  cases ending <;> trivial

/-- **The end of the process** leaves no invocation active, and the lifecycle idle after a shutdown
but crashed after a crash; a lifecycle that has crashed takes no notice. -/
theorem perform_ending (h : Orderly l []) (hp : l.phase ≠ .waitingPrevious) (ending : Ending) :
    (Run.perform l ending.call.make none).1.active = none ∧
      (Run.perform l ending.call.make none).1.phase =
        if l.phase = .crashed then .crashed else ending.final := by
  by_cases hc : l.phase = .crashed
  · rw [Run.perform_answered _ (make_ending_crashed hc ending), if_pos hc]
    refine ⟨?_, hc⟩
    cases ha : l.active with
    | none => rfl
    | some i => exact absurd (hc.symm.trans (h.active i ha).1) (by simp)
  · have hpasses := Run.passes_perform h (admits_ending l ending)
    have horderly := h.perform (admits_ending l ending)
    rw [make_ending hc] at hpasses
    obtain ⟨-, -, hphase, hactive, -⟩ := aborted_aside l ending
    have hleft := (passes_settleWithin (l.aborted ending) _ ending).trans hpasses
    have hnone := hleft.active.trans hactive
    refine ⟨hnone, ?_⟩
    rw [if_neg hc]
    cases ending with
    | crash => exact hleft.crashed hphase
    | shutdown =>
      -- The phase is what it was or idle, and the only one that fits an idle lifecycle is idle.
      rcases hleft.phase with hsame | ⟨-, hidle⟩
      · rw [hphase] at hsame
        have hsame : (Run.perform l Ending.shutdown.call.make none).1.phase = l.phase := hsame
        cases hl : l.phase with
        | idle => exact hsame.trans hl
        | waitingPrevious => exact absurd hl hp
        | crashed => exact absurd hl hc
        | active =>
          have hsome := horderly.activePhase (hsame.trans hl)
          exact absurd (hsome.resolve_right (by simp)) (fun hne => hne hnone)
        | closing => exact absurd (horderly.closing (hsame.trans hl)) (by simp)
      · exact hidle

end Lifecycle

/-! ## What the end of the process leaves outstanding -/

namespace Lifecycle

/-- A wait at the end of the process is waiting for what is pending, or nothing is outstanding. -/
def WindingUp (ending : Ending) (r : Run) : Prop :=
  r.lifecycle.outstanding? = none ∨ ∃ i grace deadline, r.lifecycle.pending = some i ∧
    ending.Fits r.lifecycle.phase ∧ r.calls = [.waiting (.settle i grace deadline ending) none]

variable {ending : Ending} {calls : List Pending}

/-- There is only one call, so it is the one that is looked at. -/
theorem eq_of_append_cons_eq_singleton {earlier later : List Pending} {call next : Call}
    (h : earlier ++ .waiting call none :: later = [.waiting next none]) :
    earlier = [] ∧ next = call ∧ later = [] := by
  cases earlier with
  | nil =>
    simp only [List.nil_append, List.cons.injEq, Pending.waiting.injEq, and_true] at h
    exact ⟨rfl, h.1.symm, h.2⟩
  | cons p earlier => simp at h

/-- It goes on like this whatever happens by itself. -/
theorem WindingUp.passes (h : WindingUp ending ⟨l, calls⟩) (hp : l.Passes m) :
    WindingUp ending ⟨m, calls⟩ := by
  rcases h with hnone | ⟨i, grace, deadline, hi, hfits, hcalls⟩
  · exact .inl (hp.outstanding?_eq_none hnone)
  · rcases hp.pending with hsame | hgone
    · exact .inr ⟨i, grace, deadline, hsame.trans hi, hp.fits hfits, hcalls⟩
    · exact .inl (outstanding?_eq_none.mpr fun j hj => absurd (hgone.symm.trans hj) (by simp))

theorem WindingUp.look {earlier later : List Pending} {call : Call}
    (h : WindingUp ending ⟨l, earlier ++ .waiting call none :: later⟩) :
    WindingUp ending ⟨(Run.after (l.check call).1 (l.check call).2 none).1,
      earlier ++ (Run.after (l.check call).1 (l.check call).2 none).2 :: later⟩ := by
  rcases h with hnone | ⟨i, grace, deadline, hi, hfits, hcalls⟩
  · exact .inl ((Run.passes_look l call none).outstanding?_eq_none hnone)
  · obtain ⟨rfl, rfl, rfl⟩ := eq_of_append_cons_eq_singleton hcalls
    rw [Run.after_none]
    rcases check_settle_cases l i grace deadline ending with hwait | ⟨-, hover⟩
    · rw [hwait]
      exact .inr ⟨i, grace, deadline, hi, hfits, rfl⟩
    · exact .inl (woundUp_check hfits (.inl hi) hover).outstanding

end Lifecycle

theorem windingUp_closed (ending : Ending) :
    Run.Closed fun r => Orderly r.lifecycle r.roles ∧ WindingUp ending r where
  nodup := fun h => h.1.drains.1
  sinks := fun h => ⟨h.1.quiet (quiet_settleSinks _), h.2.passes (passes_afterSinks _)⟩
  drain := fun _ h => ⟨h.1.settleDrain _, h.2.passes (passes_settleDrain _ _)⟩
  time := fun hle h => ⟨h.1.drift (.time hle), h.2.passes ((Passes.refl _).aside _ _ _ _ _)⟩
  look := fun h => ⟨Run.Step.orderly (.look rfl) h.1, h.2.look⟩
  word := by
    intro l earlier later call h
    refine ⟨Run.Step.orderly (.word rfl) h.1, ?_⟩
    rcases h.2 with hnone | ⟨i, grace, deadline, hi, hfits, hcalls⟩
    · exact .inl ((Passes.of_posts (says_endInstant l call)).outstanding?_eq_none hnone)
    · obtain ⟨rfl, rfl, rfl⟩ := eq_of_append_cons_eq_singleton hcalls
      exact .inr ⟨i, grace, deadline, hi, hfits, rfl⟩
  forget := by
    intro r h
    refine ⟨Run.Step.orderly .forget h.1, h.2.imp_right ?_⟩
    rintro ⟨i, grace, deadline, hi, hfits, hcalls⟩
    refine ⟨i, grace, deadline, hi, hfits, ?_⟩
    rw [hcalls]
    rfl

/-- **When the process has ended**, one way or the other, nothing is outstanding. -/
theorem Orderly.outstanding_perform_ending (h : Orderly l []) (hne : l.phase ≠ .crashed)
    (ending : Ending) : (Run.perform l ending.call.make none).1.outstanding? = none := by
  obtain ⟨-, -, hphase, -, -⟩ := aborted_aside l ending
  have hfits : ending.Fits (l.aborted ending).phase := by
    rw [hphase]
    exact ending.fits_during hne
  have hasked : WindingUp ending ((Run.ofLifecycle l).call ending.call.make none) := by
    have hmake := make_ending hne ending
    rcases settleWithin_cases (ending.grace l.limits) hfits with
      ⟨m, hm, -, -, hwound, -⟩ | ⟨i, v, ho, hm⟩
    · left
      rw [Run.lifecycle_call, Run.ofLifecycle, hmake, hm]
      exact hwound.outstanding
    · refine .inr ⟨i, ending.grace l.limits, (l.aborted ending).now + ending.grace l.limits, ?_, ?_, ?_⟩
      · rw [Run.lifecycle_call, Run.ofLifecycle, hmake, hm]
        exact (outstanding?_eq_some.mp ho).1
      · rw [Run.lifecycle_call, Run.ofLifecycle, hmake, hm]
        exact hfits
      · rw [Run.call, Run.ofLifecycle, hmake, hm]
        rfl
  rcases ((windingUp_closed ending).perform ⟨(h.called (admits_ending l ending)).1, hasked⟩).2 with
    hnone | ⟨i, grace, deadline, -, -, hcalls⟩
  · exact hnone
  · exact absurd hcalls (by simp [Run.ofLifecycle])

end EventUpload
