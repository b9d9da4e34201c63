import EventUpload.Proofs.Lifecycle.Orderly
import Mathlib.Logic.Relation

/-!
# The order of calls

An operation is accepted in its phase and refused in every other one; a refusal leaves everything as it
was. That much can be read off the operations one by one. That a call which was accepted is not refused
later, that a crash is final, and that between calls the phase says whether an invocation is active, are
facts about runs: the phase and the active invocation change at different moments, and a crash may come
while another call is waiting.

`Reachable.in_order` has all of it, for whatever a run does.

"Between calls" is `Run.IsFree`, and it cannot be left out. While the end of an invocation waits, the
phase is the closing one and no invocation is active; while a shutdown waits, the phase may still be the
active one although the invocation has been taken away. Both are over when the call is answered.

A refusal hands back sinks that were to be registered. They are let go of and become strays of the
lifecycle, so `HostCall.Refused` compares the states with their strays left out; everything else is
equal and not merely onward. A crash is accepted in every phase, the idle one included, and it is final
from then on: a call that was waiting when it came still ends, but cannot lead out of it
(`Looks.crashed`).
-/

set_option autoImplicit false

namespace EventUpload

open Lifecycle

/-! ## Refusals

A start that is refused has sinks in its hands. These are let go of, and nothing else changes. -/

/-- A call is refused: it says so with its operation and the phase, and nothing else has changed.
Sinks that were to be handed over are let go. -/
structure HostCall.Refused (c : HostCall) (operation : Operation) (l : Lifecycle) : Prop where
  answer : (c.make l).2 = .answered (.refused (.outOfOrder operation l.phase))
  untouched : { (c.make l).1 with strays := l.strays } = l

/-- Whether a call was answered by a refusal. -/
def Pending.isRefused : Pending → Bool
  | finished (.answer (.refused _) _) => true
  | _ => false

@[simp] theorem Pending.isRefused_waiting (call : Call) (patience : Option Nat) :
    (waiting call patience).isRefused = false := rfl

/-- How many calls were refused. -/
def Run.refusals (r : Run) : Nat := r.calls.countP Pending.isRefused

namespace HostCall

variable {c : HostCall} {operation : Operation} {l : Lifecycle}

theorem refused_of_phase_ne (hc : c.operation? = some operation)
    (hp : l.phase ≠ operation.phase) : c.Refused operation l := by
  cases c with
  | before =>
    cases hc
    have h : l.before = (l, l.refuse .before) := if_pos hp
    exact ⟨congrArg Prod.snd h, by rw [make, h]⟩
  | start ids sinks =>
    cases hc
    have h : l.start ids sinks = (l.letGo sinks, l.refuse .start) := if_pos hp
    exact ⟨congrArg Prod.snd h, by rw [make, h]; rfl⟩
  | finish mode =>
    cases hc
    have h : l.finish mode = (l, l.refuse .finish) := if_pos hp
    exact ⟨congrArg Prod.snd h, by rw [make, h]⟩
  | abandon =>
    cases hc
    have h : l.abandon = (l, l.refuse .abandon) := if_pos hp
    exact ⟨congrArg Prod.snd h, by rw [make, h]⟩
  | crash => exact absurd hc (by simp [operation?])
  | shutdown => exact absurd hc (by simp [operation?])

end HostCall

namespace Lifecycle

/-- Looking at a call never leads to a refusal. -/
theorem check_not_refused (l : Lifecycle) (call : Call) (f : Failure) :
    (l.check call).2 ≠ .answered (.refused f) := by
  intro h
  have hl := looks_check l call
  rw [h] at hl
  exact hl.not_refused f rfl

theorem settleWithin_not_refused (l : Lifecycle) (grace : Nat) (ending : Ending) (f : Failure) :
    (l.settleWithin grace ending).2 ≠ .answered (.refused f) := by
  unfold settleWithin
  split
  · exact check_not_refused _ _ f
  · simp

end Lifecycle

namespace HostCall

variable {c : HostCall} {operation : Operation} {l : Lifecycle}

/-- In the phase that it needs a call is not refused. -/
theorem not_refused_of_phase_eq (hc : c.operation? = some operation)
    (hp : l.phase = operation.phase) (f : Failure) : (c.make l).2 ≠ .answered (.refused f) := by
  have hne : ¬ l.phase ≠ operation.phase := fun h => h hp
  cases c with
  | before =>
    cases hc
    simp only [make, Lifecycle.before, if_neg hne]
    split
    · simp
    · exact check_not_refused _ _ f
  | start ids sinks =>
    cases hc
    simp only [make, Lifecycle.start, if_neg hne]
    simp
  | finish mode =>
    cases hc
    simp only [make, Lifecycle.finish, if_neg hne]
    split
    · simp
    · split
      · simp
      · split
        · exact check_not_refused _ _ f
        · simp
  | abandon =>
    cases hc
    simp only [make, Lifecycle.abandon, if_neg hne]
    simp
  | crash => exact absurd hc (by simp [operation?])
  | shutdown => exact absurd hc (by simp [operation?])

/-- The end of the process is never refused. -/
theorem not_refused_of_ending (hc : c.operation? = none) (f : Failure) :
    (c.make l).2 ≠ .answered (.refused f) := by
  cases c with
  | crash =>
    simp only [make, Lifecycle.crash]
    split
    · simp
    · exact settleWithin_not_refused _ _ _ f
  | shutdown =>
    simp only [make, Lifecycle.shutdown]
    split
    · simp
    · exact settleWithin_not_refused _ _ _ f
  | before => exact absurd hc (by simp [operation?])
  | start ids sinks => exact absurd hc (by simp [operation?])
  | finish mode => exact absurd hc (by simp [operation?])
  | abandon => exact absurd hc (by simp [operation?])

end HostCall

namespace Run

theorem isRefused_after {l : Lifecycle} {progress : Progress}
    (h : ∀ f, progress ≠ .answered (.refused f)) :
    (after l progress none).2.isRefused = false := by
  cases progress with
  | waiting call => rfl
  | answered a =>
    cases a with
    | refused f => exact absurd rfl (h f)
    | ok => rfl
    | started names => rfl
    | report report => rfl

theorem refusals_call (r : Run) (c : HostCall) : (r.call c.make none).refusals = r.refusals +
    [(after (c.make r.lifecycle).1 (c.make r.lifecycle).2 none).2].countP Pending.isRefused := by
  rw [refusals, refusals, ← List.countP_append]
  rfl

/-- A refusal is the answer to a call that was made out of its phase, at once. -/
theorem Step.refusal {r s : Run} (h : r.Step s) (hmore : r.refusals < s.refusals) :
    ∃ c operation, HostCall.operation? c = some operation ∧
      r.lifecycle.phase ≠ operation.phase ∧ s = r.call c.make none := by
  cases h with
  | drift _ => exact absurd hmore (Nat.lt_irrefl _)
  | @look earlier later call hcalls =>
    -- A call that waits was accepted, and looking at it never refuses it.
    have hnew := isRefused_after (l := (r.lifecycle.check call).1)
      (check_not_refused r.lifecycle call)
    simp [refusals, hcalls, hnew] at hmore
  | @word earlier later call hcalls =>
    simp [refusals, hcalls] at hmore
  | call c _ =>
    rcases ho : c.operation? with _ | operation
    · have hnew := isRefused_after (l := (c.make r.lifecycle).1)
        (HostCall.not_refused_of_ending (l := r.lifecycle) ho)
      rw [refusals_call] at hmore
      simp [hnew] at hmore
    · by_cases hp : r.lifecycle.phase = operation.phase
      · have hnew := isRefused_after (l := (c.make r.lifecycle).1)
          (HostCall.not_refused_of_phase_eq ho hp)
        rw [refusals_call] at hmore
        simp [hnew] at hmore
      · exact ⟨c, operation, ho, hp, rfl⟩
  | forget =>
    have hle : List.countP Pending.isRefused (r.calls.filter Pending.isWaiting) ≤
        List.countP Pending.isRefused r.calls := List.filter_sublist.countP_le
    exact absurd hmore (Nat.not_lt.mpr hle)

end Run

/-! ## After a crash

No operation belongs to this phase, and whatever was waiting does not lead out of it. -/

namespace Lifecycle

variable {l m : Lifecycle}

theorem leaveClosing_of_crashed (h : l.phase = .crashed) : l.leaveClosing = l := by
  unfold leaveClosing
  rw [if_neg (by rw [h]; simp)]

theorem Drift.phase (h : l.Drift m) : m.phase = l.phase := by
  cases h with
  | quiet hq => exact hq.phase
  | drain _ =>
    unfold settleDrain
    split
    · split
      · exact (quiet_endDrain _ _ _).phase
      · rfl
    · rfl
  | time _ => rfl
  | limits _ => rfl

/-- Whatever was waiting when the crash came, its end does not lead out of the crash. -/
theorem Looks.crashed {call : Call} {p : Progress} (h : l.Looks call m p)
    (hc : l.phase = .crashed) : m.phase = .crashed := by
  cases h with
  | goesOn hq _ => exact hq.phase.trans hc
  | reconciled hq => exact hq.phase.trans hc
  | vacuous _ => exact hc
  | finished hq =>
    have hn := hq.phase.trans hc
    rw [leaveClosing_of_crashed hn]
    exact hn
  | cut hq _ =>
    have hn := hq.phase.trans hc
    rw [leaveClosing_of_crashed hn]
    exact hn
  | @settled _ _ _ ending n hq =>
    have hn : n.phase = .crashed := hq.phase.trans hc
    simp [Ending.phaseAfter, hn]

end Lifecycle

/-- No operation belongs to the crashed phase. -/
theorem Operation.phase_ne_crashed (operation : Operation) : operation.phase ≠ .crashed := by
  cases operation <;> simp [Operation.phase]

theorem HostCall.make_crashed {l : Lifecycle} (c : HostCall) (h : l.phase = .crashed) :
    (c.make l).1.phase = .crashed := by
  rcases ho : c.operation? with _ | operation
  · cases c with
    | crash =>
      rw [make, Lifecycle.crash, if_pos h]
      exact h
    | shutdown =>
      rw [make, Lifecycle.shutdown, if_pos h]
      exact h
    | before => exact absurd ho (by simp [operation?])
    | start ids sinks => exact absurd ho (by simp [operation?])
    | finish mode => exact absurd ho (by simp [operation?])
    | abandon => exact absurd ho (by simp [operation?])
  · -- Everything else is refused, and a refusal leaves the phase as it is.
    have hp : l.phase ≠ operation.phase := by
      rw [h]
      exact Ne.symm operation.phase_ne_crashed
    have hu := congrArg Lifecycle.phase (refused_of_phase_ne ho hp).untouched
    exact hu.trans h

namespace Run

theorem Step.crashed {r s : Run} (h : r.Step s) (hc : r.lifecycle.phase = .crashed) :
    s.lifecycle.phase = .crashed := by
  cases h with
  | drift hd => exact hd.phase.trans hc
  | look _ =>
    rw [after_none]
    exact (looks_check _ _).crashed hc
  | word _ => exact (quiet_endInstant _ _).phase.trans hc
  | call c _ =>
    rw [lifecycle_call]
    exact c.make_crashed hc
  | forget => exact hc

/-- A crash is final. -/
theorem crashed_of_steps {r s : Run} (h : Relation.ReflTransGen Step r s)
    (hc : r.lifecycle.phase = .crashed) : s.lifecycle.phase = .crashed := by
  induction h with
  | refl => exact hc
  | tail _ hs ih => exact hs.crashed ih

/-! ## Between calls -/

/-- While the host waits for nothing, the phase says whether an invocation is active. -/
theorem Reachable.active_iff {r : Run} (h : r.Reachable) (hf : r.IsFree) :
    r.lifecycle.active.isSome ↔ r.lifecycle.phase = .active := by
  constructor
  · intro ha
    obtain ⟨i, hi⟩ := Option.isSome_iff_exists.mp ha
    exact (h.orderly.active i hi).1
  · intro hp
    rcases h.orderly.activePhase hp with ha | hs
    · exact Option.isSome_iff_ne_none.mpr ha
    · exact absurd (hf _ hs) (by simp)

theorem Reachable.not_closing {r : Run} (h : r.Reachable) (hf : r.IsFree) :
    r.lifecycle.phase ≠ .closing := by
  intro hp
  exact absurd (hf _ (h.orderly.closing hp)) (by simp)

/-- **The order of calls.** In every run an operation is refused exactly out of its phase, and then
changes nothing; a refusal is given at once or never. While the host waits for nothing, an
invocation is active exactly in the active phase, and the phase is not the closing one. After a
crash every step leaves the lifecycle crashed. -/
theorem Reachable.in_order {r : Run} (h : r.Reachable) :
    (∀ c operation, HostCall.operation? c = some operation →
      (r.lifecycle.phase ≠ operation.phase → c.Refused operation r.lifecycle) ∧
      (r.lifecycle.phase = operation.phase →
        ∀ f, (c.make r.lifecycle).2 ≠ .answered (.refused f))) ∧
    (∀ s, r.Step s → r.refusals < s.refusals →
      ∃ c operation, HostCall.operation? c = some operation ∧
        r.lifecycle.phase ≠ operation.phase ∧ s = r.call c.make none) ∧
    (r.IsFree → (r.lifecycle.active.isSome ↔ r.lifecycle.phase = .active) ∧
      r.lifecycle.phase ≠ .closing) ∧
    (r.lifecycle.phase = .crashed →
      ∀ s, Relation.ReflTransGen Step r s → s.lifecycle.phase = .crashed) := by
  refine ⟨fun c operation hc => ⟨?_, ?_⟩, fun s hs => hs.refusal, fun hf => ?_, fun hc s hs => ?_⟩
  · exact HostCall.refused_of_phase_ne hc
  · exact fun hp f => HostCall.not_refused_of_phase_eq hc hp f
  · exact ⟨h.active_iff hf, h.not_closing hf⟩
  · exact crashed_of_steps hs hc

/-- A run in which the process crashes while the host waits for the end of an invocation. -/
def crashInWait : Run :=
  let sink := Sink.new 0 (.responder (.new "stuck" none none))
  let r := ofLifecycle (.new .standard .fresh)
  let r := r.call (HostCall.before).make none
  let r := r.call (HostCall.start ⟨"b", "i"⟩ [sink]).make none
  let r := r.call (HostCall.finish .blocking).make none
  r.call HostCall.crash.make none

theorem reachable_crashInWait : crashInWait.Reachable := by
  have hsinks : ∀ s ∈ [Sink.new 0 (.responder (.new "stuck" none none))], s.watch = none := by
    intro s hs
    rw [List.mem_singleton.mp hs]
    rfl
  have h₀ := Reachable.new .standard .fresh
  have h₁ := h₀.step (.call .before (isFree_of_waitingCount rfl))
  have h₂ := h₁.step (.call (.start ⟨"b", "i"⟩ _) ⟨isFree_of_waitingCount rfl, hsinks⟩)
  have h₃ := h₂.step (.call (.finish .blocking) (isFree_of_waitingCount rfl))
  exact h₃.step (.call .crash trivial)

theorem in_order_crashInWait : crashInWait.Reachable ∧ crashInWait.lifecycle.phase = .crashed ∧
    crashInWait.waitingCount = 2 ∧ HostCall.before.Refused .before crashInWait.lifecycle ∧
    ∀ s, Relation.ReflTransGen Step crashInWait s → s.lifecycle.phase = .crashed := by
  have h := reachable_crashInWait.in_order
  have hp : crashInWait.lifecycle.phase = .crashed := rfl
  exact ⟨reachable_crashInWait, hp, rfl, (h.1 .before .before rfl).1 (by rw [hp]; decide),
    h.2.2.2 hp⟩

end Run

end EventUpload
