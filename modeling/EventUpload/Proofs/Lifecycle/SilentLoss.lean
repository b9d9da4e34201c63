import EventUpload.Proofs.Lifecycle.AfterEnd

/-!
# Nothing is lost in silence

Whatever the sinks of an invocation have lost by the time the next one may start, somebody has spoken of
it: a warning or an error was posted to the invocation, or the next one was warned. That the silences of
all who could speak never line up is `Run.Undisturbed.no_silent_loss`. The host's two calls may be
looked at as often as one likes, and anything may happen in between; somebody vouches for the invocation
all the time.

What is lost is asked at the end, when the second call is over. A sink may get an event written while
the host waits, so the question is what has not arrived by the time at which nobody will wait for it any
more. `Sink.Lost` has both halves of it, events that were not written and a flush that has not
succeeded, since what was written and not flushed need not be there.

Events are told apart by their numbers here, and that is why it matters that a stream numbers what it
hands over from one (`Sink.Kept`): an event that is missing is a number that is missing, even if two
events are otherwise the same.

The theorem is about undisturbed runs, and about the order of the two timers of a sink that
`Sink.settle` has. After a crash nobody is told anything; and if the timer of the half-close comes
first, a drain can keep quiet about an upload whose bound has passed
(`Proofs.Lifecycle.Overdue`).
-/

set_option autoImplicit false

namespace EventUpload

open Relation (ReflTransGen)

/-- Some event that the sink was given has not been written, or flushing has not succeeded. The
events that a stream hands to its sinks are numbered, from one up to the next number. -/
def Sink.Lost (next : Nat) (s : Sink) : Prop :=
  (∃ n, 1 ≤ n ∧ n < next ∧ n ∉ s.received.map (·.sequence)) ∨ s.signals.half ≠ some .done

/-- A sink that has sent everything has lost nothing. -/
theorem Sink.Kept.not_lost {next : Nat} {told : Prop} {s : Sink} (h : s.Kept next told)
    (hsent : s.signals.half = some .done) : ¬ s.Lost next := by
  rintro (⟨n, hpos, hlt, hmem⟩ | hnot)
  · rw [h.received hsent, List.mem_range'_1] at hmem
    exact hmem ⟨hpos, by omega⟩
  · exact hnot hsent

open Lifecycle

namespace Run

variable {r s : Run}

/-! ## From the end of an invocation to the next one -/

variable {i : Nat} {v : Invocation} {warned : Prop}

/-- While a run idles somebody vouches for an invocation, unless the next one has been waiting. -/
theorem Idles.vouched_or (hs : r.Idles s) (hu : r.Unending) (h : Vouched warned i r.lifecycle v) :
    (∃ w, Vouched warned i s.lifecycle w) ∨ ∃ j grace deadline, .reconcile j ∈ r.roles ∧
      s.lifecycle = (r.lifecycle.check (.reconcile j grace deadline)).1 := by
  cases hs with
  | stirs hs => exact .inl (hs.vouched h)
  | @look earlier later call hcalls =>
    have hmem := role_mem_roles hcalls
    rw [after_none]
    cases call with
    | reconcile j grace deadline => exact .inr ⟨j, grace, deadline, hmem, rfl⟩
    | finish j start deadline noticed longest nextWord =>
      exact .inl ⟨v, h.check_finish j start deadline noticed longest nextWord⟩
    | settle j grace deadline ending => exact absurd rfl (hu _ hmem ending)
  | word hcalls => exact .inl ⟨v, h.posted (says_endInstant _ _)⟩
  | refused hc hp =>
    obtain ⟨⟨strays, hsame⟩, -⟩ := refused_call hc hp
    rw [hsame]
    exact .inl ⟨v, h.keeps rfl (fun hp => hp) (List.prefix_refl _)⟩
  | forget => exact .inl ⟨v, h⟩

/-- Until the next invocation waits, somebody vouches for the last one. -/
theorem vouched_of_idles (hs : ReflTransGen Idles r s) (hu : r.Unending)
    (hnext : ∀ j, .reconcile j ∉ r.roles) (h : Vouched warned i r.lifecycle v) :
    ∃ w, Vouched warned i s.lifecycle w := by
  induction hs with
  | refl => exact ⟨v, h⟩
  | @tail t s hrt hs ih =>
    obtain ⟨w, hw⟩ := ih
    have hroles := roles_of_idles hrt
    rcases hs.vouched_or (fun role hr => hu role (hroles role hr)) hw with
      hw | ⟨j, grace, deadline, hmem, -⟩
    · exact hw
    · exact absurd (hroles _ hmem) (hnext j)

/-- While the next invocation waits, it may be warned. -/
theorem vouched_of_waiting {n : Nat} (hs : ReflTransGen Idles r s) (hu : r.Unending)
    (hn : n ≤ r.lifecycle.log.length) (h : Vouched (r.lifecycle.WarnedSince n) i r.lifecycle v) :
    ∃ w, Vouched (s.lifecycle.WarnedSince n) i s.lifecycle w ∧ n ≤ s.lifecycle.log.length := by
  induction hs with
  | refl => exact ⟨v, h, hn⟩
  | @tail t s hrt hs ih =>
    obtain ⟨w, hw, hn⟩ := ih
    have hlog := hs.log
    have hlength := Nat.le_trans hn hlog.length_le
    rcases hs.vouched_or (fun role hr => hu role (roles_of_idles hrt role hr)) hw with
      ⟨w', hw'⟩ | ⟨j, grace, deadline, -, heq⟩
    · exact ⟨w', hw'.warn fun hwarned => hwarned.mono hlog, hlength⟩
    · obtain ⟨w', hw'⟩ := hw.check_reconcile hn j grace deadline
      exact ⟨w', heq ▸ hw', hlength⟩

/-- What is known when the host has asked for the end of the active invocation. -/
theorem Undisturbed.finish (h : r.Undisturbed) (hf : r.IsFree)
    (ha : r.lifecycle.active = some i) (mode : UploadMode) :
    (∀ j, .reconcile j ∉ (r.call (HostCall.finish mode).make none).roles) ∧
      ((r.call (HostCall.finish mode).make none).lifecycle.phase = .closing ∨
        (r.call (HostCall.finish mode).make none).lifecycle.phase = .idle) ∧
      ∃ v, Vouched False i (r.call (HostCall.finish mode).make none).lifecycle v := by
  obtain ⟨hp, hlt, -⟩ := h.orderly.active i ha
  have hv : r.lifecycle.invocation? i = some r.lifecycle.invocations[i] :=
    List.getElem?_eq_getElem hlt
  rw [roles_call, h.roles_eq_nil hf, List.nil_append, lifecycle_call]
  refine ⟨?_, ?_, vouched_finish hp ha hv (h.runs i _ ha hv) mode⟩
  · intro j hj
    rcases finish_cases hp ha mode (invocation?_ended hv mode) with
      ⟨start, deadline, noticed, longest, nextWord, heq⟩ | ⟨m, n, a, -, -, heq⟩
    · rw [HostCall.make, heq] at hj
      cases (looks_check _ _).roles _ hj
    · rw [HostCall.make, heq] at hj
      exact absurd hj (by simp [Progress.roles])
  · rw [HostCall.make]
    rcases finish_cases hp ha mode (invocation?_ended hv mode) with
      ⟨start, deadline, noticed, longest, nextWord, heq⟩ | ⟨m, n, a, hm, hn, heq⟩
    · rw [heq]
      refine ((looks_check _ _).phase fun ending => by simp [Call.role]).imp ?_ And.right
      exact fun hsame => hsame.trans (phase_ended _ i mode)
    · rw [heq]
      have hclosing : n.phase = .closing := hn.phase.trans (hm.phase.trans (phase_ended _ i mode))
      refine (phase_leaveClosing n).imp ?_ And.right
      exact fun hsame => hsame.trans hclosing

/-- **Nothing is lost in silence.** The host ends an invocation, and asks for the next one when that is
over. If a sink of the ended invocation has not got everything when the second call is over as well,
then a warning or an error was posted to the ended invocation, or the one that is about to start was
warned in the course of that call. -/
theorem Undisturbed.no_silent_loss {r₀ r₁ r₂ : Run} {mode : UploadMode} {k : Sink}
    (h : r₀.Undisturbed) (hfree₀ : r₀.IsFree) (hactive : r₀.lifecycle.active = some i)
    (hend : ReflTransGen Idles (r₀.call (HostCall.finish mode).make none) r₁)
    (hfree₁ : r₁.IsFree)
    (hnext : ReflTransGen Idles (r₁.call HostCall.before.make none) r₂) (hfree₂ : r₂.IsFree)
    (hv : r₂.lifecycle.invocation? i = some v) (hk : k ∈ v.sinks) (hlost : k.Lost v.stream.next) :
    r₂.lifecycle.Alarmed i ∨ r₂.lifecycle.WarnedSince r₁.lifecycle.log.length := by
  have hcalled := h.call (.finish mode) hfree₀ trivial
  obtain ⟨hroles, hphase, u, hvouched⟩ := h.finish hfree₀ hactive mode
  -- Until the next invocation is asked for.
  have h₁ := hcalled.of_idles hend
  obtain ⟨u₁, hvouched₁⟩ := vouched_of_idles hend hcalled.unending hroles hvouched
  have hidle : r₁.lifecycle.phase = .idle := by
    have hnot : r₁.lifecycle.phase ≠ .closing := by
      intro hc
      have := h₁.orderly.closing hc
      rw [h₁.roles_eq_nil hfree₁] at this
      exact absurd this (by simp)
    rcases phase_of_idles hend hcalled.unending with hsame | ⟨-, hidle⟩
    · rw [← hsame] at hphase
      exact hphase.resolve_left hnot
    · exact hidle
  -- Until it may start.
  have hasked := h₁.call .before hfree₁ trivial
  have h₂ := hasked.of_idles hnext
  obtain ⟨hwaiting, hlog, u₂, hvouched₂⟩ := vouched_before hidle hvouched₁
  have hbefore : (r₁.call HostCall.before.make none).lifecycle = r₁.lifecycle.before.1 :=
    lifecycle_call r₁ .before
  rw [← hbefore] at hwaiting hlog hvouched₂
  obtain ⟨w, hw, -⟩ := vouched_of_waiting hnext hasked.unending hlog.length_le hvouched₂
  cases hv.symm.trans hw.here
  rcases hw.answer with (hwarned | halarm | hsent) | ⟨hpending, -⟩
  · exact .inr hwarned
  · exact .inl halarm
  · exact absurd hlost ((hw.kept k hk).not_lost (hsent k hk))
  · -- The call is over, so nothing that matters is pending any longer.
    exfalso
    have hphase₂ : r₂.lifecycle.phase = .waitingPrevious := by
      rcases phase_of_idles hnext hasked.unending with hsame | ⟨hc, -⟩
      · exact hsame.trans hwaiting
      · exact absurd (hwaiting.symm.trans hc) (by simp)
    have hvacant : r₂.lifecycle.Vacant := by
      rcases h₂.orderly.waitingPrevious hphase₂ with hvacant | ⟨j, hj⟩
      · exact hvacant
      · rw [h₂.roles_eq_nil hfree₂] at hj
        exact absurd hj (by simp)
    have hnone := hvacant i hpending v hv
    rw [hnone] at hk
    exact absurd hk (by simp)

/-- A run in which an event was posted to a sink whose writes never end. -/
def stuckUpload : Run :=
  let sink := Sink.new 0 (.channel (.new "stuck" (.model (fun _ _ => (none, .ok)) 0)))
  let r := ofLifecycle (.new ⟨0, 0, 0, 0⟩ .fresh)
  let r := r.call (HostCall.before).make none
  let r := r.call (HostCall.start ⟨"b", "i"⟩ [sink]).make none
  let post := StreamDeed.post (.ofPayload "progress" .null)
  { r with lifecycle := r.lifecycle.updateStream 0 fun s => post.apply s r.lifecycle.now }

/-- The end of its invocation, which does not wait. -/
def stuckEnd : Run := stuckUpload.call (HostCall.finish .nonBlocking).make none

/-- The next invocation, which waits for no time. -/
def stuckNext : Run := stuckEnd.call HostCall.before.make none

theorem undisturbed_stuckUpload : stuckUpload.Undisturbed := by
  have h₀ := Undisturbed.new ⟨0, 0, 0, 0⟩ .fresh
  have h₁ := h₀.call .before (isFree_of_waitingCount rfl) trivial
  have h₂ := h₁.call (.start ⟨"b", "i"⟩ [.new 0 (.channel (.new "stuck"
    (.model (fun _ _ => (none, .ok)) 0)))]) (isFree_of_waitingCount rfl) fun s hs =>
      ⟨_, _, _, List.mem_singleton.mp hs⟩
  exact h₂.idles (.stirs (.deed 0 (.post (.ofPayload "progress" .null))))

theorem no_silent_loss_stuckUpload :
    (∃ v k, stuckNext.lifecycle.invocation? 0 = some v ∧ k ∈ v.sinks ∧ k.Lost v.stream.next) ∧
      (stuckNext.lifecycle.Alarmed 0 ∨
        stuckNext.lifecycle.WarnedSince stuckEnd.lifecycle.log.length) := by
  obtain ⟨v, k, hv, hk, hlost⟩ : ∃ v k, stuckNext.lifecycle.invocation? 0 = some v ∧
      k ∈ v.sinks ∧ k.Lost v.stream.next := by
    refine ⟨_, _, rfl, List.mem_singleton.mpr rfl, .inl ⟨1, ?_, ?_, ?_⟩⟩
    · decide
    · decide
    · decide
  refine ⟨⟨v, k, hv, hk, hlost⟩, ?_⟩
  exact undisturbed_stuckUpload.no_silent_loss (isFree_of_waitingCount rfl) rfl .refl
    (isFree_of_waitingCount rfl) .refl (isFree_of_waitingCount rfl) hv hk hlost

end Run

end EventUpload
