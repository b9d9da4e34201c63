import EventUpload.Proofs.Sink.Trace

/-!
# A channel is faithful

A channel writes the events that it was given before it was closed or cancelled, in their order and each
at most once, and says that it is done only at the very end: then all of them have been written, flushed
and acknowledged, and the signal for having sent everything was there before (`Channel.faithful`). This
is read off the course of the channel; only that one signal precedes the other is a fact about two
moments, and goes by induction over the interleaving.

Nothing is said about events that come too late, except by leaving them out: `admitted` ends at the
first close or cancel. Nor is it promised that a channel gets anywhere, since its destination may take
for ever. What is promised is that it does not say so before it has.

`Faithful.failed` has two parts because a failed write must be the last thing in two senses. It is the
last piece of work that has ended, and none is at hand; without the second part a channel might have
begun another one of which nobody knows yet how it ends.
-/

set_option autoImplicit false

namespace EventUpload

namespace Channel

/-- The events of the writes that succeeded. -/
def writes (ended : List (Work × Verdict)) : List Event :=
  ended.filterMap fun
    | (.write e, .ok) => some e
    | _ => none

/-- The pieces of work that bring a channel to its end with success. -/
def success (events : List Event) : List (Work × Verdict) :=
  events.map (fun e => (.write e, .ok)) ++ [(.flush, .ok), (.acknowledge, .ok)]

theorem writes_append (before after : List (Work × Verdict)) :
    writes (before ++ after) = writes before ++ writes after := List.filterMap_append

theorem writes_map (events : List Event) :
    writes (events.map fun e => (.write e, .ok)) = events := by
  induction events with
  | nil => rfl
  | cons e events ih => exact congrArg (e :: ·) ih

theorem Course.writes_ended (course : Course) : writes course.ended = [] := by
  cases course <;> rfl

variable {c : Channel} {accepted : List Event} {course : Course}

/-! ## What is written

The events that were written are among those that were accepted, from the first on and in their order. -/

/-- What was written is the beginning of what was accepted. -/
theorem Stands.prefix (h : Stands accepted c course) : c.written <+: accepted := by
  cases h with
  | ready _ _ _ _ hacc => exact hacc ▸ List.prefix_append _ _
  | writing _ _ _ _ hacc => exact hacc ▸ List.prefix_append _ _
  | flushing _ _ _ _ hacc => exact hacc ▸ List.prefix_refl _
  | failed _ _ _ _ hacc => exact hacc
  | acknowledging _ _ _ _ hacc => exact hacc ▸ List.prefix_refl _
  | stopped _ _ _ hcov =>
    cases course with
    | writing => exact hcov
    | writeFailed e reason => exact hcov
    | flushFailed reason => exact hcov ▸ List.prefix_refl _
    | flushed => exact hcov ▸ List.prefix_refl _
    | acknowledgeFailed reason => exact hcov ▸ List.prefix_refl _
    | acknowledged => exact hcov ▸ List.prefix_refl _

/-- After a failed write the channel is not at any work. -/
theorem Stands.idle_of_writeFailed {e : Event} {reason : String}
    (h : Stands accepted c (.writeFailed e reason)) (work : Work) (wake : Option Nat) :
    c.stage ≠ .working work wake := by
  cases h with
  | failed hstage => simp [hstage]
  | stopped hstage => simp [hstage]

/-- A failed write tells the course. -/
theorem Course.eq_of_writeFailed {written : List Event} {e : Event} {reason : String}
    (h : (.write e, .failed reason) ∈
      written.map (fun e => ((.write e, .ok) : Work × Verdict)) ++ course.ended) :
    course = .writeFailed e reason := by
  rcases List.mem_append.mp h with h | h
  · simp at h
  · cases course <;> simp [Course.ended] at h
    rw [h.1, h.2]

/-! ## When it is done

A channel says that it is done only after everything was written, flushed and acknowledged. -/

theorem Stands.of_done (h : Stands accepted c course) (hdone : c.signals.done = some .done) :
    course = .acknowledged ∧ accepted = c.written := by
  cases h with
  | ready _ _ _ hsig => simp [hsig, Signals.unresolved] at hdone
  | writing _ _ _ hsig => simp [hsig, Signals.unresolved] at hdone
  | flushing _ _ _ hsig => simp [hsig, Signals.unresolved] at hdone
  | failed _ _ _ hsig => simp [hsig, Signals.unresolved] at hdone
  | acknowledging _ _ _ hsig => simp [hsig] at hdone
  | stopped _ hwhy hsig hcov =>
    simp only [hsig, Option.some.injEq] at hdone
    subst hdone
    rcases hwhy with ⟨-, ho, -⟩ | ⟨-, ho⟩
    · cases ho
    · cases course with
      | acknowledged => exact ⟨rfl, hcov⟩
      | writing => cases ho
      | flushed => cases ho
      | writeFailed e reason => cases ho
      | flushFailed reason => cases ho
      | acknowledgeFailed reason => cases ho

/-- Only an acknowledgement makes a channel say that it is done. -/
theorem Does.acknowledges {d : Channel} {ended : List (Work × Verdict)} {errors : List SinkError}
    (h : c.Does d ended errors) (hnone : c.signals.done = none)
    (hdone : d.signals.done = some .done) : ∃ wake, c.stage = .working .acknowledge wake := by
  cases h with
  | acknowledged destination hs => exact ⟨_, hs⟩
  | leftOut => simp [hnone] at hdone
  | begun => simp [hnone] at hdone
  | flushes => simp [hnone] at hdone
  | again => simp [hnone] at hdone
  | wrote => simp [hnone] at hdone
  | writeFailed => simp [hnone] at hdone
  | flushed => simp [hnone] at hdone
  | gaveUp => simp [hnone, Signals.fail] at hdone
  | flushFailed => simp [hnone, Signals.fail] at hdone
  | acknowledgeFailed => simp [hnone, Signals.fail] at hdone

theorem done_cancel_of_none (hnone : c.signals.done = none) (outside : Outside) :
    (c.cancel outside).1.signals.done ≠ some .done := by
  cases hc : c.cancelled with
  | true => simp [Channel.cancel, hc, hnone]
  | false =>
    by_cases hs : c.stage = .stopped
    · simp [cancel_of_stopped hs, hnone]
    · simp [cancel_of_open hc hs, Signals.cancel, hnone]

/-- A channel that has become done just now had sent everything before. -/
theorem Trace.done_of_act {t : Trace} (h : Stands accepted t.channel course) (a : Act)
    (hdone : (t.act a).channel.signals.done = some .done) :
    t.channel.signals.done = some .done ∨ t.channel.signals = ⟨some .done, none⟩ := by
  cases hprev : t.channel.signals.done with
  | some o =>
    have := (t.onward_act a).signals.done o hprev
    exact .inl (this.symm.trans hdone)
  | none =>
    cases a with
    | accept e =>
      have : (t.channel.accept e).signals = t.channel.signals := by
        unfold Channel.accept
        split <;> rfl
      simp [Trace.act, this, hprev] at hdone
    | close => simp [Trace.act, Channel.close, hprev] at hdone
    | cancel outside => exact absurd hdone (done_cancel_of_none hprev outside)
    | work outside now =>
      cases hstep : t.channel.step? outside now with
      | none =>
        rw [act_work_of_none hstep, hprev] at hdone
        cases hdone
      | some out =>
        rw [act_work_of_some hstep] at hdone
        obtain ⟨wake, hs⟩ := (does_step? hstep).acknowledges hprev hdone
        exact .inr (h.of_acknowledge hs).2.2.1

/-! ## The theorem -/

/-- What a channel has done with the events it was given, after an interleaving. -/
structure Faithful (name : String) (destination : Destination) (acts : List Act) : Prop where
  /-- What counts as written are the writes that succeeded. -/
  received : (trace name destination acts).channel.written =
    writes (trace name destination acts).ended
  /-- They are the first of the events that were accepted before the first close or cancel, in their
  order, each of them once. -/
  written : writes (trace name destination acts).ended <+: admitted acts
  /-- A failed write is the last thing that comes to an end, and nothing else is begun. -/
  failed : ∀ e reason, (.write e, .failed reason) ∈ (trace name destination acts).ended →
    (∃ before : List Event, (trace name destination acts).ended =
      before.map (fun e => (.write e, .ok)) ++ [(.write e, .failed reason)]) ∧
    ∀ work wake, (trace name destination acts).channel.stage ≠ .working work wake
  /-- When it is done, all of them have been written, flushed and acknowledged, in this order, and
  at some earlier time everything had been sent and it was not done. -/
  done : (trace name destination acts).channel.signals.done = some .done →
    (trace name destination acts).ended = success (admitted acts) ∧
    ∃ before after, acts = before ++ after ∧
      (trace name destination before).channel.signals = ⟨some .done, none⟩

theorem sent_before_done (name : String) (destination : Destination) (acts : List Act)
    (h : (trace name destination acts).channel.signals.done = some .done) :
    ∃ before after, acts = before ++ after ∧
      (trace name destination before).channel.signals = ⟨some .done, none⟩ := by
  induction acts using List.reverseRecOn with
  | nil => exact absurd h (by simp [trace, Channel.new, Signals.unresolved])
  | append_singleton acts a ih =>
    obtain ⟨course, -, -, hstands⟩ := (coherent name destination acts).course
    rw [trace_concat] at h
    rcases Trace.done_of_act hstands a h with hdone | hsent
    · obtain ⟨before, after, heq, hsent⟩ := ih hdone
      exact ⟨before, after ++ [a], by rw [heq, List.append_assoc], hsent⟩
    · exact ⟨acts, [a], rfl, hsent⟩

/-- **Whatever its callers do and whatever its destination does**, a channel is faithful. -/
theorem faithful (name : String) (destination : Destination) (acts : List Act) :
    Faithful name destination acts := by
  obtain ⟨course, hended, -, hstands⟩ := (coherent name destination acts).course
  have hwrites : writes (trace name destination acts).ended =
      (trace name destination acts).channel.written := by
    rw [hended, writes_append, writes_map, course.writes_ended, List.append_nil]
  refine ⟨hwrites.symm, hwrites ▸ hstands.prefix, fun e reason hmem => ?_, fun hdone => ?_⟩
  · rw [hended] at hmem
    have hcourse := Course.eq_of_writeFailed hmem
    subst hcourse
    exact ⟨⟨_, hended⟩, hstands.idle_of_writeFailed⟩
  · obtain ⟨hcourse, hacc⟩ := hstands.of_done hdone
    refine ⟨?_, sent_before_done name destination acts hdone⟩
    rw [hended, hcourse, hacc]
    rfl

end Channel

end EventUpload
