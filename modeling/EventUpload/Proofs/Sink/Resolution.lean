import EventUpload.Lifecycle.State
import EventUpload.Proofs.Sink.Trace

/-!
# How the signals of a channel resolve

A channel has two signals and may report one error. Whatever happens to it, the signals fit together:
what is resolved stays as it is, nothing but a cancellation resolves before the channel is closed,
having sent everything comes before being done and fails only together with it, and cancelling resolves
what is left at once. At most one error is ever posted, and it is the one that the channel ends with if
it ends with the failure of its work (`Channel.resolved`).

Two kinds of statement are needed. Most of the fields of `Resolved` are about one moment and follow from
where the channel stands (`Stands.signals_cases` lists what its signals can be there). `Resolved.once`
is about two moments, and says more than that a signal does not change: every continuation of the acts
is allowed, with further callers and further turns. It goes by `Channel.Onward`, which every act keeps.

The message of an error is looked for in a log, not in the list of errors, because that is where
somebody can read it: posting goes by `Lifecycle.sayErrors`, which is what the lifecycle does with the
errors of its sinks. That one and the same error is not posted by two parties is no matter of a channel;
see `Proofs.Lifecycle.WarnedOnce`.
-/

set_option autoImplicit false

namespace EventUpload

/-! ## What is said to somebody -/

/-- The message that a post is, if it is one to the given addressee. -/
def Posted.messageTo? (whom : Addressee) (p : Posted) : Option Message :=
  match p.post with
  | .message m => if p.addressee = whom then some m else none
  | .notice _ | .remark _ => none

namespace Lifecycle

/-- All messages to somebody, in order. -/
def messagesTo (l : Lifecycle) (whom : Addressee) : List Message :=
  l.log.filterMap (Posted.messageTo? whom)

theorem messagesTo_say (l : Lifecycle) (whom : Addressee) (kind : MessageKind) (text : String) :
    (l.say whom kind text).messagesTo whom = l.messagesTo whom ++ [⟨kind, text⟩] := by
  simp [messagesTo, say, tell, Posted.messageTo?]

/-- A remark is not a message. -/
theorem messagesTo_note (l : Lifecycle) (whom addressee : Addressee) (r : Remark) :
    (l.note addressee r).messagesTo whom = l.messagesTo whom := by
  simp [messagesTo, note, tell, Posted.messageTo?]

/-- Every error is posted as one message, with its text. -/
theorem messagesTo_sayErrors (l : Lifecycle) (whom : Addressee) (errors : List SinkError) :
    (l.sayErrors whom errors).messagesTo whom =
      l.messagesTo whom ++ errors.map fun e => ⟨.error, e.message⟩ := by
  unfold sayErrors
  induction errors generalizing l with
  | nil => simp
  | cons e errors ih =>
    rw [List.foldl_cons, ih, messagesTo_say, messagesTo_note, List.map_cons, List.append_assoc,
      List.singleton_append]

end Lifecycle

namespace Channel

variable {c : Channel} {accepted : List Event} {course : Course}

/-! ## The signals of a channel that stands somewhere -/

/-- Unless nothing is left to be done, only having sent everything can have been signalled. -/
theorem Stands.signals_cases (h : Stands accepted c course) :
    c.signals = .unresolved ∨ c.closing = true ∧ c.signals = ⟨some .done, none⟩ ∨
      ∃ o, c.stage = .stopped ∧ c.signals = ⟨some (course.half.getD o), some o⟩ ∧
        (c.cancelled = true ∧ o = .failed (.cancelled c.name) ∧
            (course.half = none ∨ c.closing = true) ∨
          c.closing = true ∧ course.outcome? c.name = some o) := by
  cases h with
  | ready _ _ _ hsig => exact .inl hsig
  | writing _ _ _ hsig => exact .inl hsig
  | flushing _ _ _ hsig => exact .inl hsig
  | failed _ _ _ hsig => exact .inl hsig
  | acknowledging _ hclose _ hsig => exact .inr (.inl ⟨hclose, hsig⟩)
  | stopped hstage hwhy hsig => exact .inr (.inr ⟨_, hstage, hsig, hwhy⟩)

theorem Course.half_getD (course : Course) (o : Outcome) :
    course.half.getD o = .done ∨ course.half.getD o = o := by
  cases course with
  | flushed => exact .inl rfl
  | acknowledgeFailed reason => exact .inl rfl
  | acknowledged => exact .inl rfl
  | writing => exact .inr rfl
  | writeFailed e reason => exact .inr rfl
  | flushFailed reason => exact .inr rfl

theorem Course.error?_of_outcome? {name : String} {e : SinkError}
    (h : course.outcome? name = some (.failed e)) : course.error? name = some e := by
  cases course with
  | writing => cases h
  | flushed => cases h
  | acknowledged => cases h
  | writeFailed event reason => cases h; rfl
  | flushFailed reason => cases h; rfl
  | acknowledgeFailed reason => cases h; rfl

/-- Before it is closed a channel can only be cancelled. -/
theorem Stands.of_not_closing (h : Stands accepted c course) (hclosing : c.closing ≠ true)
    {o : Outcome} (ho : c.signals.half = some o ∨ c.signals.done = some o) :
    o = .failed (.cancelled c.name) := by
  rcases h.signals_cases with hsig | ⟨hclose, -⟩ | ⟨p, -, hsig, ⟨-, rfl, hhalf⟩ | ⟨hclose, -⟩⟩
  · simp [hsig, Signals.unresolved] at ho
  · exact absurd hclose hclosing
  · have hnone := hhalf.resolve_right hclosing
    simp only [hsig, hnone, Option.getD_none, Option.some.injEq, or_self] at ho
    exact ho.symm
  · exact absurd hclose hclosing

theorem Stands.half_of_done (h : Stands accepted c course)
    (hdone : c.signals.done.isSome = true) : c.signals.half.isSome = true := by
  rcases h.signals_cases with hsig | ⟨-, hsig⟩ | ⟨o, -, hsig, -⟩
  · simp [hsig, Signals.unresolved] at hdone
  · simp [hsig] at hdone
  · simp [hsig]

theorem Stands.done_of_half_failed (h : Stands accepted c course) {e : SinkError}
    (hhalf : c.signals.half = some (.failed e)) : c.signals.done = some (.failed e) := by
  rcases h.signals_cases with hsig | ⟨-, hsig⟩ | ⟨o, -, hsig, -⟩
  · simp [hsig, Signals.unresolved] at hhalf
  · simp [hsig] at hhalf
  · simp only [hsig, Option.some.injEq] at hhalf ⊢
    rcases course.half_getD o with hd | ho
    · cases hd.symm.trans hhalf
    · exact ho.symm.trans hhalf

theorem Stands.half_of_success (h : Stands accepted c course)
    (hdone : c.signals.done = some .done) : c.signals.half = some .done := by
  rcases h.signals_cases with hsig | ⟨-, hsig⟩ | ⟨o, -, hsig, -⟩
  · simp [hsig, Signals.unresolved] at hdone
  · simp [hsig] at hdone
  · rw [hsig, Option.some.injEq] at hdone
    rw [hsig, hdone]
    rcases course.half_getD .done with hhalf | hhalf <;> rw [hhalf]

/-- A channel that has sent everything has written what it accepted. -/
theorem Stands.accepted_of_half (h : Stands accepted c course)
    (hhalf : c.signals.half = some .done) : accepted = c.written := by
  cases h with
  | ready _ _ _ hsig => simp [hsig, Signals.unresolved] at hhalf
  | writing _ _ _ hsig => simp [hsig, Signals.unresolved] at hhalf
  | failed _ _ _ hsig => simp [hsig, Signals.unresolved] at hhalf
  | flushing _ _ _ _ hacc => exact hacc
  | acknowledging _ _ _ _ hacc => exact hacc
  | stopped _ hwhy hsig hcov =>
    simp only [hsig, Option.some.injEq] at hhalf
    cases course with
    | flushed => exact hcov
    | acknowledgeFailed reason => exact hcov
    | acknowledged => exact hcov
    | flushFailed reason => exact hcov
    | writing =>
      rcases hwhy with ⟨-, ho, -⟩ | ⟨-, ho⟩
      · cases hhalf.symm.trans ho
      · cases ho
    | writeFailed e reason =>
      rcases hwhy with ⟨-, ho, -⟩ | ⟨-, ho⟩
      · cases hhalf.symm.trans ho
      · rw [Course.half, Option.getD_none] at hhalf
        rw [hhalf] at ho
        cases ho

/-- Whatever is not resolved resolves as cancelled when the channel is cancelled. -/
theorem Stands.signals_cancel (h : Stands accepted c course) (outside : Outside) :
    (c.cancel outside).1.signals = c.signals.cancel c.name := by
  cases h with
  | ready hstage _ hc => rw [cancel_of_open hc (by simp [hstage])]
  | writing hstage _ hc => rw [cancel_of_open hc (by simp [hstage])]
  | flushing hstage _ hc => rw [cancel_of_open hc (by simp [hstage])]
  | failed hstage _ hc => rw [cancel_of_open hc (by simp [hstage])]
  | acknowledging hstage _ hc => rw [cancel_of_open hc (by simp [hstage])]
  | stopped hstage _ hsig => rw [cancel_of_stopped hstage, hsig]; rfl

/-- The failure that a channel ends with is the failure of its course. -/
theorem Stands.error?_of_done (h : Stands accepted c course) {s reason : String}
    (hdone : c.signals.done = some (.failed (.transmission s reason))) :
    course.error? c.name = some (.transmission s reason) := by
  rcases h.signals_cases with hsig | ⟨-, hsig⟩ | ⟨o, -, hsig, hwhy⟩
  · simp [hsig, Signals.unresolved] at hdone
  · simp [hsig] at hdone
  · simp only [hsig, Option.some.injEq] at hdone
    subst hdone
    rcases hwhy with ⟨-, ho, -⟩ | ⟨-, ho⟩
    · cases ho
    · exact Course.error?_of_outcome? ho

/-! ## The theorem -/

/-- How the signals of a channel, its error and what was done to it go together. -/
structure Resolved (name : String) (destination : Destination) (acts : List Act) : Prop where
  /-- A result never changes, whatever happens next. -/
  once : ∀ more, (trace name destination acts).channel.signals.Upto
    (trace name destination (acts ++ more)).channel.signals
  /-- Before the channel is closed, a signal can only resolve as cancelled. -/
  unclosed : .close ∉ acts → ∀ o, (trace name destination acts).channel.signals.half = some o ∨
    (trace name destination acts).channel.signals.done = some o → o = .failed (.cancelled name)
  half_first : (trace name destination acts).channel.signals.done.isSome = true →
    (trace name destination acts).channel.signals.half.isSome = true
  half_failed : ∀ e, (trace name destination acts).channel.signals.half = some (.failed e) →
    (trace name destination acts).channel.signals.done = some (.failed e)
  /-- Cancelling resolves what is left, in the same moment. -/
  cancelled : ∀ outside,
    (trace name destination (acts ++ [.cancel outside])).channel.signals =
      (trace name destination acts).channel.signals.cancel name
  /-- There is at most one message over the whole life of the channel. -/
  one_message : ∀ (l : Lifecycle) whom, ∃ messages : List Message, messages.length ≤ 1 ∧
    (l.sayErrors whom (trace name destination acts).errors).messagesTo whom =
      l.messagesTo whom ++ messages
  /-- There is one, with the text of the error, when the work of the channel has failed it. -/
  message : ∀ s reason, (trace name destination acts).channel.signals.done =
      some (.failed (.transmission s reason)) →
    ∀ (l : Lifecycle) whom,
      (l.sayErrors whom (trace name destination acts).errors).messagesTo whom =
        l.messagesTo whom ++ [⟨.error, (SinkError.transmission s reason).message⟩]

theorem onward_trace_append (name : String) (destination : Destination) (acts more : List Act) :
    (trace name destination acts).channel.Onward (trace name destination (acts ++ more)).channel := by
  induction more using List.reverseRecOn with
  | nil =>
    rw [List.append_nil]
    exact .refl _
  | append_singleton more a ih =>
    rw [← List.append_assoc, trace_concat]
    exact ih.trans (Trace.onward_act _ a)

/-- **Whatever its callers do and whatever its destination does**, the signals of a channel resolve
once, fit together, and go with at most one message. -/
theorem resolved (name : String) (destination : Destination) (acts : List Act) :
    Resolved name destination acts := by
  have hcoherent := coherent name destination acts
  obtain ⟨course, -, herrors, hstands⟩ := hcoherent.course
  refine ⟨fun more => (onward_trace_append name destination acts more).signals, ?_,
    hstands.half_of_done, fun e => hstands.done_of_half_failed, ?_, ?_, ?_⟩
  · intro hopen o ho
    rw [← hcoherent.name]
    exact hstands.of_not_closing (fun hclosing => hopen (hcoherent.closing.mp hclosing)) ho
  · intro outside
    rw [trace_concat]
    exact (hstands.signals_cancel outside).trans (congrArg _ hcoherent.name)
  · intro l whom
    refine ⟨_, ?_, l.messagesTo_sayErrors whom _⟩
    rw [herrors, List.length_map]
    exact Option.length_toList_le
  · intro s reason hdone l whom
    rw [l.messagesTo_sayErrors, herrors, hstands.error?_of_done hdone]
    rfl

end Channel

end EventUpload
