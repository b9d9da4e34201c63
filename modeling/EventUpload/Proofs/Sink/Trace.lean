import Mathlib.Data.List.Induction
import EventUpload.Proofs.Sink.Onward

/-!
# What has happened to a channel

Callers hand events to a channel, close it and cancel it, at any time and in any order; in between its
worker has its turns. A list of such `Channel.Act`s is an interleaving, and `Channel.trace` is the
channel after it, with what it has done: the pieces of work that came to an end, and the errors that
were reported. Nothing is assumed of the destination, which may take any time for a piece of work and
may fail at it, nor of the outside, which may change from turn to turn.

A channel writes, then flushes, then has everything acknowledged, and the first failure ends this. How
far it has got is its `Course`, and `Trace.Coherent` says for every interleaving that the past of the
channel, its errors and its signals are what its course says.

`Stands` ties a course to a channel. It has one constructor for every kind of moment between two turns,
with what is known of the queue, the signals and the stage, so that the proof of a step starts by asking
where the channel stands and not which fields it has. The events that count are those that were handed
over before the first close or cancel (`admitted`): a channel drops later ones, and `admitted_concat`
shows that the acts and the channel agree on when that begins.

Being stopped is one constructor for two ends, by a cancellation and by the end of the course, since
nothing tells them apart from then on but the outcome. A channel that was cancelled after its course had
come to an end counts as both, and keeps the outcome of its course; `Stands.cancel` is where this is
shown. `run_acts` leads back to the program, which lets a worker have all the turns that it can have at
an instant: that is a row of acts, so what holds of every interleaving holds of it.
-/

set_option autoImplicit false

namespace EventUpload

namespace Channel

/-! ## Interleavings

An act of the worker that finds nothing to do is allowed and changes nothing, so the list of acts does
not have to know when the worker can go on. -/

/-- One thing that happens to a channel. The worker has its turn at some instant, with the outside as
it is by then. -/
inductive Act where
  | accept (e : Event)
  | close
  | cancel (outside : Outside)
  | work (outside : Outside) (now : Nat)

namespace Act

/-- Nothing is accepted after such an act. -/
def shuts : Act → Bool
  | close | cancel _ => true
  | accept _ | work .. => false

def event? : Act → Option Event
  | accept e => some e
  | close | cancel _ | work .. => none

end Act

/-- The events that a channel was given before it was closed or cancelled for the first time. -/
def admitted (acts : List Act) : List Event :=
  (acts.takeWhile fun a => !a.shuts).filterMap Act.event?

/-- A channel with its past. -/
structure Trace where
  channel : Channel
  /-- The pieces of work that came to an end. -/
  ended : List (Work × Verdict)
  /-- The errors that were reported. -/
  errors : List SinkError

/-- What an act does to a channel and adds to its past. -/
def Trace.act (t : Trace) : Act → Trace
  | .accept e => { t with channel := t.channel.accept e }
  | .close => { t with channel := t.channel.close }
  | .cancel outside => { t with channel := (t.channel.cancel outside).1 }
  | .work outside now =>
    match t.channel.step? outside now with
    | none => t
    | some (c, _, errors) => ⟨c, t.ended ++ t.channel.ending outside now, t.errors ++ errors⟩

theorem Trace.act_work_of_none {t : Trace} {outside : Outside} {now : Nat}
    (h : t.channel.step? outside now = none) : t.act (.work outside now) = t := by
  simp only [Trace.act, h]

theorem Trace.act_work_of_some {t : Trace} {c : Channel} {outside outside' : Outside} {now : Nat}
    {errors : List SinkError} (h : t.channel.step? outside now = some (c, outside', errors)) :
    t.act (.work outside now) =
      ⟨c, t.ended ++ t.channel.ending outside now, t.errors ++ errors⟩ := by
  simp only [Trace.act, h]

theorem Trace.onward_act (t : Trace) (a : Act) : t.channel.Onward (t.act a).channel := by
  cases a with
  | accept e => exact onward_accept _ e
  | close => exact onward_close _
  | cancel outside => exact onward_cancel _
  | work outside now =>
    cases hstep : t.channel.step? outside now with
    | none =>
      rw [act_work_of_none hstep]
      exact .refl _
    | some out =>
      rw [act_work_of_some hstep]
      exact (does_step? hstep).onward

/-- A new channel after the acts. -/
def trace (name : String) (destination : Destination) (acts : List Act) : Trace :=
  acts.foldl Trace.act ⟨.new name destination, [], []⟩

theorem trace_concat (name : String) (destination : Destination) (acts : List Act) (a : Act) :
    trace name destination (acts ++ [a]) = (trace name destination acts).act a := by
  simp [trace]

theorem admitted_concat_of_shut {acts : List Act} (h : ∃ b ∈ acts, b.shuts = true) (a : Act) :
    admitted (acts ++ [a]) = admitted acts := by
  obtain ⟨b, hb, hshuts⟩ := h
  induction acts with
  | nil => exact absurd hb (by simp)
  | cons c acts ih =>
    cases hc : c.shuts with
    | true => simp [admitted, hc]
    | false =>
      have hmem : b ∈ acts := by
        rcases List.mem_cons.mp hb with rfl | hb
        · exact absurd hshuts (by simp [hc])
        · exact hb
      have := ih hmem
      simp only [admitted] at this
      simp [admitted, hc, List.filterMap_cons, this]

theorem admitted_concat_of_open {acts : List Act} (h : ∀ b ∈ acts, b.shuts = false) (a : Act) :
    admitted (acts ++ [a]) = admitted acts ++ a.event?.toList := by
  induction acts with
  | nil => cases a <;> simp [admitted, Act.shuts, Act.event?]
  | cons b acts ih =>
    have := ih fun c hc => h c (List.mem_cons_of_mem _ hc)
    simp only [admitted] at this
    cases he : b.event? <;> simp [admitted, h b (by simp), he, this]

/-! ## How far a channel has got

A course says which pieces of work came to an end after the writes, and everything else that is known of
the past of a channel is computed from it. -/

/-- How far a channel has got with its work: the last thing that it has done with success, or its
failure. -/
inductive Course where
  | writing
  | writeFailed (e : Event) (reason : String)
  | flushFailed (reason : String)
  | flushed
  | acknowledgeFailed (reason : String)
  | acknowledged

namespace Course

/-- What came to an end after the writes that succeeded. -/
def ended : Course → List (Work × Verdict)
  | writing => []
  | writeFailed e reason => [(.write e, .failed reason)]
  | flushFailed reason => [(.flush, .failed reason)]
  | flushed => [(.flush, .ok)]
  | acknowledgeFailed reason => [(.flush, .ok), (.acknowledge, .failed reason)]
  | acknowledged => [(.flush, .ok), (.acknowledge, .ok)]

/-- The failure, if there was one. -/
def error? (name : String) : Course → Option SinkError
  | writeFailed _ reason | flushFailed reason | acknowledgeFailed reason =>
    some (.transmission name reason)
  | writing | flushed | acknowledged => none

/-- The signal for having sent everything, as far as the work has resolved it. -/
def half : Course → Signal
  | flushed | acknowledgeFailed _ | acknowledged => some .done
  | writing | writeFailed .. | flushFailed _ => none

/-- How the channel ends if it is closed and nothing is left to be done. -/
def outcome? (name : String) : Course → Option Outcome
  | acknowledged => some .done
  | writing | flushed => none
  | course => (course.error? name).map .failed

/-- How the events that were written and those that were accepted go together. -/
def Covers (written accepted : List Event) : Course → Prop
  | writing | writeFailed .. => written <+: accepted
  | flushFailed _ | flushed | acknowledgeFailed _ | acknowledged => accepted = written

end Course

/-- Where a channel stands in its course, after it has accepted some events. -/
inductive Stands (accepted : List Event) (c : Channel) : Course → Prop where
  | ready : c.stage = .ready → c.failure = none → c.cancelled = false →
      c.signals = .unresolved → accepted = c.written ++ c.queue → Stands accepted c .writing
  | writing {e : Event} {wake : Option Nat} : c.stage = .working (.write e) wake →
      c.failure = none → c.cancelled = false → c.signals = .unresolved →
      accepted = c.written ++ e :: c.queue → Stands accepted c .writing
  | flushing {wake : Option Nat} : c.stage = .working .flush wake → c.closing = true →
      c.cancelled = false → c.signals = .unresolved → accepted = c.written →
      Stands accepted c .writing
  /-- A write has failed, and the channel waits for being closed. -/
  | failed {e : Event} {reason : String} : c.stage = .ready →
      c.failure = some (.transmission c.name reason) → c.cancelled = false →
      c.signals = .unresolved → c.written <+: accepted → Stands accepted c (.writeFailed e reason)
  | acknowledging {wake : Option Nat} : c.stage = .working .acknowledge wake → c.closing = true →
      c.cancelled = false → c.signals = ⟨some .done, none⟩ → accepted = c.written →
      Stands accepted c .flushed
  /-- Nothing is left to be done: the channel was cancelled, before it had sent everything or after
  it was closed, or it is at the end of its course. -/
  | stopped {course : Course} {o : Outcome} : c.stage = .stopped →
      (c.cancelled = true ∧ o = .failed (.cancelled c.name) ∧
          (course.half = none ∨ c.closing = true) ∨
        c.closing = true ∧ course.outcome? c.name = some o) →
      c.signals = ⟨some (course.half.getD o), some o⟩ → course.Covers c.written accepted →
      Stands accepted c course

/-- The past of a channel, its errors and its signals fit together. -/
structure Trace.Coherent (t : Trace) (name : String) (acts : List Act) : Prop where
  name : t.channel.name = name
  closing : t.channel.closing = true ↔ .close ∈ acts
  cancelled : t.channel.cancelled = true ↔ ∃ outside, .cancel outside ∈ acts
  course : ∃ course : Course,
    t.ended = t.channel.written.map (fun e => (.write e, .ok)) ++ course.ended ∧
      t.errors = (course.error? t.channel.name).toList ∧ Stands (admitted acts) t.channel course

namespace Trace.Coherent

variable {t : Trace} {name : String} {acts : List Act}

theorem new (name : String) (destination : Destination) :
    Coherent ⟨.new name destination, [], []⟩ name [] where
  name := rfl
  closing := by simp [Channel.new]
  cancelled := by simp [Channel.new]
  course := ⟨.writing, rfl, rfl, .ready rfl rfl rfl rfl rfl⟩

theorem shut_iff (h : t.Coherent name acts) :
    t.channel.closing = true ∨ t.channel.cancelled = true ↔ ∃ a ∈ acts, a.shuts = true := by
  rw [h.closing, h.cancelled]
  constructor
  · rintro (hc | ⟨outside, hc⟩)
    · exact ⟨_, hc, rfl⟩
    · exact ⟨_, hc, rfl⟩
  · rintro ⟨a, ha, hs⟩
    cases a with
    | close => exact .inl ha
    | cancel outside => exact .inr ⟨outside, ha⟩
    | accept e => exact absurd hs (by simp [Act.shuts])
    | work outside now => exact absurd hs (by simp [Act.shuts])

/-- Only an open channel accepts anything, and only what it accepts is admitted. -/
theorem admitted_concat (h : t.Coherent name acts) (a : Act) : admitted (acts ++ [a]) =
    if t.channel.closing || t.channel.cancelled then admitted acts
    else admitted acts ++ a.event?.toList := by
  split
  · next hs =>
    exact admitted_concat_of_shut (h.shut_iff.mp (by simpa using hs)) a
  · next hs =>
    refine admitted_concat_of_open (fun b hb => ?_) a
    cases hb' : b.shuts with
    | false => rfl
    | true => exact absurd (h.shut_iff.mpr ⟨b, hb, hb'⟩) (by simpa using hs)

end Trace.Coherent

/-! ## What keeps a channel coherent

`Coherent` is about a channel and the list of its acts. Callers change the queue and the flags; the
course is left as it is by all of them. -/

variable {c d : Channel} {accepted : List Event} {course : Course}

theorem accept_keeps (c : Channel) (e : Event) :
    (c.accept e).name = c.name ∧ (c.accept e).closing = c.closing ∧
      (c.accept e).cancelled = c.cancelled ∧ (c.accept e).written = c.written := by
  unfold Channel.accept
  split <;> exact ⟨rfl, rfl, rfl, rfl⟩

theorem Stands.accept (h : Stands accepted c course) (e : Event) :
    Stands (if c.closing || c.cancelled then accepted else accepted ++ [e]) (c.accept e) course := by
  unfold Channel.accept
  split
  · exact h
  · next hs =>
    simp only [Bool.or_eq_true, not_or] at hs
    cases h with
    | ready hstage hf hc hsig hacc =>
      exact .ready hstage hf hc hsig (by simp [hacc])
    | writing hstage hf hc hsig hacc => exact .writing hstage hf hc hsig (by simp [hacc])
    | flushing hstage hclose hc hsig hacc => exact absurd hclose hs.1
    | failed hstage hf hc hsig hacc =>
      exact .failed hstage hf hc hsig (hacc.trans (List.prefix_append _ _))
    | acknowledging hstage hclose hc hsig hacc => exact absurd hclose hs.1
    | stopped hstage hwhy hsig hcov =>
      rcases hwhy with ⟨hc, -⟩ | ⟨hc, -⟩
      · exact absurd hc hs.2
      · exact absurd hc hs.1

theorem Stands.close (h : Stands accepted c course) : Stands accepted c.close course := by
  cases h with
  | ready hstage hf hc hsig hacc => exact .ready hstage hf hc hsig hacc
  | writing hstage hf hc hsig hacc => exact .writing hstage hf hc hsig hacc
  | flushing hstage _ hc hsig hacc => exact .flushing hstage rfl hc hsig hacc
  | failed hstage hf hc hsig hacc => exact .failed hstage hf hc hsig hacc
  | acknowledging hstage _ hc hsig hacc => exact .acknowledging hstage rfl hc hsig hacc
  | stopped hstage hwhy hsig hcov =>
    exact .stopped hstage
      (hwhy.imp (fun h => ⟨h.1, h.2.1, .inr rfl⟩) fun h => ⟨rfl, h.2⟩) hsig hcov

theorem cancel_of_stopped (hs : c.stage = .stopped) (outside : Outside) :
    (c.cancel outside).1 = { c with cancelled := true } := by
  unfold Channel.cancel
  split
  · next hc =>
    rw [← hc]
  · rw [hs]

theorem cancel_of_open (hc : c.cancelled = false) (hs : c.stage ≠ .stopped) (outside : Outside) :
    (c.cancel outside).1 =
      { c with cancelled := true, stage := .stopped, signals := c.signals.cancel c.name } := by
  unfold Channel.cancel
  rw [if_neg (by simp [hc])]
  cases hstage : c.stage with
  | stopped => exact absurd hstage hs
  | ready => rfl
  | working work wake => rfl

theorem cancel_keeps (c : Channel) (outside : Outside) :
    (c.cancel outside).1.name = c.name ∧ (c.cancel outside).1.closing = c.closing ∧
      (c.cancel outside).1.cancelled = true ∧ (c.cancel outside).1.written = c.written := by
  cases hc : c.cancelled with
  | true =>
    have heq : c.cancel outside = (c, outside) := by rw [Channel.cancel, if_pos hc]
    rw [heq]
    exact ⟨rfl, rfl, hc, rfl⟩
  | false =>
    by_cases hs : c.stage = .stopped
    · rw [cancel_of_stopped hs]
      exact ⟨rfl, rfl, rfl, rfl⟩
    · rw [cancel_of_open hc hs]
      exact ⟨rfl, rfl, rfl, rfl⟩

theorem Stands.cancel (h : Stands accepted c course) (outside : Outside) :
    Stands accepted (c.cancel outside).1 course := by
  cases h with
  | ready hstage hf hc hsig hacc =>
    rw [cancel_of_open hc (by simp [hstage])]
    exact .stopped rfl (.inl ⟨rfl, rfl, .inl rfl⟩) (by rw [hsig]; rfl) (hacc ▸ List.prefix_append _ _)
  | writing hstage hf hc hsig hacc =>
    rw [cancel_of_open hc (by simp [hstage])]
    exact .stopped rfl (.inl ⟨rfl, rfl, .inl rfl⟩) (by rw [hsig]; rfl) (hacc ▸ List.prefix_append _ _)
  | flushing hstage hclose hc hsig hacc =>
    rw [cancel_of_open hc (by simp [hstage])]
    exact .stopped rfl (.inl ⟨rfl, rfl, .inl rfl⟩) (by rw [hsig]; rfl) (hacc ▸ List.prefix_refl _)
  | failed hstage hf hc hsig hacc =>
    rw [cancel_of_open hc (by simp [hstage])]
    exact .stopped rfl (.inl ⟨rfl, rfl, .inl rfl⟩) (by rw [hsig]; rfl) hacc
  | acknowledging hstage hclose hc hsig hacc =>
    rw [cancel_of_open hc (by simp [hstage])]
    exact .stopped rfl (.inl ⟨rfl, rfl, .inr hclose⟩) (by rw [hsig]; rfl) hacc
  | stopped hstage hwhy hsig hcov =>
    rw [cancel_of_stopped hstage]
    exact .stopped hstage (hwhy.imp_left fun h => ⟨rfl, h.2⟩) hsig hcov

/-! ### Turns of the worker

`Does` lists the turns, and `Stands.does` says of each of them what the next course is and what was
added to the past. -/

/-- Between two pieces of work a channel writes, or waits after a failure. -/
theorem Stands.of_ready (h : Stands accepted c course) (hs : c.stage = .ready) :
    c.cancelled = false ∧ c.signals = .unresolved ∧
      (course = .writing ∧ c.failure = none ∧ accepted = c.written ++ c.queue ∨
        ∃ e reason, course = .writeFailed e reason ∧
          c.failure = some (.transmission c.name reason) ∧ c.written <+: accepted) := by
  cases h with
  | ready _ hf hc hsig hacc => exact ⟨hc, hsig, .inl ⟨rfl, hf, hacc⟩⟩
  | failed _ hf hc hsig hacc => exact ⟨hc, hsig, .inr ⟨_, _, rfl, hf, hacc⟩⟩
  | writing hstage => cases hs.symm.trans hstage
  | flushing hstage => cases hs.symm.trans hstage
  | acknowledging hstage => cases hs.symm.trans hstage
  | stopped hstage => cases hs.symm.trans hstage

/-- As long as nothing has failed, every event was written or is waiting to be. -/
theorem Stands.of_ready_unfailed (h : Stands accepted c course) (hs : c.stage = .ready)
    (hf : c.failure = none) : c.cancelled = false ∧ c.signals = .unresolved ∧ course = .writing ∧
      accepted = c.written ++ c.queue := by
  obtain ⟨hc, hsig, ⟨hcourse, -, hacc⟩ | ⟨_, _, -, hfail, -⟩⟩ := h.of_ready hs
  · exact ⟨hc, hsig, hcourse, hacc⟩
  · cases hf.symm.trans hfail

/-- After a failure nothing more is written. -/
theorem Stands.of_ready_failed {f : SinkError} (h : Stands accepted c course) (hs : c.stage = .ready)
    (hf : c.failure = some f) : c.cancelled = false ∧ c.signals = .unresolved ∧
      ∃ e reason, course = .writeFailed e reason ∧ f = .transmission c.name reason ∧
        c.written <+: accepted := by
  obtain ⟨hc, hsig, ⟨-, hnone, -⟩ | ⟨e, reason, hcourse, hfail, hacc⟩⟩ := h.of_ready hs
  · cases hf.symm.trans hnone
  · exact ⟨hc, hsig, e, reason, hcourse, Option.some.inj (hf.symm.trans hfail), hacc⟩

theorem Stands.of_write {e : Event} {wake : Option Nat} (h : Stands accepted c course)
    (hs : c.stage = .working (.write e) wake) :
    c.failure = none ∧ c.cancelled = false ∧ c.signals = .unresolved ∧ course = .writing ∧
      accepted = c.written ++ e :: c.queue := by
  cases h with
  | writing hstage hf hc hsig hacc =>
    cases hs.symm.trans hstage
    exact ⟨hf, hc, hsig, rfl, hacc⟩
  | ready hstage => cases hs.symm.trans hstage
  | failed hstage => cases hs.symm.trans hstage
  | flushing hstage => cases hs.symm.trans hstage
  | acknowledging hstage => cases hs.symm.trans hstage
  | stopped hstage => cases hs.symm.trans hstage

theorem Stands.of_flush {wake : Option Nat} (h : Stands accepted c course)
    (hs : c.stage = .working .flush wake) :
    c.closing = true ∧ c.cancelled = false ∧ c.signals = .unresolved ∧ course = .writing ∧
      accepted = c.written := by
  cases h with
  | flushing _ hclose hc hsig hacc => exact ⟨hclose, hc, hsig, rfl, hacc⟩
  | ready hstage => cases hs.symm.trans hstage
  | failed hstage => cases hs.symm.trans hstage
  | writing hstage => cases hs.symm.trans hstage
  | acknowledging hstage => cases hs.symm.trans hstage
  | stopped hstage => cases hs.symm.trans hstage

theorem Stands.of_acknowledge {wake : Option Nat} (h : Stands accepted c course)
    (hs : c.stage = .working .acknowledge wake) :
    c.closing = true ∧ c.cancelled = false ∧ c.signals = ⟨some .done, none⟩ ∧ course = .flushed ∧
      accepted = c.written := by
  cases h with
  | acknowledging _ hclose hc hsig hacc => exact ⟨hclose, hc, hsig, rfl, hacc⟩
  | ready hstage => cases hs.symm.trans hstage
  | failed hstage => cases hs.symm.trans hstage
  | writing hstage => cases hs.symm.trans hstage
  | flushing hstage => cases hs.symm.trans hstage
  | stopped hstage => cases hs.symm.trans hstage

/-- **A turn of the worker** goes on in the course of the channel. -/
theorem Stands.does {ended : List (Work × Verdict)} {errors : List SinkError}
    (h : Stands accepted c course) (hd : c.Does d ended errors) :
    ∃ next : Course, Stands accepted d next ∧
      d.written.map (fun e => ((.write e, .ok) : Work × Verdict)) ++ next.ended =
        c.written.map (fun e => (.write e, .ok)) ++ course.ended ++ ended ∧
      (next.error? c.name).toList = (course.error? c.name).toList ++ errors := by
  -- One case for each kind of turn: what stood before says what was under way, and the turn adds its
  -- own end to it.
  cases hd with
  | leftOut hs hq hf =>
    obtain ⟨hc, hsig, e, reason, rfl, rfl, hacc⟩ := h.of_ready_failed hs hf
    exact ⟨.writeFailed e reason, .failed rfl hf hc hsig hacc, by simp, by simp⟩
  | begun destination wake hs hq hf =>
    obtain ⟨hc, hsig, rfl, hacc⟩ := h.of_ready_unfailed hs hf
    exact ⟨_, .writing rfl hf hc hsig (by rw [hacc, hq]), by simp, by simp⟩
  | gaveUp hs hclose hf =>
    obtain ⟨hc, hsig, e, reason, rfl, rfl, hacc⟩ := h.of_ready_failed hs hf
    exact ⟨.writeFailed e reason, .stopped rfl (.inr ⟨hclose, rfl⟩) (by rw [hsig]; rfl) hacc,
      by simp, by simp⟩
  | flushes destination wake hs hq hclose hf =>
    obtain ⟨hc, hsig, rfl, hacc⟩ := h.of_ready_unfailed hs hf
    rw [hq, List.append_nil] at hacc
    exact ⟨_, .flushing rfl hclose hc hsig hacc, by simp, by simp⟩
  | @again work wake destination later hs =>
    cases work with
    | write e =>
      obtain ⟨hf, hc, hsig, rfl, hacc⟩ := h.of_write hs
      exact ⟨_, .writing rfl hf hc hsig hacc, by simp, by simp⟩
    | flush =>
      obtain ⟨hclose, hc, hsig, rfl, hacc⟩ := h.of_flush hs
      exact ⟨_, .flushing rfl hclose hc hsig hacc, by simp, by simp⟩
    | acknowledge =>
      obtain ⟨hclose, hc, hsig, rfl, hacc⟩ := h.of_acknowledge hs
      exact ⟨_, .acknowledging rfl hclose hc hsig hacc, by simp, by simp⟩
  | wrote destination hs =>
    obtain ⟨hf, hc, hsig, rfl, hacc⟩ := h.of_write hs
    exact ⟨.writing, .ready rfl hf hc hsig (by simp [hacc]), by simp [Course.ended], by simp⟩
  | @writeFailed e wake destination reason hs =>
    obtain ⟨hf, hc, hsig, rfl, hacc⟩ := h.of_write hs
    refine ⟨.writeFailed e reason, .failed rfl rfl hc hsig ?_, by simp [Course.ended], rfl⟩
    exact hacc ▸ List.prefix_append _ _
  | flushed destination later hs =>
    obtain ⟨hclose, hc, hsig, rfl, hacc⟩ := h.of_flush hs
    exact ⟨.flushed, .acknowledging rfl hclose hc (by rw [hsig]; rfl) hacc, by simp [Course.ended], rfl⟩
  | flushFailed destination reason hs =>
    obtain ⟨hclose, hc, hsig, rfl, hacc⟩ := h.of_flush hs
    exact ⟨.flushFailed reason, .stopped rfl (.inr ⟨hclose, rfl⟩) (by rw [hsig]; rfl) hacc,
      by simp [Course.ended], rfl⟩
  | acknowledged destination hs =>
    obtain ⟨hclose, hc, hsig, rfl, hacc⟩ := h.of_acknowledge hs
    exact ⟨.acknowledged, .stopped rfl (.inr ⟨hclose, rfl⟩) (by rw [hsig]; rfl) hacc,
      by simp [Course.ended], rfl⟩
  | acknowledgeFailed destination reason hs =>
    obtain ⟨hclose, hc, hsig, rfl, hacc⟩ := h.of_acknowledge hs
    exact ⟨.acknowledgeFailed reason, .stopped rfl (.inr ⟨hclose, rfl⟩) (by rw [hsig]; rfl) hacc,
      by simp [Course.ended], rfl⟩

/-! ## Every interleaving

The induction over the acts, and then what the program does at an instant as a list of acts. -/

namespace Trace.Coherent

variable {t : Trace} {name : String} {acts : List Act}

theorem accept (h : t.Coherent name acts) (e : Event) :
    (t.act (.accept e)).Coherent name (acts ++ [.accept e]) := by
  obtain ⟨course, hended, herrors, hstands⟩ := h.course
  obtain ⟨hname, hclosing, hcancelled, hwritten⟩ := accept_keeps t.channel e
  refine ⟨hname.trans h.name, ?_, ?_, course, ?_, ?_, ?_⟩
  · simp [Trace.act, hclosing, h.closing]
  · simp [Trace.act, hcancelled, h.cancelled]
  · simp only [Trace.act, hwritten, hended]
  · simp only [Trace.act, hname, herrors]
  · rw [h.admitted_concat]
    exact hstands.accept e

theorem close (h : t.Coherent name acts) : (t.act .close).Coherent name (acts ++ [.close]) := by
  obtain ⟨course, hended, herrors, hstands⟩ := h.course
  refine ⟨h.name, ?_, ?_, course, hended, herrors, ?_⟩
  · simp [Trace.act, Channel.close]
  · simpa [Trace.act, Channel.close] using h.cancelled
  · rw [h.admitted_concat]
    simpa [Act.event?, Trace.act] using hstands.close

theorem cancel (h : t.Coherent name acts) (outside : Outside) :
    (t.act (.cancel outside)).Coherent name (acts ++ [.cancel outside]) := by
  obtain ⟨course, hended, herrors, hstands⟩ := h.course
  obtain ⟨hname, hclosing, hcancelled, hwritten⟩ := cancel_keeps t.channel outside
  refine ⟨hname.trans h.name, ?_, ?_, course, ?_, ?_, ?_⟩
  · simp [Trace.act, hclosing, h.closing]
  · exact ⟨fun _ => ⟨outside, by simp⟩, fun _ => hcancelled⟩
  · simp only [Trace.act, hwritten, hended]
  · simp only [Trace.act, hname, herrors]
  · rw [h.admitted_concat]
    simpa [Act.event?, Trace.act] using hstands.cancel outside

/-- A turn of the worker ends a piece of work at the most, and the channel says so in its signals. -/
theorem work (h : t.Coherent name acts) (outside : Outside) (now : Nat) :
    (t.act (.work outside now)).Coherent name (acts ++ [.work outside now]) := by
  have hadmitted : admitted (acts ++ [.work outside now]) = admitted acts := by
    rw [h.admitted_concat]
    simp [Act.event?]
  obtain ⟨course, hended, herrors, hstands⟩ := h.course
  cases hstep : t.channel.step? outside now with
  | none =>
    rw [Trace.act_work_of_none hstep]
    refine ⟨h.name, ?_, ?_, course, hended, herrors, hadmitted ▸ hstands⟩
    · simpa using h.closing
    · simpa using h.cancelled
  | some out =>
    obtain ⟨c, outside', errors⟩ := out
    rw [Trace.act_work_of_some hstep]
    have hdoes := does_step? hstep
    obtain ⟨hname, hclosing, hcancelled⟩ := hdoes.keeps
    obtain ⟨next, hnext, hpast, hmet⟩ := hstands.does hdoes
    refine ⟨hname.trans h.name, ?_, ?_, next, ?_, ?_, hadmitted ▸ hnext⟩
    · simpa [hclosing] using h.closing
    · simpa [hcancelled] using h.cancelled
    · simp only [hended, hpast]
    · simp only [hname, herrors, hmet]

theorem act (h : t.Coherent name acts) (a : Act) : (t.act a).Coherent name (acts ++ [a]) := by
  cases a with
  | accept e => exact h.accept e
  | close => exact h.close
  | cancel outside => exact h.cancel outside
  | work outside now => exact h.work outside now

end Trace.Coherent

/-- **Whatever happens to a channel**, its past, its errors and its signals are those of its course. -/
theorem coherent (name : String) (destination : Destination) (acts : List Act) :
    (trace name destination acts).Coherent name acts := by
  induction acts using List.reverseRecOn with
  | nil => exact .new name destination
  | append_singleton acts a ih =>
    rw [trace_concat]
    exact ih.act a

/-- Everything that a channel does at one instant is a row of turns. -/
theorem run_acts (steps : Nat) (t : Trace) (outside : Outside) (now : Nat) :
    ∃ more : List Act, (∀ a ∈ more, ∃ outside', a = .work outside' now) ∧
      (more.foldl Trace.act t).channel = (run steps t.channel outside now).1 ∧
      (more.foldl Trace.act t).errors = t.errors ++ (run steps t.channel outside now).2.2 := by
  induction steps generalizing t outside with
  | zero => exact ⟨[], by simp, rfl, by simp [run]⟩
  | succ steps ih =>
    cases hstep : t.channel.step? outside now with
    | none => exact ⟨[], by simp, by simp [run, hstep], by simp [run, hstep]⟩
    | some out =>
      obtain ⟨c, outside', errors⟩ := out
      have hact := Trace.act_work_of_some hstep
      obtain ⟨more, hall, hchannel, herrors⟩ := ih (t.act (.work outside now)) outside'
      rw [hact] at hchannel herrors
      refine ⟨.work outside now :: more, ?_, ?_, ?_⟩
      · simpa using hall
      · simp only [List.foldl_cons, hact, hchannel, run, hstep]
      · simp only [List.foldl_cons, hact, herrors, run, hstep, List.append_assoc]

end Channel

end EventUpload
