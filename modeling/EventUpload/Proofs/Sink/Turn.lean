import EventUpload.Sink.Channel

/-!
# One turn of a worker

`Channel.step?` is one turn of the worker of a channel: it begins a piece of work, or goes on with the
one at hand, or concludes it. `Channel.Does` lists what such a turn can do, and `Channel.does_step?`
reads it off the definition, once; what holds of every turn is shown by going through the list.

The list is wider than the definition on purpose. The destination afterwards is any destination and the
instant of the next turn is any instant, so a proof that goes through `Does` knows nothing of what a
file, a backend or a scripted destination does, and holds for all of them. What a turn says to its
callers is not left open: the error of a failed piece of work is the one with the reason of that
failure, and every other turn reports none.

Which pieces of work come to an end is not part of the state of a channel. `Channel.ending` reads it off
the stage before the turn, and `Does` has it as an index, so that a history of ended work
(`Channel.Trace`) can be kept beside the channel without changing how the channel is defined. Where it
matters what the destination itself went through, as with the batches of a backend, there is a list with
that in it (`Channel.Uploads`).
-/

set_option autoImplicit false

namespace EventUpload

namespace Channel

/-- The piece of work that comes to an end in the next turn of the worker, if one does. -/
def ending (c : Channel) (outside : Outside) (now : Nat) : List (Work × Verdict) :=
  match c.stage with
  | .working work wake =>
    if isDue wake now then
      match (c.destination.finish outside work).2.2 with
      | .again _ => []
      | verdict => [(work, verdict)]
    else []
  | .ready | .stopped => []

/-- What a turn of the worker can do: the channel afterwards, the piece of work that came to an end, and
the error that was met. -/
inductive Does (c : Channel) : Channel → List (Work × Verdict) → List SinkError → Prop where
  /-- After a failure an event is left out. -/
  | leftOut {e : Event} {queue : List Event} {f : SinkError} :
      c.stage = .ready → c.queue = e :: queue → c.failure = some f →
      Does c { c with queue := queue, stage := .ready } [] []
  | begun {e : Event} {queue : List Event} (destination : Destination) (wake : Option Nat) :
      c.stage = .ready → c.queue = e :: queue → c.failure = none →
      Does c { c with queue := queue, destination := destination, stage := .working (.write e) wake }
        [] []
  /-- The channel is closed, and an earlier failure ends it. -/
  | gaveUp {f : SinkError} : c.stage = .ready → c.closing = true → c.failure = some f →
      Does c { c with stage := .stopped, signals := c.signals.fail f } [] []
  | flushes (destination : Destination) (wake : Option Nat) :
      c.stage = .ready → c.queue = [] → c.closing = true → c.failure = none →
      Does c { c with destination := destination, stage := .working .flush wake } [] []
  /-- The work at hand goes on. -/
  | again {work : Work} {wake : Option Nat} (destination : Destination) (later : Option Nat) :
      c.stage = .working work wake →
      Does c { c with destination := destination, stage := .working work later } [] []
  | wrote {e : Event} {wake : Option Nat} (destination : Destination) :
      c.stage = .working (.write e) wake →
      Does c { c with destination := destination, written := c.written ++ [e], stage := .ready }
        [(.write e, .ok)] []
  | writeFailed {e : Event} {wake : Option Nat} (destination : Destination) (reason : String) :
      c.stage = .working (.write e) wake →
      Does c { c with
          destination := destination
          failure := some (.transmission c.name reason)
          stage := .ready }
        [(.write e, .failed reason)] [.transmission c.name reason]
  | flushed {wake : Option Nat} (destination : Destination) (later : Option Nat) :
      c.stage = .working .flush wake →
      Does c { c with
          destination := destination
          signals := { c.signals with half := c.signals.half.resolve .done }
          stage := .working .acknowledge later }
        [(.flush, .ok)] []
  | flushFailed {wake : Option Nat} (destination : Destination) (reason : String) :
      c.stage = .working .flush wake →
      Does c { c with
          destination := destination
          signals := c.signals.fail (.transmission c.name reason)
          stage := .stopped }
        [(.flush, .failed reason)] [.transmission c.name reason]
  | acknowledged {wake : Option Nat} (destination : Destination) :
      c.stage = .working .acknowledge wake →
      Does c { c with
          destination := destination
          signals := { c.signals with done := c.signals.done.resolve .done }
          stage := .stopped }
        [(.acknowledge, .ok)] []
  | acknowledgeFailed {wake : Option Nat} (destination : Destination) (reason : String) :
      c.stage = .working .acknowledge wake →
      Does c { c with
          destination := destination
          signals := c.signals.fail (.transmission c.name reason)
          stage := .stopped }
        [(.acknowledge, .failed reason)] [.transmission c.name reason]

/-- **Whatever the worker does**, it is one of these things. -/
theorem does_step? {c d : Channel} {outside outside' : Outside} {now : Nat}
    {errors : List SinkError} (h : c.step? outside now = some (d, outside', errors)) :
    c.Does d (c.ending outside now) errors := by
  unfold step? at h
  unfold ending
  -- One case for each branch of the definition, in its order.
  cases hs : c.stage with
  | stopped =>
    rw [hs] at h
    exact absurd h (by simp)
  | ready =>
    simp only [hs] at h ⊢
    split at h
    · next hq hf =>
      cases h
      exact .leftOut hs hq hf
    · next hq hf =>
      cases h
      exact .begun _ _ hs hq hf
    · next hq =>
      split at h
      · next hc =>
        split at h
        · next hf =>
          cases h
          exact .gaveUp hs hc hf
        · next hf =>
          cases h
          exact .flushes _ _ hs hq hc hf
      · exact absurd h (by simp)
  | working work wake =>
    simp only [hs] at h ⊢
    split at h
    · next hdue =>
      rw [if_pos hdue]
      -- What the destination has done does not matter, only its verdict.
      generalize c.destination.finish outside work = f at h ⊢
      obtain ⟨destination, outside₁, verdict⟩ := f
      cases verdict with
      | again pause =>
        cases h
        exact .again _ _ hs
      | failed reason =>
        cases work with
        | write e =>
          cases h
          exact .writeFailed _ reason hs
        | flush =>
          cases h
          exact .flushFailed _ reason hs
        | acknowledge =>
          cases h
          exact .acknowledgeFailed _ reason hs
      | ok =>
        cases work with
        | write e =>
          cases h
          exact .wrote _ hs
        | flush =>
          cases h
          exact .flushed _ _ hs
        | acknowledge =>
          cases h
          exact .acknowledged _ hs
    · exact absurd h (by simp)

/-- What a turn of the worker leaves alone. -/
theorem Does.keeps {c d : Channel} {ended : List (Work × Verdict)} {errors : List SinkError}
    (h : c.Does d ended errors) :
    d.name = c.name ∧ d.closing = c.closing ∧ d.cancelled = c.cancelled := by
  cases h <;> exact ⟨rfl, rfl, rfl⟩

end Channel

end EventUpload
