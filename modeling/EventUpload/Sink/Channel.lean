import EventUpload.Sink.Destination
import EventUpload.Sink.Signal

/-!
# Channels

A channel is a queue of events in front of a destination. It takes events until it is closed or
cancelled, and never makes its caller wait. Behind the queue one piece of work is done after the
other: every event is written, then, once the channel is closed and the queue is empty, everything
is flushed and acknowledged. After the first failure nothing more is written; the failure ends both
signals when the channel is closed. Cancelling stops the work wherever it is.

`Channel.advance` does everything that can be done at an instant and answers with the errors that
were met.
-/

set_option autoImplicit false

namespace EventUpload

/-- Where the work of a channel stands. -/
inductive Stage where
  /-- Between two pieces of work. -/
  | ready
  /-- At a piece of work, which ends at an instant if it ever ends. -/
  | working (work : Work) (wake : Option Nat)
  /-- Nothing is left to be done. -/
  | stopped
deriving Repr

/-- A queue of events in front of a destination. -/
structure Channel where
  name : String
  destination : Destination
  queue : List Event
  closing : Bool
  cancelled : Bool
  failure : Option SinkError
  stage : Stage
  written : List Event
  signals : Signals

namespace Channel

def new (name : String) (destination : Destination) : Channel :=
  ⟨name, destination, [], false, false, none, .ready, [], .unresolved⟩

/-! ## What callers do -/

/-- Takes an event, unless the channel is closed or cancelled. -/
def accept (c : Channel) (e : Event) : Channel :=
  if c.closing || c.cancelled then c else { c with queue := c.queue ++ [e] }

def close (c : Channel) : Channel := { c with closing := true }

/-- Stops the work and resolves the signals that are not resolved. -/
def cancel (c : Channel) (outside : Outside) : Channel × Outside :=
  if c.cancelled then (c, outside)
  else
    let c := { c with cancelled := true }
    match c.stage with
    -- What has stopped has its outcomes, and nothing outside is held any longer.
    | .stopped => (c, outside)
    | _ => ({ c with stage := .stopped, signals := c.signals.cancel c.name },
        c.destination.release outside)

/-- What is left outside when the process is gone. -/
def release (c : Channel) (outside : Outside) : Outside :=
  match c.stage with
  | .stopped => outside
  | _ => c.destination.release outside

/-! ## Work -/

def begin (c : Channel) (outside : Outside) (now : Nat) (work : Work) : Channel × Outside :=
  let (destination, outside, time) := c.destination.begin outside work
  ({ c with destination := destination, stage := .working work (time.map (now + ·)) }, outside)

def stop (c : Channel) (outside : Outside) (signals : Signals) : Channel × Outside :=
  ({ c with stage := .stopped, signals := signals }, c.destination.release outside)

def stopFailed (c : Channel) (outside : Outside) (e : SinkError) : Channel × Outside :=
  c.stop outside (c.signals.fail e)

/-- What follows a finished piece of work. -/
def conclude (c : Channel) (outside : Outside) (now : Nat) (work : Work) (verdict : Verdict) :
    Channel × Outside × List SinkError :=
  match verdict with
  | .again pause => ({ c with stage := .working work (some (now + pause)) }, outside, [])
  | .failed reason =>
    let e := SinkError.transmission c.name reason
    match work with
    -- Writing fails at once for the user, but for the signals only when the channel is closed.
    | .write _ => ({ c with failure := some e, stage := .ready }, outside, [e])
    | _ =>
      let (c, outside) := c.stopFailed outside e
      (c, outside, [e])
  | .ok =>
    match work with
    | .write e => ({ c with written := c.written ++ [e], stage := .ready }, outside, [])
    | .flush =>
      let c := { c with signals := { c.signals with half := c.signals.half.resolve .done } }
      let (c, outside) := c.begin outside now .acknowledge
      (c, outside, [])
    | .acknowledge =>
      let (c, outside) := c.stop outside
        { c.signals with done := c.signals.done.resolve .done }
      (c, outside, [])

def isDue (wake : Option Nat) (now : Nat) : Bool := wake.any (· ≤ now)

/-- The next thing that can be done at an instant, or `none` when there is nothing. -/
def step? (c : Channel) (outside : Outside) (now : Nat) :
    Option (Channel × Outside × List SinkError) :=
  match c.stage with
  | .stopped => none
  | .working work wake =>
    if isDue wake now then
      let (destination, outside, verdict) := c.destination.finish outside work
      some (conclude { c with destination := destination } outside now work verdict)
    else none
  | .ready =>
    match c.queue, c.failure with
    -- After a failure the queue is emptied, and nothing of it is written.
    | _ :: queue, some _ => some ({ c with queue := queue }, outside, [])
    | e :: queue, none =>
      let (c, outside) := begin { c with queue := queue } outside now (.write e)
      some (c, outside, [])
    | [], failure =>
      if c.closing then
        match failure with
        | some e =>
          let (c, outside) := c.stopFailed outside e
          some (c, outside, [])
        | none =>
          let (c, outside) := c.begin outside now .flush
          some (c, outside, [])
      else none

def run : (steps : Nat) → Channel → Outside → Nat → Channel × Outside × List SinkError
  | 0, c, outside, _ => (c, outside, [])
  | steps + 1, c, outside, now =>
    match c.step? outside now with
    | none => (c, outside, [])
    | some (c, outside, errors) =>
      let (c, outside, more) := run steps c outside now
      (c, outside, errors ++ more)

/-- How many things there can be to do at one instant: two for every event, and three for the end.
A question that is asked again without a pause is answered as often as the service has answers. -/
def patience (c : Channel) (outside : Outside) : Nat :=
  2 * c.queue.length + 6 + outside.service.answers.length

/-- Does everything that can be done at an instant. -/
def advance (c : Channel) (outside : Outside) (now : Nat) : Channel × Outside × List SinkError :=
  run (c.patience outside) c outside now

/-- The instant at which the work at hand ends. -/
def wake? (c : Channel) : Option Nat :=
  match c.stage with
  | .working _ wake => wake
  | _ => none

end Channel

end EventUpload
