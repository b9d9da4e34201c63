import EventUpload.Sink.Channel

/-!
# Sinks

A sink has a name, a bound on the time its upload may take after it was closed (zero for none), and
two signals. Behind it is either a channel or a responder: something that takes every event at once
and of which only the answer to being closed is known.

From some instant on a sink with a bound is watched: its watch takes over the outcome of a signal as
soon as there is one. When the bound has passed and a signal has no outcome, the watch resolves it as
timed out and cancels the sink. The signal for being done comes first, so a sink that never got
half-way is cancelled before the bound of the half-close is looked at.
-/

set_option autoImplicit false

namespace EventUpload

/-! ## Responders -/

/-- Something that takes every event at once. Its signals resolve a given time after it was closed,
if ever, or because somebody resolves them. -/
structure Responder where
  name : String
  /-- The time from closing to the half-close. -/
  halfAfter : Option Nat
  /-- The time from closing to the end, with the outcome. -/
  doneAfter : Option (Nat × Outcome)
  received : List Event
  /-- When it was closed first. -/
  closedAt : Option Nat
  /-- How often it was closed. -/
  closes : Nat
  cancelled : Bool
  signals : Signals
deriving Repr

namespace Responder

def new (name : String) (halfAfter : Option Nat) (doneAfter : Option (Nat × Outcome)) : Responder :=
  ⟨name, halfAfter, doneAfter, [], none, 0, false, .unresolved⟩

def halfAt (r : Responder) : Option (Nat × Outcome) := do
  return ((← r.closedAt) + (← r.halfAfter), .done)

def doneAt (r : Responder) : Option (Nat × Outcome) := do
  let (after, outcome) ← r.doneAfter
  return ((← r.closedAt) + after, outcome)

/-- A signal at an instant, given when it resolves by itself. -/
def reach (s : Signal) (due : Option (Nat × Outcome)) (now : Nat) : Signal :=
  match due with
  | some (t, outcome) => if t ≤ now then s.resolve outcome else s
  | none => s

def advance (r : Responder) (now : Nat) : Responder :=
  { r with signals := ⟨reach r.signals.half r.halfAt now, reach r.signals.done r.doneAt now⟩ }

def accept (r : Responder) (e : Event) : Responder :=
  if r.cancelled then r else { r with received := r.received ++ [e] }

/-- Closes it; the times count from the first time. -/
def close (r : Responder) (now : Nat) : Responder :=
  advance { r with closes := r.closes + 1, closedAt := r.closedAt <|> some now } now

def cancel (r : Responder) : Responder :=
  { r with cancelled := true, signals := r.signals.cancel r.name }

def wakes (r : Responder) : List Nat :=
  (if r.signals.half.isNone then r.halfAt.toList.map Prod.fst else [])
    ++ (if r.signals.done.isNone then r.doneAt.toList.map Prod.fst else [])

end Responder

/-! ## Sinks -/

inductive SinkBody where
  | responder (r : Responder)
  | channel (c : Channel)

/-- The signals of a sink as they are seen from outside, under a deadline. -/
structure Watch where
  deadline : Nat
  seen : Signals
deriving BEq, DecidableEq, Repr

/-- What a watch has not seen counts as cancelled. -/
def Watch.cancel (w : Watch) (sink : String) : Watch := { w with seen := w.seen.cancel sink }

structure Sink where
  /-- The bound of its upload in milliseconds; zero means none. -/
  bound : Nat
  body : SinkBody
  watch : Option Watch

namespace Sink

def new (bound : Nat) (body : SinkBody) : Sink := ⟨bound, body, none⟩

def name (s : Sink) : String :=
  match s.body with
  | .responder r => r.name
  | .channel c => c.name

def signals (s : Sink) : Signals :=
  match s.body with
  | .responder r => r.signals
  | .channel c => c.signals

def received (s : Sink) : List Event :=
  match s.body with
  | .responder r => r.received
  | .channel c => c.written

def accept (s : Sink) (e : Event) : Sink :=
  match s.body with
  | .responder r => { s with body := .responder (r.accept e) }
  | .channel c => { s with body := .channel (c.accept e) }

def close (s : Sink) (now : Nat) : Sink :=
  match s.body with
  | .responder r => { s with body := .responder (r.close now) }
  | .channel c => { s with body := .channel c.close }

def cancel (s : Sink) (outside : Outside) : Sink × Outside :=
  match s.body with
  | .responder r => ({ s with body := .responder r.cancel }, outside)
  | .channel c =>
    let (c, outside) := c.cancel outside
    ({ s with body := .channel c }, outside)

/-- What is left outside when the process is gone. -/
def release (s : Sink) (outside : Outside) : Outside :=
  match s.body with
  | .responder _ => outside
  | .channel c => c.release outside

/-- Resolves a signal of a responder from outside. -/
def resolve (s : Sink) (half : Bool) (outcome : Outcome) : Sink :=
  match s.body with
  | .responder r =>
    let signals := if half then { r.signals with half := r.signals.half.resolve outcome }
      else { r.signals with done := r.signals.done.resolve outcome }
    { s with body := .responder { r with signals := signals } }
  | .channel _ => s

/-- Does everything that can be done at an instant; the answer has the errors that were met. -/
def advance (s : Sink) (outside : Outside) (now : Nat) : Sink × Outside × List SinkError :=
  match s.body with
  | .responder r => ({ s with body := .responder (r.advance now) }, outside, [])
  | .channel c =>
    let (c, outside, errors) := c.advance outside now
    ({ s with body := .channel c }, outside, errors)

def wakes (s : Sink) : List Nat :=
  match s.body with
  | .responder r => r.wakes
  | .channel c => c.wake?.toList

/-! ## Watches -/

/-- The signals as they are seen from outside. -/
def seen (s : Sink) : Signals :=
  match s.watch with
  | some w => w.seen
  | none => s.signals

/-- Starts to watch a sink, if it has a bound. -/
def startWatch (s : Sink) (now : Nat) : Sink :=
  if s.bound = 0 then s else { s with watch := some ⟨now + s.bound, .unresolved⟩ }

def timeout (s : Sink) : SinkError := .closeTimeout s.name s.bound

/-- Looks after the signal for being done. -/
def watchDone (s : Sink) (outside : Outside) (now : Nat) : Sink × Outside :=
  match s.watch with
  | none => (s, outside)
  | some w =>
    if w.seen.done.isSome then (s, outside)
    else match s.signals.done with
      | some o => ({ s with watch := some { w with seen := { w.seen with done := some o } } }, outside)
      | none =>
        if now < w.deadline then (s, outside)
        else
          -- The outcome is the timeout, whatever cancelling does to the signal itself.
          let w := { w with seen := { w.seen with done := some (.failed s.timeout) } }
          { s with watch := some w }.cancel outside

def watchHalf (s : Sink) (outside : Outside) (now : Nat) : Sink × Outside :=
  match s.watch with
  | none => (s, outside)
  | some w =>
    if w.seen.half.isSome then (s, outside)
    else match s.signals.half with
      | some o => ({ s with watch := some { w with seen := { w.seen with half := some o } } }, outside)
      | none =>
        if now < w.deadline then (s, outside)
        else
          let w := { w with seen := { w.seen with half := some (.failed s.timeout) } }
          { s with watch := some w }.cancel outside

/-- Does everything that can be done to a sink and its watch at an instant. -/
def settle (s : Sink) (outside : Outside) (now : Nat) : Sink × Outside × List SinkError :=
  let (s, outside, errors) := s.advance outside now
  let (s, outside) := s.watchDone outside now
  let (s, outside) := s.watchHalf outside now
  (s, outside, errors)

/-- Gives a sink up: what its watch has not seen counts as cancelled, and so does the sink. -/
def giveUp (s : Sink) (outside : Outside) : Sink × Outside :=
  let watch : Option Watch := s.watch.map fun w => w.cancel s.name
  { s with watch := watch }.cancel outside

def dueInstants (s : Sink) : List Nat :=
  s.wakes ++ match s.watch with
    | some w => if w.seen.half.isNone || w.seen.done.isNone then [w.deadline] else []
    | none => []

end Sink

end EventUpload
