import EventUpload.Sink.Basic

/-!
# A sink in time

`SinkRun.reach` lets time pass for one sink that is left alone: it goes from one instant at which
there is something to do to the next, up to a horizon, and stops early as soon as a wish is
fulfilled.
-/

set_option autoImplicit false

namespace EventUpload

/-- The first of the instants that lies after `now`. -/
def nextInstant? (now : Nat) (instants : List Nat) : Option Nat :=
  (instants.filter (now < ·)).min?

/-- A sink at an instant, with the errors met so far. -/
structure SinkRun where
  now : Nat
  sink : Sink
  outside : Outside
  errors : List (Nat × SinkError)

namespace SinkRun

def settle (r : SinkRun) : SinkRun :=
  let (sink, outside, errors) := r.sink.advance r.outside r.now
  { r with sink := sink, outside := outside, errors := r.errors ++ errors.map fun e => (r.now, e) }

def go (horizon : Nat) (wish : Sink → Bool) : (moves : Nat) → SinkRun → SinkRun
  | 0, r => r.settle
  | moves + 1, r =>
    let r := r.settle
    if wish r.sink then r
    else match nextInstant? r.now r.sink.wakes with
      | some t => if t ≤ horizon then go horizon wish moves { r with now := t } else
        { r with now := max r.now horizon }
      | none => { r with now := max r.now horizon }

/-- Lets time pass up to a horizon or until the wish is fulfilled. Every move takes at least one
millisecond. -/
def reach (r : SinkRun) (horizon : Nat) (wish : Sink → Bool) : SinkRun :=
  go horizon wish (horizon - r.now) r

end SinkRun

end EventUpload
