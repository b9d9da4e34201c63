import EventUpload.Sink.Destination

/-!
# One piece of work by itself

`Destination.perform` carries out one piece of work for a caller who waits for it up to a limit and
then loses patience. Work that is dropped half-way leaves the destination as it was begun; a
delivery to a backend that was on the way is lost.
-/

set_option autoImplicit false

namespace EventUpload

/-- How an attempt at a piece of work came out for its caller. -/
inductive Attempt where
  | succeeded
  | failed (reason : String)
  /-- The caller lost patience. -/
  | dropped
deriving BEq, DecidableEq, Repr

namespace Destination

def dropWork : Destination → Destination
  | backend w => backend w.abandon
  | d => d

/-- Goes on with work that has its next verdict at `wake`; at most `rounds` verdicts are asked
for. -/
def conclude (work : Work) (limit : Nat) :
    (rounds : Nat) → Destination → Outside → (wake : Nat) → Destination × Outside × Nat × Attempt
  | 0, d, outside, _ => (d.dropWork, outside, limit, .dropped)
  | rounds + 1, d, outside, wake =>
    if limit < wake then (d.dropWork, outside, limit, .dropped)
    else
      let (d, outside, verdict) := d.finish outside work
      -- A verdict is there at `wake`, so that is when the work was over.
      match verdict with
      | .ok => (d, outside, wake, .succeeded)
      | .failed reason => (d, outside, wake, .failed reason)
      | .again pause => conclude work limit rounds d outside (wake + pause)

/-- Carries out a piece of work from `now` until `limit` at the latest; the answer has the instant at
which it was over. A question that is asked again without a pause is answered as often as the
service has answers. -/
def perform (d : Destination) (outside : Outside) (work : Work) (now limit : Nat) :
    Destination × Outside × Nat × Attempt :=
  let (d, outside, time) := d.begin outside work
  match time with
  | none => (d.dropWork, outside, limit, .dropped)
  | some time =>
    conclude work limit (limit - now + outside.service.answers.length + 2) d outside (now + time)

end Destination

end EventUpload
