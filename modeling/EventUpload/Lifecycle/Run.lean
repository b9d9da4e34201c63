import EventUpload.Lifecycle.Call
import EventUpload.Sink.Timeline

/-!
# The lifecycle in time

A run is a lifecycle together with the calls that are waiting. At every instant everything that
happens by itself is done, then every call is looked at, in the order in which the calls were made;
when one of them is answered, which may give uploads up, the instant starts over. Once no call is
answered any more the instant is over, and time goes straight to the next instant at which something
is due. A host may lose patience with a call at some instant; the call is then dropped, unless it is
answered at that very instant.
-/

set_option autoImplicit false

namespace EventUpload

/-- What has become of a call that a host made: the answer and its instant, or that it was
dropped. -/
inductive Reply where
  | answer (a : Answer) (time : Nat)
  | dropped (time : Nat)
deriving DecidableEq, Repr

/-- A call that a host is waiting for. -/
inductive Pending where
  | waiting (call : Call) (patience : Option Nat)
  | finished (reply : Reply)
deriving DecidableEq, Repr

def Pending.isWaiting : Pending → Bool
  | waiting .. => true
  | finished _ => false

def Pending.reply? : Pending → Option Reply
  | waiting .. => none
  | finished reply => some reply

/-- A lifecycle and the calls that were made. -/
structure Run where
  lifecycle : Lifecycle
  calls : List Pending

namespace Run

def ofLifecycle (l : Lifecycle) : Run := ⟨l, []⟩

/-- Drops a call with which the host has lost patience. -/
def giveUp (l : Lifecycle) (call : Call) (patience : Option Nat) : Lifecycle × Pending :=
  if patience.any (· ≤ l.now) then (l.drop call, .finished (.dropped l.now))
  else (l, .waiting call patience)

def after (l : Lifecycle) (progress : Progress) (patience : Option Nat) : Lifecycle × Pending :=
  match progress with
  | .answered a => (l, .finished (.answer a l.now))
  | .waiting call => giveUp l call patience

def checkCalls : Lifecycle → List Pending → Lifecycle × List Pending
  | l, [] => (l, [])
  | l, .finished reply :: rest =>
    let (l, rest) := checkCalls l rest
    (l, .finished reply :: rest)
  | l, .waiting call patience :: rest =>
    let (l, progress) := l.check call
    let (l, p) := after l progress patience
    let (l, rest) := checkCalls l rest
    (l, p :: rest)

def waitingCount (r : Run) : Nat := r.calls.countP Pending.isWaiting

/-- Does everything that can be done at this instant, starting over at most `rounds` times. -/
def settleRounds : (rounds : Nat) → Run → Run
  | 0, r => { r with lifecycle := r.lifecycle.settle }
  | rounds + 1, r =>
    let l := r.lifecycle.settle
    let (l, calls) := checkCalls l r.calls
    let next : Run := ⟨l, calls⟩
    -- An answer may have given up uploads that another call is waiting for.
    if next.waitingCount < r.waitingCount then settleRounds rounds next else next

/-- Does everything that can be done at this instant. -/
def settle (r : Run) : Run := settleRounds (r.waitingCount + 1) r

def endInstant : Lifecycle → List Pending → Lifecycle × List Pending
  | l, [] => (l, [])
  | l, .finished reply :: rest =>
    let (l, rest) := endInstant l rest
    (l, .finished reply :: rest)
  | l, .waiting call patience :: rest =>
    let (l, call) := l.endInstant call
    let (l, rest) := endInstant l rest
    (l, .waiting call patience :: rest)

def dueInstants (r : Run) : List Nat :=
  r.lifecycle.dueInstants ++ r.calls.flatMap fun
    | .waiting call patience => patience.toList ++ call.dueInstants
    | .finished _ => []

def leaveInstant (r : Run) : Run :=
  let (l, calls) := endInstant r.lifecycle r.calls
  ⟨l, calls⟩

def atInstant (r : Run) (t : Nat) : Run := { r with lifecycle := { r.lifecycle with now := t } }

/-- Goes on for at most `moves` instants. -/
def go (horizon : Nat) (wish : Run → Bool) : (moves : Nat) → Run → Run
  | 0, r => r.settle
  | moves + 1, r =>
    let r := r.settle
    if wish r then r
    else
      let later := r.leaveInstant
      -- Without anything due the run goes straight to its horizon.
      let t := ((nextInstant? later.lifecycle.now later.dueInstants).getD horizon).min horizon
      if r.lifecycle.now < t then go horizon wish moves (later.atInstant t) else r

/-- Lets time pass up to a horizon or until a wish is fulfilled. Every move takes at least one
millisecond. -/
def reach (r : Run) (horizon : Nat) (wish : Run → Bool) : Run :=
  go horizon wish (horizon - r.lifecycle.now) r

/-- The last instant at which a waiting call can be answered. -/
def limit : Pending → Nat
  | .waiting call _ => call.deadline
  | .finished _ => 0

/-- Makes a call; it is looked at before anything else happens at this instant. -/
def call (r : Run) (operation : Lifecycle → Lifecycle × Progress) (patience : Option Nat) : Run :=
  let (l, progress) := operation r.lifecycle
  let (l, p) := after l progress patience
  ⟨l, r.calls ++ [p]⟩

/-- Lets time pass until every call is over. -/
def await (r : Run) : Run :=
  let horizon := (r.calls.map limit).foldl max r.lifecycle.now
  r.reach horizon fun r => r.waitingCount = 0

/-- Makes a call by itself and waits for its reply. -/
def perform (l : Lifecycle) (operation : Lifecycle → Lifecycle × Progress)
    (patience : Option Nat) : Lifecycle × Reply :=
  let r := ((ofLifecycle l).call operation patience)
  let r := if r.waitingCount = 0 then r else r.await
  let reply := (r.calls.head?.bind Pending.reply?).getD (.dropped r.lifecycle.now)
  (r.lifecycle, reply)

/-- Lets time pass while no call is waiting. -/
def pass (l : Lifecycle) (span : Nat) : Lifecycle :=
  ((ofLifecycle l).reach (l.now + span) fun _ => false).lifecycle

end Run

end EventUpload
