import EventUpload.Stream
import EventUpload.Report
import EventUpload.Message

/-!
# The state of the lifecycle

A lifecycle has every invocation that was ever started, at most one of which is active, and at most
one of which is pending: its uploads were published when it ended and are not settled yet. An
invocation is published at most once, so it stands for its published uploads. Uploads leave the
pending place by being retired, once; retiring may give them up as well. A journal has every move in
and out of the pending place.

Sinks that were offered to a start that was refused are let go: they are closed, and nobody waits
for what they still do.

Behind an invocation that did not wait for its uploads runs a drain, which retires them when all are
done and tells the user about failures, unless somebody else retired them before.
-/

set_option autoImplicit false

namespace EventUpload

/-- One invocation: its identifiers, its stream of events, and how its end waits for the sinks. -/
structure Invocation where
  ids : CommandIds
  stream : Stream
  mode : UploadMode

namespace Invocation

def sinks (i : Invocation) : List Sink := i.stream.sinks

def withSinks (i : Invocation) (sinks : List Sink) : Invocation :=
  { i with stream := { i.stream with sinks := sinks } }

def outcomes (i : Invocation) : List (String × Option Outcome) :=
  i.sinks.map fun s => (s.name, s.seen.done)

/-- The signals that the next invocation waits for. -/
def awaited (i : Invocation) : List Signal :=
  i.sinks.map fun s => match i.mode with
    | .fullyAsync => s.seen.half
    | _ => s.seen.done

def allDone (i : Invocation) : Bool := i.sinks.all fun s => s.seen.done.isSome

def errors (i : Invocation) : List SinkError :=
  i.sinks.filterMap fun s => s.seen.done.bind Outcome.error?

end Invocation

/-- Who retires uploads. -/
inductive Retirer where
  /-- The wait at the end of a blocking invocation. -/
  | wait
  | drain
  /-- The wait before the next invocation. -/
  | newcomer
  /-- The wait at the end of the process. -/
  | ending
deriving DecidableEq, Repr

/-- A move in or out of the pending place. -/
inductive Move where
  | published (index : Nat)
  /-- Somebody retired the uploads of an invocation; `cleared` says whether they were still pending. -/
  | retired (index : Nat) (who : Retirer) (cleared : Bool)
deriving DecidableEq, Repr

/-- The state of the lifecycle at an instant. -/
structure Lifecycle where
  now : Nat
  limits : Limits
  phase : Phase
  /-- Every invocation that was started. -/
  invocations : List Invocation
  active : Option Nat
  pending : Option Nat
  /-- The moves in and out of the pending place, in order. -/
  journal : List Move
  /-- The invocations with a drain. -/
  drains : List Nat
  /-- The sinks that were let go. -/
  strays : List Sink
  outside : Outside
  log : List Posted

namespace Lifecycle

def new (limits : Limits) (outside : Outside) : Lifecycle :=
  ⟨0, limits, .idle, [], none, none, [], [], [], outside, []⟩

/-! ## Posts -/

def tell (l : Lifecycle) (whom : Addressee) (post : Post) : Lifecycle :=
  { l with log := l.log ++ [⟨l.now, whom, post⟩] }

def say (l : Lifecycle) (whom : Addressee) (kind : MessageKind) (text : String) : Lifecycle :=
  l.tell whom (.message ⟨kind, text⟩)

def sayAll (l : Lifecycle) (whom : Addressee) (kind : MessageKind) (texts : List String) :
    Lifecycle :=
  texts.foldl (fun l text => l.say whom kind text) l

def note (l : Lifecycle) (whom : Addressee) (r : Remark) : Lifecycle := l.tell whom (.remark r)

/-- Posts the errors of transmissions, each with a remark. -/
def sayErrors (l : Lifecycle) (whom : Addressee) (errors : List SinkError) : Lifecycle :=
  errors.foldl (fun l e => (l.note whom (.sinkFailed e)).say whom .error e.message) l

/-! ## Invocations -/

def invocation? (l : Lifecycle) (i : Nat) : Option Invocation := l.invocations[i]?

def update (l : Lifecycle) (i : Nat) (f : Invocation → Invocation) : Lifecycle :=
  { l with invocations := l.invocations.modify i f }

def updateStream (l : Lifecycle) (i : Nat) (f : Stream → Stream) : Lifecycle :=
  l.update i fun v => { v with stream := f v.stream }

/-- The invocation with pending uploads, if it has any sink. -/
def outstanding? (l : Lifecycle) : Option (Nat × Invocation) := do
  let i ← l.pending
  let v ← l.invocation? i
  if v.sinks.isEmpty then none else some (i, v)

/-- Makes the uploads of an invocation the pending ones. The bounds of its sinks count from now. -/
def publish (l : Lifecycle) (i : Nat) (mode : UploadMode) : Lifecycle :=
  let watched := fun (v : Invocation) =>
    { v with mode := mode }.withSinks (v.sinks.map (Sink.startWatch · l.now))
  { l.update i watched with pending := some i, journal := l.journal ++ [.published i] }

/-- Does something to sinks that may reach outside. -/
def overSinks (f : Sink → Outside → Sink × Outside) :
    List Sink → Outside → List Sink × Outside
  | [], outside => ([], outside)
  | s :: rest, outside =>
    let (s, outside) := f s outside
    let (rest, outside) := overSinks f rest outside
    (s :: rest, outside)

def giveUp (l : Lifecycle) (i : Nat) : Lifecycle :=
  match l.invocation? i with
  | none => l
  | some v =>
    let (sinks, outside) := overSinks Sink.giveUp v.sinks l.outside
    { l.update i (·.withSinks sinks) with outside := outside }

def isPending (l : Lifecycle) (i : Nat) : Bool := l.pending = some i

/-- Makes sure that the uploads of an invocation are no longer pending, and gives them up if told
so. -/
def retire (l : Lifecycle) (i : Nat) (who : Retirer) (cancel : Bool) : Lifecycle :=
  let cleared := l.isPending i
  let l := { l with
    pending := if cleared then none else l.pending
    journal := l.journal ++ [.retired i who cleared] }
  if cancel then l.giveUp i else l

/-! ## What happens by itself -/

/-- Settles sinks one after the other at an instant. -/
def settleSinks (now : Nat) : List Sink → Outside → List Sink × Outside × List SinkError
  | [], outside => ([], outside, [])
  | s :: rest, outside =>
    let (s, outside, errors) := s.settle outside now
    let (rest, outside, more) := settleSinks now rest outside
    (s :: rest, outside, errors ++ more)

/-- Settles the sinks of an invocation; every sink reports its own errors. -/
def settleInvocation (l : Lifecycle) (i : Nat) : Lifecycle :=
  match l.invocation? i with
  | none => l
  | some v =>
    let (sinks, outside, errors) := settleSinks l.now v.sinks l.outside
    { l.update i (·.withSinks sinks) with outside := outside }.sayErrors (.invocation i) errors

def settleStrays (l : Lifecycle) : Lifecycle :=
  let (sinks, outside, errors) := settleSinks l.now l.strays l.outside
  { l with strays := sinks, outside := outside }.sayErrors .newcomer errors

/-- The warnings about uploads that failed; a sink warns about its own transmissions itself. -/
def closeWarnings (errors : List SinkError) : List String :=
  (errors.filter (!·.isTransmission)).map SinkError.message

/-- Ends the drain of an invocation whose uploads are all done. It is silent if somebody else has
retired them, and about what was cancelled. -/
def endDrain (l : Lifecycle) (i : Nat) (v : Invocation) : Lifecycle :=
  -- Asked before it retires them itself.
  let pending := l.isPending i
  let l := { l with drains := l.drains.filter (· ≠ i) }.retire i .drain false
  if pending then
    (v.errors.filter (!·.isCancelled)).foldl (fun l e =>
      (l.note (.invocation i) (.drainFailed e)).sayAll (.invocation i) .warning (closeWarnings [e])) l
  else l

/-- Looks after a drain. -/
def settleDrain (l : Lifecycle) (i : Nat) : Lifecycle :=
  match l.invocation? i with
  | some v => if v.allDone then l.endDrain i v else l
  | none => l

/-- Does everything that happens by itself at this instant: first the sinks, then the drains. -/
def settle (l : Lifecycle) : Lifecycle :=
  let l := ((List.range l.invocations.length).foldl settleInvocation l).settleStrays
  l.drains.foldl settleDrain l

def dueInstants (l : Lifecycle) : List Nat :=
  (l.invocations.flatMap Invocation.sinks ++ l.strays).flatMap Sink.dueInstants

/-- What is left outside when the process is gone. -/
def release (l : Lifecycle) : Outside :=
  (l.invocations.flatMap Invocation.sinks ++ l.strays).foldl (fun outside s => s.release outside)
    l.outside

end Lifecycle

end EventUpload
