import EventUpload.Sink.Basic
import EventUpload.Output.Captured

/-!
# Streams

The stream of one invocation numbers its events from one and hands each of them to every sink, in
the order in which the sinks were registered. It is closed by its last event or by hand; captured
output goes before the last event. Closing closes every sink once; afterwards nothing is handed to
any sink. What the sinks answer to being closed is fixed in a snapshot, once for all.
-/

set_option autoImplicit false

namespace EventUpload

/-- A signal in a snapshot: the sink that resolves it, by its place in the stream, and the name of
that sink. -/
structure SnapshotEntry where
  place : Nat
  name : String
deriving DecidableEq, Repr

/-- The signals of all sinks, as they were fixed when their stream was closed. -/
structure Snapshot where
  time : Nat
  /-- The signals for being done. -/
  done : List SnapshotEntry
  /-- The signals for having sent everything. -/
  half : List SnapshotEntry
deriving DecidableEq, Repr

namespace Snapshot

def entries (sinks : List Sink) : List SnapshotEntry :=
  sinks.zipIdx.map fun (s, i) => ⟨i, s.name⟩

def take (now : Nat) (sinks : List Sink) : Snapshot := ⟨now, entries sinks, entries sinks⟩

end Snapshot

/-- The stream of one invocation. -/
structure Stream where
  sinks : List Sink
  /-- The number of the next event. -/
  next : Nat
  listener : Option Listener
  /-- What was fixed when the stream was closed, if it is closed. -/
  snapshot : Option Snapshot
  /-- Why the stream was closed before its last event, if it was. -/
  abort : Option AbortReason

namespace Stream

def new (sinks : List Sink) : Stream := ⟨sinks, 1, none, none, none⟩

def closed (s : Stream) : Bool := s.snapshot.isSome

def names (s : Stream) : List String := s.sinks.map Sink.name

/-- Numbers an event and hands it to every sink. -/
def hand (s : Stream) (e : Event) : Stream :=
  { s with sinks := s.sinks.map (·.accept (e.numbered s.next)), next := s.next + 1 }

def outputEvent (chunk : String × String) : Event :=
  .ofPayload "progress" (.ofMembers [("stdout", .str chunk.1), ("stderr", .str chunk.2)])

/-- Hands over the captured output. -/
def drain (s : Stream) : Stream :=
  match s.listener with
  | none => s
  | some l =>
    let (l, chunks) := l.take
    (chunks.map outputEvent).foldl hand { s with listener := some l }

def shut (s : Stream) (now : Nat) : Stream :=
  { s with sinks := s.sinks.map (·.close now), snapshot := some (.take now s.sinks) }

def post (s : Stream) (now : Nat) (e : Event) : Stream :=
  if s.closed then s
  -- The last event comes after all the output.
  else if e.last then (s.drain.hand e).shut now
  else s.hand e

/-- Closes the stream; with a reason, the sinks get an event that says so. The answer is the snapshot
of the stream, which is a new one only if the stream was open. -/
def close (s : Stream) (now : Nat) (reason : Option AbortReason) : Stream :=
  if s.closed then s
  else
    let s := s.drain
    let s := match reason with
      | some r => { s with abort := some r }.hand r.event
      | none => s
    s.shut now

/-- Hands over the captured output, unless the stream is closed. -/
def flush (s : Stream) : Stream := if s.closed then s else s.drain

def attach (s : Stream) (l : Listener) : Stream := { s with listener := some l }

/-- Captures output; more of it than is to be held back is handed over at once. -/
def write (s : Stream) (channel : OutputChannel) (bytes : List UInt8) : Stream :=
  match s.listener with
  | none => s
  | some l =>
    if s.closed then s
    else
      let l := l.write channel bytes
      let s := { s with listener := some l }
      if l.isFull channel then s.drain else s

/-- How the signals of some entries stand. -/
def outcomes (s : Stream) (signal : Signals → Signal) (entries : List SnapshotEntry) :
    List (String × Signal) :=
  entries.filterMap fun e => s.sinks[e.place]?.map fun k => (e.name, signal k.signals)

/-- The signals for being done; none while the stream is open. -/
def doneMap (s : Stream) : List (String × Signal) :=
  s.outcomes (·.done) (s.snapshot.elim [] (·.done))

def halfMap (s : Stream) : List (String × Signal) :=
  s.outcomes (·.half) (s.snapshot.elim [] (·.half))

def updateSink (s : Stream) (i : Nat) (f : Sink → Sink) : Stream :=
  { s with sinks := s.sinks.modify i f }

def describe (s : Stream) : String :=
  "EventBus \x7b sinks: " ++ Text.quotedList s.names ++ ", finished: "
    ++ (if s.closed then "true" else "false") ++ " \x7d"

end Stream

end EventUpload
