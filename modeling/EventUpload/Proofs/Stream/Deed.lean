import EventUpload.Proofs.Sink.Onward

/-!
# What is done to a stream

A `StreamDeed` is one thing that is done to a stream, by its host or to one of its sinks from outside.
Whatever it is, it comes to the same for every sink: some events are handed over, then the sink may be
closed. `StreamDeed.calls` is that list, which does not depend on the sinks, and `StreamDeed.apply_eq`
says that it is all that a deed asks of any of them.

A stream hands events over one at a time, and between two of them it takes a number, changes its
listener, looks whether it is closed. `apply_eq` takes this apart by fields: the sinks after a deed, the
next number, the listener, the reason for which it was aborted, each as a function of the stream before.
Proofs about what sinks get, about output that is held and about closing then look at one field each,
and none of them looks at what a deed does in detail.

Of the deeds `resolve` is the odd one. It reaches a single sink and asks nothing of it: that is
`StreamDeed.touch`, which is the identity for all the others. Attaching a listener is a deed as well,
but it throws away what the listener before has held, so theorems about output ask that there be none.
-/

set_option autoImplicit false

namespace EventUpload

open List (Forall₂)

/-- What is done to the stream of an invocation: by its host, or to a sink from outside. -/
inductive StreamDeed where
  | post (e : Event)
  | attach (listener : Listener)
  | write (channel : OutputChannel) (bytes : List UInt8)
  | flush
  | close (reason : Option AbortReason)
  | resolve (sink : Nat) (half : Bool) (outcome : Outcome)

/-- The stream after the deed. -/
def StreamDeed.apply (s : Stream) (now : Nat) : StreamDeed → Stream
  | post e => s.post now e
  | attach listener => s.attach listener
  | write channel bytes => s.write channel bytes
  | flush => s.flush
  | close reason => s.close now reason
  | resolve sink half outcome => s.updateSink sink (·.resolve half outcome)

theorem StreamDeed.onward (d : StreamDeed) (s : Stream) (now : Nat) :
    Forall₂ Sink.Onward s.sinks (d.apply s now).sinks := by
  cases d with
  | post e => exact s.onward_post now e
  | attach listener => exact Sink.forall₂_onward_refl _
  | write channel bytes => exact s.onward_write channel bytes
  | flush => exact s.onward_flush
  | close reason => exact s.onward_close now reason
  | resolve sink half outcome => exact s.onward_updateSink (fun k => k.onward_resolve half outcome) sink

/-! ## Calls to a sink

What may be asked of a sink, as data, so that it can be said what a deed asks for. -/

/-- What a stream asks of a sink. -/
inductive SinkCall where
  | accept (e : Event)
  | close (now : Nat)
deriving Repr

/-- The sink after it was asked. -/
def Sink.obey (s : Sink) : SinkCall → Sink
  | .accept e => s.accept e
  | .close now => s.close now

/-- The sink after it was asked for one thing after the other. -/
def Sink.obeyAll (s : Sink) (calls : List SinkCall) : Sink := calls.foldl Sink.obey s

theorem Sink.obeyAll_append (s : Sink) (calls more : List SinkCall) :
    s.obeyAll (calls ++ more) = (s.obeyAll calls).obeyAll more := List.foldl_append

@[simp] theorem Sink.obeyAll_nil (s : Sink) : s.obeyAll [] = s := rfl

theorem Sink.name_obeyAll (s : Sink) (calls : List SinkCall) : (s.obeyAll calls).name = s.name := by
  induction calls generalizing s with
  | nil => rfl
  | cons call calls ih =>
    refine (ih (s.obey call)).trans ?_
    cases call with
    | accept e => exact congrArg Prod.fst (s.onward_accept e).shape
    | close now => exact congrArg Prod.fst (s.onward_close now).shape

/-- Events with their numbers, the first of which is given. -/
def numberedFrom : Nat → List Event → List Event
  | _, [] => []
  | n, e :: es => e.numbered n :: numberedFrom (n + 1) es

theorem length_numberedFrom (n : Nat) (es : List Event) :
    (numberedFrom n es).length = es.length := by
  induction es generalizing n with
  | nil => rfl
  | cons e es ih => simp [numberedFrom, ih]

theorem sequence_numberedFrom (n : Nat) (es : List Event) :
    (numberedFrom n es).map (·.sequence) = List.range' n es.length := by
  induction es generalizing n with
  | nil => rfl
  | cons e es ih =>
    simp only [numberedFrom, List.map_cons, ih, List.length_cons, List.range'_succ]
    rfl

/-- Numbering an event does not make it the last one. -/
theorem last_numberedFrom (n : Nat) (es : List Event) :
    (numberedFrom n es).map (·.last) = es.map (·.last) := by
  induction es generalizing n with
  | nil => rfl
  | cons e es ih =>
    simp only [numberedFrom, List.map_cons, ih]
    rfl

/-- A snapshot only has the names of the sinks. -/
theorem Snapshot.entries_map {f : Sink → Sink} (h : ∀ s, (f s).name = s.name) (sinks : List Sink) :
    entries (sinks.map f) = entries sinks := by
  simp only [entries, List.zipIdx_map, List.map_map]
  exact List.map_congr_left fun p _ => congrArg (SnapshotEntry.mk p.2) (h p.1)

/-! ## Handing over

Events are numbered as they are handed over, and every sink is asked to accept each of them. -/

namespace Stream

/-- What a stream would hand over of the captured output. -/
def outputEvents (s : Stream) : List Event :=
  (s.listener.elim [] fun l => l.take.2).map outputEvent

theorem foldl_hand (es : List Event) (s : Stream) : es.foldl hand s =
    { s with
      sinks := s.sinks.map (·.obeyAll ((numberedFrom s.next es).map .accept))
      next := s.next + es.length } := by
  induction es generalizing s with
  | nil =>
    obtain ⟨sinks, next, listener, snapshot, abort⟩ := s
    simp [numberedFrom]
  | cons e es ih =>
    rw [List.foldl_cons, ih]
    simp only [hand, List.map_map, numberedFrom, List.map_cons, List.length_cons, Nat.add_assoc,
      Nat.add_comm 1]
    rfl

theorem drain_eq (s : Stream) : s.drain =
    s.outputEvents.foldl hand { s with listener := s.listener.map fun l => l.take.1 } := by
  obtain ⟨sinks, next, listener, snapshot, abort⟩ := s
  cases listener <;> rfl

/-- Why a stream was aborted matters to nothing that is handed over. -/
theorem foldl_hand_abort (es : List Event) (s : Stream) (abort : Option AbortReason) :
    es.foldl hand { s with abort := abort } = { es.foldl hand s with abort := abort } := by
  rw [foldl_hand, foldl_hand]

theorem closed_close (s : Stream) (now : Nat) (reason : Option AbortReason) :
    (s.close now reason).closed = true := by
  rw [Stream.close]
  split
  · assumption
  · rfl

theorem hand_eq_foldl (s : Stream) (e : Event) : s.hand e = [e].foldl hand s := rfl

end Stream

/-! ## Deeds

A deed is described by what it adds: events, a closing, a change of the listener and of the reason. -/

namespace StreamDeed

variable (s : Stream) (now : Nat) (d : StreamDeed)

/-- The events that a deed hands to every sink, without their numbers. -/
def events : StreamDeed → List Event
  | post e =>
    if s.closed then [] else if e.last then s.outputEvents ++ [e] else [e]
  | write channel bytes =>
    match s.listener with
    | none => []
    | some l =>
      if !s.closed && (l.write channel bytes).isFull channel then
        (l.write channel bytes).take.2.map Stream.outputEvent
      else []
  | flush => if s.closed then [] else s.outputEvents
  | close reason =>
    if s.closed then [] else s.outputEvents ++ reason.toList.map AbortReason.event
  | attach _ | resolve .. => []

/-- Whether a deed closes the stream. -/
def closes : StreamDeed → Bool
  | post e => !s.closed && e.last
  | close _ => !s.closed
  | write .. | flush | attach _ | resolve .. => false

/-- What a deed asks of every sink. -/
def calls : List SinkCall :=
  (numberedFrom s.next (d.events s)).map .accept ++ if d.closes s then [.close now] else []

/-- What a deed does to single sinks without asking them. -/
def touch : StreamDeed → List Sink → List Sink
  | resolve sink half outcome, sinks => sinks.modify sink (·.resolve half outcome)
  | post _, sinks | attach _, sinks | write .., sinks | flush, sinks | close _, sinks => sinks

/-- The listener after a deed. -/
def listener : Option Listener :=
  match d with
  | attach l => some l
  | write channel bytes =>
    s.listener.map fun l =>
      if s.closed then l
      else if (l.write channel bytes).isFull channel then (l.write channel bytes).take.1
      else l.write channel bytes
  | post _ => if d.closes s then s.listener.map fun l => l.take.1 else s.listener
  | flush | close _ => if s.closed then s.listener else s.listener.map fun l => l.take.1
  | resolve .. => s.listener

/-- The reason for which a stream is aborted, after a deed. -/
def abort : Option AbortReason :=
  match d with
  | close (some r) => if s.closed then s.abort else some r
  | post _ | attach _ | write .. | flush | close none | resolve .. => s.abort

/-- A stream after something was handed over, and perhaps closed. -/
theorem shut_foldl_hand (es : List Event) : (es.foldl Stream.hand s).shut now =
    { s with
      sinks := s.sinks.map
        (·.obeyAll ((numberedFrom s.next es).map SinkCall.accept ++ [.close now]))
      next := s.next + es.length
      snapshot := some (.take now s.sinks) } := by
  rw [Stream.foldl_hand, Stream.shut]
  simp only [List.map_map, Snapshot.take, Snapshot.entries_map fun k => Sink.name_obeyAll k _]
  refine congrArg (fun sinks => Stream.mk sinks _ _ _ _) (List.map_congr_left fun k _ => ?_)
  simp only [Function.comp_apply, Sink.obeyAll_append]
  rfl

/-- **What a deed does to a stream**, in terms of what it hands over. -/
theorem apply_eq : d.apply s now =
    { sinks := d.touch (s.sinks.map (·.obeyAll (d.calls s now)))
      next := s.next + (d.events s).length
      listener := d.listener s
      snapshot := if d.closes s then some (.take now s.sinks) else s.snapshot
      abort := d.abort s } := by
  -- One case for each deed. The stream may be closed already, and the deed may close it; otherwise the
  -- two sides compute to the same.
  obtain ⟨sinks, next, listener, snapshot, abort⟩ := s
  cases d with
  | attach l =>
    simp [apply, Stream.attach, touch, calls, events, closes, StreamDeed.listener,
      StreamDeed.abort, numberedFrom]
  | resolve sink half outcome =>
    simp [apply, Stream.updateSink, touch, calls, events, closes, StreamDeed.listener,
      StreamDeed.abort, numberedFrom]
  | flush =>
    simp only [apply, Stream.flush, calls, events, closes, touch, StreamDeed.listener,
      StreamDeed.abort]
    split
    · simp [numberedFrom]
    · simp [Stream.drain_eq, Stream.foldl_hand]
  | write channel bytes =>
    simp only [apply, Stream.write, calls, events, closes, touch, StreamDeed.listener,
      StreamDeed.abort]
    cases listener with
    | none => simp [numberedFrom]
    | some l =>
      by_cases hc : Stream.closed ⟨sinks, next, some l, snapshot, abort⟩ = true
      · simp [numberedFrom, hc]
      · by_cases hf : (l.write channel bytes).isFull channel = true
        · simp [hc, hf, Stream.drain_eq, Stream.foldl_hand, Stream.outputEvents]
        · simp [hc, hf, numberedFrom]
  | post e =>
    simp only [apply, Stream.post, calls, events, closes, touch, StreamDeed.listener,
      StreamDeed.abort]
    by_cases hc : Stream.closed ⟨sinks, next, listener, snapshot, abort⟩ = true
    · simp [numberedFrom, hc]
    · by_cases hl : e.last = true
      · simp only [Stream.hand_eq_foldl, Stream.drain_eq, ← List.foldl_append, shut_foldl_hand]
        simp [hc, hl]
      · simp only [Stream.hand_eq_foldl, Stream.foldl_hand]
        simp [hc, hl]
  | close reason =>
    simp only [apply, Stream.close, calls, events, closes, touch, StreamDeed.listener]
    by_cases hc : Stream.closed ⟨sinks, next, listener, snapshot, abort⟩ = true
    · cases reason <;> simp [numberedFrom, hc, StreamDeed.abort]
    · cases reason with
      | none => simp [hc, Stream.drain_eq, shut_foldl_hand, StreamDeed.abort]
      | some r =>
        simp only [Stream.drain_eq, ← Stream.foldl_hand_abort, Stream.hand_eq_foldl,
          ← List.foldl_append, shut_foldl_hand]
        simp [hc, StreamDeed.abort]

/-! ### When the stream is closed -/

variable {s d}

theorem events_of_closed (h : s.closed = true) (d : StreamDeed) : d.events s = [] := by
  cases d with
  | write channel bytes => cases hl : s.listener <;> simp [events, hl, h]
  | _ => simp [events, h]

theorem closes_of_closed (h : s.closed = true) (d : StreamDeed) : d.closes s = false := by
  cases d <;> simp [closes, h]

end StreamDeed

end EventUpload
