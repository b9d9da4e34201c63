import EventUpload.Proofs.Output.Taking
import EventUpload.Proofs.Stream.Fanout

/-!
# What becomes of captured output

Whoever runs a command writes its output to a stream in pieces that may end anywhere, also inside a
character, and the stream hands it over in pieces of its own whenever one of the two channels is full,
when it is flushed, and before it closes. If what is written to a channel while the stream is open is
the bytes of a text, cut short or not, the texts of that channel in the events put together are what
those bytes amount to, whatever else happens to the stream: `Stream.output_conveyed`.

One turn after the other, what was held of a channel and what is written to it is handed over as text or
held (`Stream.HandsOn`); that what is handed over is whole characters is the business of
`Listener.take_keeps`. A channel is followed by itself. The other one only has a say in when something
is taken, and that is why nothing needs to be known of its bytes: they may be no text at all.

The texts are found again in the events that sinks are asked to accept, not in the listener. `captured`
are those events, picked out by the turn that hands them over, and `Event.outputText` reads the member
of the payload that has the name of the channel. A host may post events with members of the same names;
these are not captured output and are not among them.

The stream is closed in the theorem, because until then something may be held. What the texts do not
have is a character whose end was never written. `Conveys.whole` puts this the other way: if whole
characters were written, nothing is missing.
-/

set_option autoImplicit false

namespace EventUpload

/-! ## The texts of an event

A member that is missing and one with an empty text are read alike, as there is no difference between
output of one channel and output of both of which one is empty. -/

/-- The member of a payload that has the text of a channel. -/
def OutputChannel.member : OutputChannel → String
  | .out => "stdout"
  | .err => "stderr"

/-- The text of a channel in an event; empty if there is none. -/
def Event.outputText (e : Event) (channel : OutputChannel) : String :=
  match e.payload.member? channel.member with
  | some (.str text) => text
  | _ => ""

theorem Stream.outputText_outputEvent (pair : String × String) (channel : OutputChannel) :
    (outputEvent pair).outputText channel = channel.part pair := by
  have hlt : "stderr" < "stdout" := by decide
  have hmembers : (outputEvent pair).payload =
      .obj [("stderr", .str pair.2), ("stdout", .str pair.1)] := by
    simp [outputEvent, Event.ofPayload, Json.ofMembers, Json.insertMember, hlt]
  cases channel <;> rw [Event.outputText, hmembers] <;> rfl

/-- Numbering events leaves alone whatever does not look at their numbers. -/
theorem map_numberedFrom {α : Type} (f : Event → α) (hf : ∀ e n, f (e.numbered n) = f e) (n : Nat)
    (es : List Event) : (numberedFrom n es).map f = es.map f := by
  induction es generalizing n with
  | nil => rfl
  | cons e es ih => rw [numberedFrom, List.map_cons, ih, hf, List.map_cons]

/-! ## Output of a deed and of a turn

A deed may hand over captured output before an event of its own, and no deed does it the other way
round. -/

namespace Stream

/-- What a stream holds of a channel. -/
def held (s : Stream) (channel : OutputChannel) : List UInt8 :=
  s.listener.elim [] (·.held channel)

/-- The pairs of texts that a stream would take of its captured output. -/
def taken (s : Stream) : List (String × String) := s.listener.elim [] (·.take.2)

end Stream

namespace StreamDeed

variable (s : Stream)

/-- The captured output that a deed hands over, as the two texts of each event. -/
def output : StreamDeed → List (String × String)
  | post e => if !s.closed && e.last then s.taken else []
  | write channel bytes =>
    match s.listener with
    | none => []
    | some l =>
      if !s.closed && (l.write channel bytes).isFull channel then (l.write channel bytes).take.2
      else []
  | flush | close _ => if s.closed then [] else s.taken
  | attach _ | resolve .. => []

/-- The event that a deed hands over besides captured output. -/
def own : StreamDeed → Option Event
  | post e => if s.closed then none else some e
  | close reason => if s.closed then none else reason.map AbortReason.event
  | attach _ | write .. | flush | resolve .. => none

/-- The bytes that a deed writes to a channel of an open stream. -/
def written (channel : OutputChannel) : StreamDeed → List UInt8
  | write c bytes => if s.closed = false ∧ c = channel then bytes else []
  | post _ | attach _ | flush | close _ | resolve .. => []

/-- A deed hands over captured output, and then perhaps an event of its own. -/
theorem events_eq (d : StreamDeed) :
    d.events s = (d.output s).map Stream.outputEvent ++ (d.own s).toList := by
  cases d with
  | post e =>
    simp only [events, output, own]
    cases s.closed <;> cases e.last <;> simp [Stream.outputEvents, Stream.taken]
  | write channel bytes =>
    simp only [events, output, own]
    cases s.listener with
    | none => rfl
    | some l =>
      simp only
      split <;> simp
  | flush =>
    simp only [events, output, own]
    cases s.closed <;> simp [Stream.outputEvents, Stream.taken]
  | close reason =>
    simp only [events, output, own]
    cases s.closed <;> cases reason <;> simp [Stream.outputEvents, Stream.taken]
  | attach l => rfl
  | resolve sink half outcome => rfl

variable {s}

/-- No output event is empty on both channels. -/
theorem ne_empty_of_mem_output {d : StreamDeed} {pair : String × String} (h : pair ∈ d.output s) :
    pair.1 ≠ "" ∨ pair.2 ≠ "" := by
  have htaken (h : pair ∈ s.taken) : pair.1 ≠ "" ∨ pair.2 ≠ "" := by
    rw [Stream.taken] at h
    cases hl : s.listener with
    | none => exact absurd (hl ▸ h) (by simp)
    | some l => exact Listener.ne_empty_of_mem_take (by simpa [hl] using h)
  cases d with
  | post e =>
    simp only [output] at h
    split at h
    · exact htaken h
    · exact absurd h (by simp)
  | write channel bytes =>
    simp only [output] at h
    split at h
    · exact absurd h (by simp)
    · split at h
      · exact Listener.ne_empty_of_mem_take h
      · exact absurd h (by simp)
  | flush =>
    simp only [output] at h
    split at h
    · exact absurd h (by simp)
    · exact htaken h
  | close reason =>
    simp only [output] at h
    split at h
    · exact absurd h (by simp)
    · exact htaken h
  | attach l => exact absurd h (by simp [output])
  | resolve sink half outcome => exact absurd h (by simp [output])

end StreamDeed

namespace StreamTurn

variable (s : Stream)

/-- Whether a turn puts another listener in the place of the one that is there. -/
def attaches : StreamTurn → Bool
  | deed _ (.attach _) => true
  | _ => false

def output : StreamTurn → List (String × String)
  | deed _ d => d.output s
  | sink .. => []

def written (channel : OutputChannel) : StreamTurn → List UInt8
  | deed _ d => d.written s channel
  | sink .. => []

/-- The events with captured output that a turn hands over; they come first. -/
def captured (t : StreamTurn) : List Event := numberedFrom s.next ((t.output s).map Stream.outputEvent)

end StreamTurn

namespace Stream

/-- The events with captured output that are handed over in some turns. -/
def captured (s : Stream) : List StreamTurn → List Event
  | [] => []
  | t :: turns => t.captured s ++ captured (t.apply s) turns

/-- What is written to a channel in some turns, while the stream is open. -/
def written (s : Stream) (channel : OutputChannel) : List StreamTurn → List UInt8
  | [] => []
  | t :: turns => t.written s channel ++ written (t.apply s) channel turns

/-- The texts of a channel that are handed over in some turns, put together. -/
def conveyed (s : Stream) (channel : OutputChannel) (turns : List StreamTurn) : String :=
  String.join ((s.captured turns).map (·.outputText channel))

theorem conveyed_cons (s : Stream) (channel : OutputChannel) (t : StreamTurn)
    (turns : List StreamTurn) : s.conveyed channel (t :: turns) =
      String.join ((t.output s).map channel.part) ++ (t.apply s).conveyed channel turns := by
  have houtput : (t.captured s).map (·.outputText channel) = (t.output s).map channel.part := by
    rw [StreamTurn.captured, map_numberedFrom _ fun e n => rfl, List.map_map]
    exact List.map_congr_left fun pair _ => outputText_outputEvent pair channel
  rw [conveyed, captured, List.map_append, String.join_append, houtput]
  rfl

/-! ## The events

Events are numbered when they are handed over. What is read off their payloads does not depend on it. -/

variable {s : Stream}

theorem numberedFrom_append (n : Nat) (es fs : List Event) :
    numberedFrom n (es ++ fs) = numberedFrom n es ++ numberedFrom (n + es.length) fs := by
  induction es generalizing n with
  | nil => rfl
  | cons e es ih => simp [numberedFrom, ih, Nat.add_assoc, Nat.add_comm 1]

/-- Every sink is asked to accept the events with captured output, among others. -/
theorem captured_sublist (s : Stream) (turns : List StreamTurn) :
    ((s.captured turns).map SinkCall.accept).Sublist (s.asked turns) := by
  induction turns generalizing s with
  | nil => exact .slnil
  | cons t turns ih =>
    rw [captured, List.map_append, asked]
    refine List.Sublist.append ?_ (ih _)
    cases t with
    | deed now d =>
      rw [StreamTurn.calls, StreamDeed.calls, d.events_eq, numberedFrom_append, List.map_append,
        List.append_assoc]
      exact List.sublist_append_left _ _
    | sink place change => exact .slnil

/-- The events with captured output of a turn have numbers of that turn. -/
theorem sequence_of_mem_captured {t : StreamTurn} {e : Event} (h : e ∈ t.captured s) :
    s.next ≤ e.sequence ∧ e.sequence < (t.apply s).next := by
  cases t with
  | deed now d =>
    have hmem : e.sequence ∈ (numberedFrom s.next ((d.output s).map outputEvent)).map (·.sequence) :=
      List.mem_map_of_mem h
    rw [sequence_numberedFrom, List.mem_range'_1] at hmem
    have hlength : ((d.output s).map outputEvent).length ≤ (d.events s).length := by
      rw [d.events_eq, List.length_append]
      exact Nat.le_add_right _ _
    have hnext : (d.apply s now).next = s.next + (d.events s).length := by rw [d.apply_eq]
    refine ⟨hmem.1, Nat.lt_of_lt_of_le hmem.2 ?_⟩
    rw [StreamTurn.apply, hnext]
    exact Nat.add_le_add_left hlength _
  | sink place change => exact absurd h (by simp [StreamTurn.captured, StreamTurn.output, numberedFrom])

theorem next_le_apply (s : Stream) (t : StreamTurn) : s.next ≤ (t.apply s).next := by
  cases t with
  | deed now d =>
    rw [StreamTurn.apply, d.apply_eq]
    exact Nat.le_add_right _ _
  | sink place change => exact Nat.le_refl _

theorem next_le_of_mem_captured {turns : List StreamTurn} {e : Event} (h : e ∈ s.captured turns) :
    s.next ≤ e.sequence := by
  induction turns generalizing s with
  | nil => exact absurd h (by simp [captured])
  | cons t turns ih =>
    rcases List.mem_append.mp h with h | h
    · exact (sequence_of_mem_captured h).1
    · exact Nat.le_trans (s.next_le_apply t) (ih h)

/-- The events with captured output come in the order of their numbers. -/
theorem pairwise_captured (s : Stream) (turns : List StreamTurn) :
    (s.captured turns).Pairwise fun e f => e.sequence < f.sequence := by
  induction turns generalizing s with
  | nil => exact .nil
  | cons t turns ih =>
    refine List.pairwise_append.mpr ⟨?_, ih _, fun e he f hf => ?_⟩
    · have hnumbers : ((t.captured s).map (·.sequence)).Pairwise (· < ·) := by
        rw [StreamTurn.captured, sequence_numberedFrom]
        exact List.pairwise_lt_range'
      exact List.pairwise_map.mp hnumbers
    · exact Nat.lt_of_lt_of_le (sequence_of_mem_captured he).2 (next_le_of_mem_captured hf)

theorem ne_empty_of_mem_captured {turns : List StreamTurn} {e : Event}
    (h : e ∈ s.captured turns) : e.kind = "progress" ∧ ∃ channel, e.outputText channel ≠ "" := by
  induction turns generalizing s with
  | nil => exact absurd h (by simp [captured])
  | cons t turns ih =>
    rcases List.mem_append.mp h with h | h
    · cases t with
      | sink place change =>
        exact absurd h (by simp [StreamTurn.captured, StreamTurn.output, numberedFrom])
      | deed now d =>
        have hmem := List.mem_map_of_mem (f := fun e => (e.kind, e.outputText)) h
        rw [StreamTurn.captured, map_numberedFrom _ fun e n => rfl, List.map_map] at hmem
        obtain ⟨pair, hpair, heq⟩ := List.mem_map.mp hmem
        obtain ⟨hkind, htext⟩ := Prod.mk.inj heq
        refine ⟨hkind.symm, ?_⟩
        rw [← htext]
        rcases StreamDeed.ne_empty_of_mem_output hpair with h | h
        · exact ⟨.out, by rw [outputText_outputEvent]; exact h⟩
        · exact ⟨.err, by rw [outputText_outputEvent]; exact h⟩
    · exact ih h

/-! ## What is handed on

The account of one channel: what was held and what is written is what is handed over and what is held
afterwards. It is kept through deeds that do nothing to the channel as well. -/

/-- From one state of a stream to a later one, what was held of a channel and what was written to it
is handed over as a text or held. A stream that was closed meanwhile holds no whole character. -/
structure HandsOn (s s' : Stream) (channel : OutputChannel) (bytes : List UInt8) (text : String) :
    Prop where
  listener : s'.listener.isSome
  bytes : Utf8.encode text ++ s'.held channel = s.held channel ++ bytes
  rest : s'.closed = true → (s.closed = true → Utf8.Begins (s.held channel)) →
    Utf8.Begins (s'.held channel)

namespace HandsOn

variable {s' s'' : Stream} {channel : OutputChannel} {bytes more : List UInt8} {text text' : String}

theorem same (h : s.listener.isSome) (hl : s'.listener = s.listener) (hc : s'.closed = s.closed) :
    HandsOn s s' channel [] "" where
  listener := hl ▸ h
  bytes := by simp [held, hl, Utf8.encode_eq]
  rest hclosed hbegins := by
    rw [held, hl]
    exact hbegins (hc ▸ hclosed)

theorem trans (h : HandsOn s s' channel bytes text) (h' : HandsOn s' s'' channel more text') :
    HandsOn s s'' channel (bytes ++ more) (text ++ text') where
  listener := h'.listener
  bytes := by
    rw [Utf8.encode_eq, String.toList_append, Utf8.bytesOf_append, List.append_assoc,
      ← Utf8.encode_eq text', h'.bytes, ← List.append_assoc, ← Utf8.encode_eq, h.bytes,
      List.append_assoc]
  rest hclosed hbegins := h'.rest hclosed fun hc => h.rest hc hbegins

end HandsOn

end Stream

theorem Listener.held_write (l : Listener) (c channel : OutputChannel) (bytes : List UInt8) :
    (l.write c bytes).held channel = l.held channel ++ if c = channel then bytes else [] := by
  cases c <;> cases channel <;> simp [write, held]

namespace StreamDeed

variable {s : Stream} {l : Listener}

/-- Whether a deed has a stream take what it holds: it is a flush, or closes the stream, or makes a
channel hold more than the buffer admits. -/
def takes (s : Stream) (buffer : Nat) : StreamDeed → Bool
  | flush | close _ => !s.closed
  | post e => !s.closed && e.last
  | write channel bytes => !s.closed && decide (buffer < (s.held channel ++ bytes).length)
  | attach _ | resolve .. => false

/-- A deed captures what is written to an open stream, and then takes all that can be taken, or
nothing. -/
theorem captures_and_takes (hl : s.listener = some l) {d : StreamDeed} (hd : ∀ l', d ≠ .attach l') :
    ∃ l', (∀ channel, l'.held channel = s.held channel ++ d.written s channel) ∧
      (l'.buffer = l.buffer ∧ l'.chunk = l.chunk) ∧
      d.listener s = some (if d.takes s l.buffer then l'.take.1 else l') ∧
      d.output s = if d.takes s l.buffer then l'.take.2 else [] := by
  have hheld (channel : OutputChannel) : l.held channel = s.held channel := by
    rw [Stream.held, hl]
    rfl
  have htaken : s.taken = l.take.2 := by rw [Stream.taken, hl]; rfl
  -- Only writing adds to what is held, and only a deed that takes it conveys anything.
  cases d with
  | write c bytes =>
    cases hc : s.closed with
    | true =>
      refine ⟨l, fun channel => by simp [written, hc, hheld], ⟨rfl, rfl⟩, ?_, ?_⟩
      · simp [listener, takes, hl, hc]
      · simp [output, takes, hl, hc]
    | false =>
      have hfull : (l.write c bytes).isFull c = decide (l.buffer < (s.held c ++ bytes).length) := by
        rw [Listener.isFull, Listener.held_write, if_pos rfl, hheld]
        cases c <;> rfl
      refine ⟨l.write c bytes, fun channel => ?_, by cases c <;> exact ⟨rfl, rfl⟩, ?_, ?_⟩
      · simp [written, hc, Listener.held_write, hheld]
      · simp [listener, takes, hl, hc, hfull]
      · simp [output, takes, hl, hc, hfull]
  | post e =>
    refine ⟨l, fun channel => by simp [written, hheld], ⟨rfl, rfl⟩, ?_, ?_⟩
    · cases hc : s.closed <;> cases he : e.last <;> simp [listener, closes, takes, hl, hc, he]
    · cases hc : s.closed <;> cases he : e.last <;> simp [output, takes, htaken, hc, he]
  | flush =>
    refine ⟨l, fun channel => by simp [written, hheld], ⟨rfl, rfl⟩, ?_, ?_⟩
    · cases hc : s.closed <;> simp [listener, takes, hl, hc]
    · cases hc : s.closed <;> simp [output, takes, htaken, hc]
  | close reason =>
    refine ⟨l, fun channel => by simp [written, hheld], ⟨rfl, rfl⟩, ?_, ?_⟩
    · cases hc : s.closed <;> simp [listener, takes, hl, hc]
    · cases hc : s.closed <;> simp [output, takes, htaken, hc]
  | attach l' => exact absurd rfl (hd l')
  | resolve sink half outcome =>
    exact ⟨l, fun channel => by simp [written, hheld], ⟨rfl, rfl⟩, by simp [listener, takes, hl], rfl⟩

theorem takes_of_closes {d : StreamDeed} (h : d.closes s = true) (buffer : Nat) :
    d.takes s buffer = true := by
  cases d <;> simp_all [closes, takes]

/-- A deed takes what can be taken or nothing. It takes if it closes the stream. -/
theorem takes_or (hl : s.listener = some l) {d : StreamDeed} (hd : ∀ l', d ≠ .attach l')
    (channel : OutputChannel) : ∃ l', l'.held channel = l.held channel ++ d.written s channel ∧
      (d.listener s = some l' ∧ d.output s = [] ∧ d.closes s = false ∨
        d.listener s = some l'.take.1 ∧ d.output s = l'.take.2) := by
  obtain ⟨l', hheld, -, hlistener, houtput⟩ := captures_and_takes hl hd
  refine ⟨l', by rw [hheld, Stream.held, hl]; rfl, ?_⟩
  cases htakes : d.takes s l.buffer with
  | true =>
    rw [htakes, if_pos rfl] at hlistener houtput
    exact .inr ⟨hlistener, houtput⟩
  | false =>
    rw [htakes, if_neg (by simp)] at hlistener houtput
    have hopen : d.closes s = false := by
      cases hcloses : d.closes s with
      | false => rfl
      | true => exact absurd (takes_of_closes hcloses l.buffer) (by simp [htakes])
    exact .inl ⟨hlistener, houtput, hopen⟩

/-- **A deed hands on** what was held of a channel and what is written to it, if that is the bytes of a
text. -/
theorem handsOn (hl : s.listener = some l) {d : StreamDeed} (hd : ∀ l', d ≠ .attach l') (now : Nat)
    {channel : OutputChannel} {text : List Char}
    (h : s.held channel ++ d.written s channel <+: Utf8.bytesOf text) :
    Stream.HandsOn s (d.apply s now) channel (d.written s channel)
      (String.join ((d.output s).map channel.part)) := by
  have hheld : s.held channel = l.held channel := by rw [Stream.held, hl]; rfl
  have hlistener : (d.apply s now).listener = d.listener s := by rw [d.apply_eq]
  obtain ⟨l', hwritten, ⟨hkept, hnone, hopen⟩ | ⟨htook, houtput⟩⟩ := takes_or hl hd channel
  · -- Nothing is taken, so the stream is as closed as it was.
    have hclosed : (d.apply s now).closed = s.closed := by
      rw [Stream.closed, Stream.closed, d.apply_eq, hopen]
      rfl
    have hheld' : (d.apply s now).held channel = s.held channel ++ d.written s channel := by
      rw [Stream.held, hlistener, hkept, hheld]
      exact hwritten
    refine ⟨by rw [hlistener, hkept]; rfl, by rw [hnone, hheld']; rfl, fun hc hbegins => ?_⟩
    have hc' := hclosed ▸ hc
    have hsilent : d.written s channel = [] := by
      cases d <;> simp [written, hc']
    rw [hheld', hsilent, List.append_nil]
    exact hbegins hc'
  · rw [hheld, ← hwritten] at h
    obtain ⟨hbytes, hbegins⟩ := l'.take_keeps channel h
    have hheld' : (d.apply s now).held channel = l'.take.1.held channel := by
      rw [Stream.held, hlistener, htook]
      rfl
    refine ⟨by rw [hlistener, htook]; rfl, ?_, fun _ _ => hheld' ▸ hbegins⟩
    rw [houtput, hheld', hbytes, hheld, hwritten]

end StreamDeed

namespace Stream

variable {s : Stream} {channel : OutputChannel}

theorem handsOn_turn (hlistener : s.listener.isSome) {t : StreamTurn} (ht : t.attaches = false)
    {text : List Char} (h : s.held channel ++ t.written s channel <+: Utf8.bytesOf text) :
    HandsOn s (t.apply s) channel (t.written s channel)
      (String.join ((t.output s).map channel.part)) := by
  cases t with
  | deed now d =>
    obtain ⟨l, hl⟩ := Option.isSome_iff_exists.mp hlistener
    have hd : ∀ l', d ≠ .attach l' := by
      rintro l' rfl
      exact absurd ht (by simp [StreamTurn.attaches])
    exact d.handsOn hl hd now h
  | sink place change => exact .same hlistener rfl rfl

/-- Over any turns but such that attach another listener, what is held of a channel and what is
written to it is handed over as text or held, if it is the bytes of a text. -/
theorem handsOn_after (hlistener : s.listener.isSome) {turns : List StreamTurn}
    (hturns : ∀ t ∈ turns, t.attaches = false) {text : List Char}
    (h : s.held channel ++ s.written channel turns <+: Utf8.bytesOf text) :
    HandsOn s (s.after turns) channel (s.written channel turns) (s.conveyed channel turns) := by
  induction turns generalizing s text with
  | nil => exact .same hlistener rfl rfl
  | cons t turns ih =>
    rw [written, ← List.append_assoc] at h
    have ht := handsOn_turn hlistener (hturns t (by simp))
      ((List.prefix_append _ _).trans h)
    -- What the turn has handed over are the first characters of the text.
    rw [← ht.bytes, List.append_assoc] at h
    obtain ⟨rest, -, hrest⟩ := Utf8.exists_of_bytesOf_append_prefix h
    rw [written, conveyed_cons]
    exact ht.trans (ih ht.listener (fun u hu => hturns u (List.mem_cons_of_mem _ hu)) hrest)

end Stream

/-! ## The result

The last deed that closes the stream takes what is held, and this is whole characters and perhaps the
beginning of one that was never finished. -/

/-- What becomes of the output that is written to a channel of a stream in some turns. -/
structure Stream.Conveys (s : Stream) (channel : OutputChannel) (turns : List StreamTurn) : Prop where
  /-- A deed hands over captured output and besides at most one event, which is its host's or the one
  that says why the stream is aborted. -/
  events : ∀ before now d after, turns = before ++ .deed now d :: after →
    d.events (s.after before) =
      (d.output (s.after before)).map outputEvent ++ (d.own (s.after before)).toList
  /-- Every sink is asked to accept the events with captured output, in the order of their numbers. -/
  accepted : ((s.captured turns).map SinkCall.accept).Sublist (s.asked turns)
  ordered : (s.captured turns).Pairwise fun e f => e.sequence < f.sequence
  /-- Each of them has a text of at least one channel. -/
  nonempty : ∀ e ∈ s.captured turns, e.kind = "progress" ∧ ∃ c, e.outputText c ≠ ""
  /-- The texts of the channel are what was written to it, up to the last character boundary. -/
  reads : Utf8.Reads (s.written channel turns) (s.conveyed channel turns)
  /-- So if whole characters were written, the texts are all of them. -/
  whole : ∀ text, s.written channel turns = Utf8.encode text → s.conveyed channel turns = text
  /-- They depend on the bytes alone that were written to the channel. -/
  alone : s.conveyed channel turns = Utf8.wholeText (s.written channel turns)

/-- The texts of a channel are what was written to it, up to the last character boundary. -/
theorem Stream.reads_conveyed (s : Stream) (buffer chunk : Nat) (channel : OutputChannel)
    {turns : List StreamTurn} (hturns : ∀ t ∈ turns, t.attaches = false)
    (hclosed : ((s.attach (.empty buffer chunk)).after turns).closed = true) {text : String}
    (htext : (s.attach (.empty buffer chunk)).written channel turns <+: Utf8.encode text) :
    Utf8.Reads ((s.attach (.empty buffer chunk)).written channel turns)
      ((s.attach (.empty buffer chunk)).conveyed channel turns) := by
  generalize hs : s.attach (.empty buffer chunk) = s₀ at hclosed htext ⊢
  have hempty : s₀.held channel = [] := by
    subst hs
    cases channel <;> rfl
  have hlistener : s₀.listener.isSome := by subst hs; rfl
  have hhands := handsOn_after hlistener hturns (by rw [hempty]; exact htext)
  -- What is left in the end is the beginning of a character.
  have hbegins := hhands.rest hclosed fun _ => hempty ▸ Utf8.begins_nil
  have hbytes := hhands.bytes
  rw [hempty, List.nil_append] at hbytes
  have hreads := Utf8.reads_bytesOf_append (s₀.conveyed channel turns).toList hbegins
  rwa [← Utf8.encode_eq, hbytes, String.ofList_toList] at hreads

/-- **Captured output arrives as it was written**, however it was cut into pieces. -/
theorem Stream.output_conveyed (s : Stream) (buffer chunk : Nat) (channel : OutputChannel)
    (turns : List StreamTurn) (hturns : ∀ t ∈ turns, t.attaches = false)
    (hclosed : ((s.attach (.empty buffer chunk)).after turns).closed = true) (text : String)
    (htext : (s.attach (.empty buffer chunk)).written channel turns <+: Utf8.encode text) :
    (s.attach (.empty buffer chunk)).Conveys channel turns := by
  have hreads := s.reads_conveyed buffer chunk channel hturns hclosed htext
  exact {
    events := fun before now d after _ => d.events_eq _
    accepted := captured_sublist _ turns
    ordered := pairwise_captured _ turns
    nonempty := fun e he => ne_empty_of_mem_captured he
    reads := hreads
    whole := fun t ht => hreads.unique (ht ▸ Utf8.reads_encode t)
    alone := hreads.unique (Utf8.reads_wholeText htext) }

/-- A sign of three bytes is written in two pieces, with output of the other channel and a flush in
between, and the stream is closed. -/
def Stream.cutSign : List StreamTurn :=
  [.deed 0 (.write .out [0x31, 0xE2, 0x82]), .deed 1 (.write .err [0xFF]), .deed 2 .flush,
    .deed 3 (.write .out [0xAC]), .deed 4 (.close none)]

theorem Stream.output_conveyed_cutSign :
    ((Stream.new [Sink.new 0 (.responder (.new "s" none none))]).attach (.empty 9 2)).Conveys .out
      cutSign := by
  refine output_conveyed _ 9 2 .out cutSign (by decide) ?closed "1€" ?written
  case closed => simp [cutSign, after, StreamTurn.apply, StreamDeed.apply, closed_close]
  case written =>
    simp only [cutSign, written, StreamTurn.written, StreamDeed.written, StreamTurn.apply,
      StreamDeed.apply_eq, StreamDeed.closes, closed]
    decide

end EventUpload
