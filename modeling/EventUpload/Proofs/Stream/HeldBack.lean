import Mathlib
import EventUpload.Proofs.Stream.Output
import EventUpload.Proofs.Text.Ending

/-!
# How much output is held back

What a command writes is held back until its stream takes it, and a stream takes it early when one
channel holds more than the buffer of the listener admits. So however a command writes, no channel ever
holds more than the buffer, or than the three bytes that the beginning of a character can have
(`Stream.held_back`). These are kept by every taking and count like all others, so with a buffer smaller
than that a channel may hold more than the buffer between two writes; with any other one the write that
takes early is the one that has filled the channel.

Whether a deed takes is decided beforehand (`StreamDeed.takes`), from what is held and what is written,
and a deed that takes does so for both channels. `Empties` and `Keeps` are the two outcomes. The bound
then needs no induction over bytes: after a taking at most the beginning of a character is left, and
without one the channel that was written to is within the buffer (`length_gathered_le`). The other
channel has what it had, which is why its earlier length is in that lemma.

No hypothesis is made about what is written. Bytes that are no text are taken as replacements, and the
lemmas on taking that are used here do not ask for a text (`Listener.take_splits`).
-/

set_option autoImplicit false

namespace EventUpload

/-! ## One deed

A deed either takes all that is held but the beginning of a character, or leaves it and adds what it
writes. -/

theorem Listener.begins_take (l : Listener) (channel : OutputChannel) :
    Utf8.Begins (l.take.1.held channel) := by
  rw [held_take]
  exact Utf8.begins_drop_completePart _

/-- Taking splits what is held: the texts are that of the first part, and the rest stays. -/
theorem Listener.take_splits (l : Listener) (channel : OutputChannel) : ∃ init,
    l.held channel = init ++ l.take.1.held channel ∧
      String.join (l.take.2.map channel.part) = Utf8.decodeLossy init :=
  ⟨_, by rw [held_take]; exact (List.take_append_drop _ _).symm, join_take l channel⟩

namespace StreamDeed

variable {s : Stream} {l : Listener}

/-- What there is of a channel when a deed has the stream take it: what was held, and what the deed
writes. -/
def gathered (s : Stream) (d : StreamDeed) (channel : OutputChannel) : List UInt8 :=
  s.held channel ++ d.written s channel

/-- A deed hands over all of what a channel holds but the beginning of a character. -/
structure Empties (s : Stream) (now : Nat) (d : StreamDeed) (channel : OutputChannel) : Prop where
  begins : Utf8.Begins ((d.apply s now).held channel)
  texts : ∃ init, d.gathered s channel = init ++ (d.apply s now).held channel ∧
    String.join ((d.output s).map channel.part) = Utf8.decodeLossy init

/-- A deed hands over no output; what has been written is held with the rest. -/
structure Keeps (s : Stream) (now : Nat) (d : StreamDeed) : Prop where
  nothing : d.output s = []
  held : ∀ channel, (d.apply s now).held channel = d.gathered s channel

/-- A deed empties both channels, or keeps what they hold. -/
theorem empties_or_keeps (hl : s.listener = some l) {d : StreamDeed} (hd : ∀ l', d ≠ .attach l')
    (now : Nat) : (d.takes s l.buffer = true → ∀ channel, d.Empties s now channel) ∧
      (d.takes s l.buffer = false → d.Keeps s now) := by
  obtain ⟨l', hgathered, -, hlistener, houtput⟩ := captures_and_takes hl hd
  have hafter : (d.apply s now).listener = d.listener s := by rw [d.apply_eq]
  constructor
  · intro htakes channel
    rw [htakes, if_pos rfl] at hlistener houtput
    have hheld : (d.apply s now).held channel = l'.take.1.held channel := by
      rw [Stream.held, hafter, hlistener]
      rfl
    obtain ⟨init, hsplit, htexts⟩ := l'.take_splits channel
    rw [hgathered, ← hheld] at hsplit
    exact ⟨hheld ▸ l'.begins_take channel, init, hsplit, by rw [houtput, htexts]⟩
  · intro htakes
    rw [htakes, if_neg (by simp)] at hlistener houtput
    refine ⟨houtput, fun channel => ?_⟩
    rw [Stream.held, hafter, hlistener]
    exact hgathered channel

/-- What is written without being taken early is within the buffer. -/
theorem length_gathered_le {buffer : Nat} {d : StreamDeed} (h : d.takes s buffer = false)
    (channel : OutputChannel) :
    (d.gathered s channel).length ≤ max buffer (s.held channel).length := by
  have hfits : d.written s channel = [] ∨ (d.gathered s channel).length ≤ buffer := by
    cases d with
    | write c bytes =>
      by_cases hwrites : s.closed = false ∧ c = channel
      · obtain ⟨hopen, rfl⟩ := hwrites
        have hfits : ¬buffer < (s.held c ++ bytes).length := by simpa [takes, hopen] using h
        refine .inr ?_
        simpa only [gathered, written, hopen, and_self, if_true] using Nat.le_of_not_lt hfits
      · exact .inl (if_neg hwrites)
    | post e => exact .inl rfl
    | attach l => exact .inl rfl
    | flush => exact .inl rfl
    | close reason => exact .inl rfl
    | resolve sink half outcome => exact .inl rfl
  rcases hfits with hnone | hfits
  · rw [gathered, hnone, List.append_nil]
    exact Nat.le_max_right _ _
  · exact Nat.le_trans hfits (Nat.le_max_left _ _)

end StreamDeed

/-! ## All deeds

The bound holds before each deed, so it can be asked for at any of them. -/

namespace Stream

variable {s : Stream} {buffer : Nat}

/-- A stream with a listener that holds back no more than it may. -/
structure WithinBuffer (buffer : Nat) (s : Stream) : Prop where
  listener : ∃ l, s.listener = some l ∧ l.buffer = buffer
  bounded : ∀ channel, (s.held channel).length ≤ max buffer 3

theorem WithinBuffer.deed (h : s.WithinBuffer buffer) {d : StreamDeed} (hd : ∀ l', d ≠ .attach l')
    (now : Nat) : (d.apply s now).WithinBuffer buffer := by
  obtain ⟨l, hl, hbuffer⟩ := h.listener
  obtain ⟨hempties, hkeeps⟩ := d.empties_or_keeps hl hd now
  rw [hbuffer] at hempties hkeeps
  constructor
  · obtain ⟨l', -, hsame, hlistener, -⟩ := d.captures_and_takes hl hd
    refine ⟨_, by rw [d.apply_eq]; exact hlistener, ?_⟩
    split
    · exact hsame.1.trans hbuffer
    · exact hsame.1.trans hbuffer
  · intro channel
    cases htakes : d.takes s buffer with
    | true =>
      have := ((hempties htakes channel).begins).length_le
      omega
    | false =>
      have hbound := h.bounded channel
      have hgathered := d.length_gathered_le htakes channel
      rw [(hkeeps htakes).held channel]
      omega

theorem WithinBuffer.after (h : s.WithinBuffer buffer) {turns : List StreamTurn}
    (hturns : ∀ t ∈ turns, t.attaches = false) : (s.after turns).WithinBuffer buffer := by
  induction turns generalizing s with
  | nil => exact h
  | cons t turns ih =>
    refine ih (s := t.apply s) ?_ fun u hu => hturns u (List.mem_cons_of_mem _ hu)
    cases t with
    | deed now d =>
      refine h.deed (fun l' heq => ?_) now
      have hnot := hturns (.deed now d) (by simp)
      rw [heq] at hnot
      exact absurd hnot (by simp [StreamTurn.attaches])
    | sink place change => exact ⟨h.listener, h.bounded⟩

/-! ## The result -/

/-- How a stream holds output back over some turns, with a buffer of some size. -/
structure HoldsBack (buffer : Nat) (s : Stream) (turns : List StreamTurn) : Prop where
  /-- At every time a channel holds no more than the buffer or the beginning of a character. -/
  bounded : ∀ before after, turns = before ++ after → ∀ channel,
    ((s.after before).held channel).length ≤ max buffer 3
  /-- A write that makes its channel hold more than the buffer empties both channels at once. -/
  early : ∀ before now channel bytes after, turns = before ++ .deed now (.write channel bytes) :: after →
    (s.after before).closed = false → buffer < ((s.after before).held channel ++ bytes).length →
    ∀ c, (StreamDeed.write channel bytes).Empties (s.after before) now c
  /-- All sinks get what it hands over, and nothing else. -/
  posted : ∀ before now channel bytes after, turns = before ++ .deed now (.write channel bytes) :: after →
    (StreamDeed.write channel bytes).calls (s.after before) now =
      (numberedFrom (s.after before).next (((StreamDeed.write channel bytes).output
        (s.after before)).map outputEvent)).map .accept
  /-- Any other write hands over nothing, and its bytes are held with the rest. -/
  quiet : ∀ before now channel bytes after, turns = before ++ .deed now (.write channel bytes) :: after →
    (s.after before).closed = false → ¬buffer < ((s.after before).held channel ++ bytes).length →
    (StreamDeed.write channel bytes).Keeps (s.after before) now
  /-- Besides such writes, only flushes and what closes the stream hand over output. -/
  taken : ∀ before now d after, turns = before ++ .deed now d :: after →
    d.output (s.after before) ≠ [] → d.takes (s.after before) buffer = true
  /-- A write to a closed stream changes nothing. -/
  closed : ∀ before now channel bytes after, turns = before ++ .deed now (.write channel bytes) :: after →
    (s.after before).closed = true →
    (StreamDeed.write channel bytes).apply (s.after before) now = s.after before

/-- **No channel holds more than the buffer, or than the beginning of a character**, however a command
writes and whatever else happens to the stream; and what is taken early is taken by the write that
makes a channel hold more than the buffer. -/
theorem held_back (s : Stream) (buffer chunk : Nat) (turns : List StreamTurn)
    (hturns : ∀ t ∈ turns, t.attaches = false) :
    (s.attach (.empty buffer chunk)).HoldsBack buffer turns := by
  have hstart : (s.attach (.empty buffer chunk)).WithinBuffer buffer := by
    refine ⟨⟨_, rfl, rfl⟩, fun channel => ?_⟩
    cases channel <;> exact Nat.zero_le _
  -- From here on only the bound on what is held is used, and not how the stream has come to it.
  generalize s.attach (.empty buffer chunk) = s₀ at hstart
  have hbefore {before after : List StreamTurn} (heq : turns = before ++ after) :
      (s₀.after before).WithinBuffer buffer :=
    hstart.after fun t ht => hturns t (by rw [heq]; exact List.mem_append_left _ ht)
  have hdeed {before after : List StreamTurn} {now : Nat} {d : StreamDeed}
      (heq : turns = before ++ .deed now d :: after) (hd : ∀ l', d ≠ .attach l') :
      (d.takes (s₀.after before) buffer = true → ∀ c, d.Empties (s₀.after before) now c) ∧
        (d.takes (s₀.after before) buffer = false → d.Keeps (s₀.after before) now) := by
    obtain ⟨l, hl, rfl⟩ := (hbefore heq).listener
    exact d.empties_or_keeps hl hd now
  refine ⟨fun before after heq => (hbefore heq).bounded, ?_, ?_, ?_, ?_, ?_⟩
  · intro before now channel bytes after heq hopen hfull
    refine (hdeed heq (by simp)).1 ?_
    simp only [StreamDeed.takes, hopen, hfull, decide_true, Bool.not_false, Bool.and_self]
  · intro before now channel bytes after _
    rw [StreamDeed.calls, StreamDeed.events_eq]
    simp [StreamDeed.own, StreamDeed.closes]
  · intro before now channel bytes after heq hopen hfits
    refine (hdeed heq (by simp)).2 ?_
    simp only [StreamDeed.takes, hopen, hfits, decide_false, Bool.and_false]
  · intro before now d after heq hne
    cases htakes : d.takes (s₀.after before) buffer with
    | true => rfl
    | false =>
      have hd : ∀ l', d ≠ .attach l' := by
        rintro l' rfl
        exact hne rfl
      exact absurd ((hdeed heq hd).2 htakes).nothing hne
  · intro before now channel bytes after _ hclosed
    simp only [StreamDeed.apply, Stream.write, hclosed]
    split <;> rfl

/-- A buffer of one byte, in front of a sign of three bytes that comes in pieces. The first two are more
than the buffer holds and stay, and the next byte of the other channel is no more than that; then the
last one has both channels emptied. -/
def tightBuffer : List StreamTurn :=
  [.deed 0 (.write .out [0x31, 0xE2, 0x82]), .deed 1 (.write .err [0x32]),
    .deed 2 (.write .out [0xAC]), .deed 3 (.close none), .deed 4 (.write .out [0x33, 0x34])]

theorem held_back_tightBuffer :
    let s := (Stream.new [Sink.new 0 (.responder (.new "s" none none))]).attach (.empty 1 2)
    s.HoldsBack 1 tightBuffer ∧ (s.after (tightBuffer.take 2)).held .out = [0xE2, 0x82] ∧
      (s.after (tightBuffer.take 2)).held .err = [0x32] ∧
      (s.after (tightBuffer.take 3)).held .err = [] := by
  intro s
  exact ⟨held_back _ 1 2 tightBuffer (by decide), by cbv, by cbv, by cbv⟩

end Stream

end EventUpload
