import EventUpload.Proofs.Output.Chunking
import EventUpload.Proofs.Stream.HeldBack

/-!
# Output in pairs of chunks

When a stream takes the output of its two channels, each of them comes in chunks of its own (`Chunked`),
and the stream hands over an event for each place at which at least one of them has a chunk. So there
are as many events as the channel with more chunks has, and the event at a place has both chunks of that
place (`Stream.output_in_chunks`). This is so for whatever has a stream take output: a flush, a write
that is too much to be held back, the last event, and closing.

How a text is cut is settled before (`Output/Chunking`), for every text and every size. What is left for
the stream is which text that is: what the channel holds together with what is written, up to its last
whole character (`StreamDeed.chunksOf`). The two lists of chunks are independent, so a chunk of one
channel stands beside a chunk of the other that has nothing to do with it, and an event may have an
empty text.
-/

set_option autoImplicit false

namespace EventUpload

/-! ## Pairs of chunks -/

namespace Listener

theorem length_pairChunks (outs errs : List String) :
    (pairChunks outs errs).length = max outs.length errs.length := by
  fun_induction pairChunks outs errs with
  | case1 => rfl
  | case2 e es ih => rw [List.length_cons, ih]; simp
  | case3 o os ih => rw [List.length_cons, ih]; simp
  | case4 o os e es ih => rw [List.length_cons, ih, List.length_cons, List.length_cons, Nat.succ_max_succ]

/-- The pair at a place has the chunks at that place, and no text of a list that has ended. -/
theorem getElem?_pairChunks {outs errs : List String} {i : Nat}
    (h : i < max outs.length errs.length) :
    (pairChunks outs errs)[i]? = some (outs.getD i "", errs.getD i "") := by
  fun_induction pairChunks outs errs generalizing i with
  | case1 => exact absurd h (by simp)
  | case2 e es ih =>
    cases i with
    | zero => rfl
    | succ i => simpa using ih (by simpa using h)
  | case3 o os ih =>
    cases i with
    | zero => rfl
    | succ i => simpa using ih (by simpa using h)
  | case4 o os e es ih =>
    cases i with
    | zero => rfl
    | succ i => simpa using ih (by simpa [Nat.succ_max_succ] using h)

theorem take_eq (l : Listener) : l.take.2 = pairChunks
    (textChunks l.chunk (Utf8.wholeText (l.held .out)))
    (textChunks l.chunk (Utf8.wholeText (l.held .err))) := rfl

end Listener

/-! ## What a deed hands over -/

namespace StreamDeed

variable {s : Stream} {l : Listener} {d : StreamDeed}

/-- The chunks of what there is of a channel when a deed has the stream take it. -/
def chunksOf (s : Stream) (size : Nat) (d : StreamDeed) (channel : OutputChannel) : List String :=
  textChunks size (Utf8.wholeText (d.gathered s channel))

theorem output_of_takes (hl : s.listener = some l) (htakes : d.takes s l.buffer = true) :
    d.output s = Listener.pairChunks (d.chunksOf s l.chunk .out) (d.chunksOf s l.chunk .err) := by
  have hd : ∀ l', d ≠ .attach l' := by
    rintro l' rfl
    exact absurd htakes (by simp [takes])
  obtain ⟨l', hgathered, ⟨-, hchunk⟩, -, houtput⟩ := captures_and_takes hl hd
  rw [houtput, if_pos htakes, l'.take_eq, hchunk, hgathered, hgathered]
  rfl

/-- Deeds that have a stream take output touch no single sink. -/
theorem sinks_of_takes {buffer : Nat} (htakes : d.takes s buffer = true) (now : Nat) :
    (d.apply s now).sinks = s.sinks.map (·.obeyAll (d.calls s now)) := by
  rw [d.apply_eq]
  cases d with
  | resolve sink half outcome => exact absurd htakes (by simp [takes])
  | post e => rfl
  | attach l => rfl
  | write channel bytes => rfl
  | flush => rfl
  | close reason => rfl

/-- A deed asks for the events with output, then for one of its own, and then to close. -/
theorem calls_eq (s : Stream) (now : Nat) (d : StreamDeed) : d.calls s now =
    (numberedFrom s.next ((d.output s).map Stream.outputEvent)).map .accept ++
      ((numberedFrom (s.next + (d.output s).length) (d.own s).toList).map .accept ++
        if d.closes s then [.close now] else []) := by
  rw [calls, d.events_eq, Stream.numberedFrom_append, List.map_append, List.length_map,
    List.append_assoc]

/-- How a deed hands over the output that it has a stream take, if these are the chunks of the two
channels. -/
structure HandsPairs (s : Stream) (now : Nat) (d : StreamDeed) (outs errs : List String) : Prop where
  /-- There are as many pairs of texts as the longer list has chunks. -/
  count : (d.output s).length = max outs.length errs.length
  /-- Each has the chunks at its place, and no text of a list that has ended. -/
  paired : ∀ i < max outs.length errs.length,
    (d.output s)[i]? = some (outs.getD i "", errs.getD i "")
  /-- Every sink is asked to accept an event for each of them, with the numbers that come next. -/
  calls : d.calls s now =
    (numberedFrom s.next ((d.output s).map Stream.outputEvent)).map .accept ++
      ((numberedFrom (s.next + (d.output s).length) (d.own s).toList).map .accept ++
        if d.closes s then [.close now] else [])
  /-- A flush asks for nothing else. -/
  flush : d = .flush → (d.calls s now).length = max outs.length errs.length
  sinks : (d.apply s now).sinks = s.sinks.map (·.obeyAll (d.calls s now))

theorem handsPairs (hl : s.listener = some l) (htakes : d.takes s l.buffer = true) (now : Nat) :
    d.HandsPairs s now (d.chunksOf s l.chunk .out) (d.chunksOf s l.chunk .err) := by
  have houtput := output_of_takes hl htakes
  have hcount : (d.output s).length =
      max (d.chunksOf s l.chunk .out).length (d.chunksOf s l.chunk .err).length := by
    rw [houtput, Listener.length_pairChunks]
  refine ⟨hcount, fun i hi => ?_, d.calls_eq s now, ?_, sinks_of_takes htakes now⟩
  · rw [houtput, Listener.getElem?_pairChunks hi]
  · rintro rfl
    rw [← hcount, calls_eq]
    simp [own, closes, numberedFrom, length_numberedFrom]

end StreamDeed

/-! ## The result -/

/-- **Captured output comes in chunks that are as long as they can be, in pairs.** A text is cut into
such chunks, whatever it is; and whenever a stream takes its output, it hands over an event for each
pair of chunks of the texts of the two channels, in order. -/
theorem Stream.output_in_chunks (size : Nat) :
    (∀ text, Chunked (max size 1) text (textChunks size text)) ∧
      ∀ (s : Stream) (l : Listener), s.listener = some l → l.chunk = size → ∀ (now : Nat)
        (d : StreamDeed), d.takes s l.buffer = true →
          d.HandsPairs s now (d.chunksOf s size .out) (d.chunksOf s size .err) := by
  refine ⟨chunked_textChunks size, fun s l hl hsize now d htakes => ?_⟩
  rw [← hsize]
  exact StreamDeed.handsPairs hl htakes now

/-- Characters of one to four bytes, in chunks of three. There is more of one channel than of the other,
and it ends with the beginning of a character, which waits. -/
def Stream.mixedOutput : Stream :=
  (Stream.new [Sink.new 0 (.responder (.new "s" none none))]).attach
    { out := Utf8.encode "aé€😀b" ++ [0xE2], err := Utf8.encode "xyz1", buffer := 99, chunk := 3 }

theorem Stream.output_in_chunks_mixedOutput :
    Chunked 3 "aé€😀b" ["aé", "€", "😀", "b"] ∧
      StreamDeed.HandsPairs mixedOutput 0 .flush ["aé", "€", "😀", "b"] ["xyz", "1"] := by
  obtain ⟨hchunked, hpairs⟩ := output_in_chunks 3
  have hcut : textChunks 3 "aé€😀b" = ["aé", "€", "😀", "b"] := by cbv
  have hout : StreamDeed.chunksOf mixedOutput 3 .flush .out = ["aé", "€", "😀", "b"] := by cbv
  have herr : StreamDeed.chunksOf mixedOutput 3 .flush .err = ["xyz", "1"] := by cbv
  refine ⟨hcut ▸ hchunked _, ?_⟩
  rw [← hout, ← herr]
  exact hpairs mixedOutput _ rfl rfl 0 .flush rfl

end EventUpload
