import EventUpload.Proofs.Stream.Output

/-!
# Output in front of events

A host writes some output and then posts events, one of which is the last. What its stream hands over
are the pieces of output that were too much to be held back, the events before the last one, what was
held back until then, and the last event (`Listener.fed`). The pieces only depend on the listener
(`Listener.writeAll`), and put together they are what was written (`Listener.texts_of_fed`).

`Stream.handed` are the events that some turns hand over, before they get their numbers. Over turns that
close the stream every sink is asked to accept just these, numbered one after the other, and then to
close (`Stream.asked_eq`).

This is the special case of a stream of which everything is known, for those who compare a whole
recording: a replay writes and posts in this order and does nothing else (`Command/Feeding`). Events
that are posted after the first last one are not handed over, so `fed` takes the events up to it. If
there is none among them a final one is supplied, and then it is the last.

Only standard error is written to. The texts of standard output in the events are empty, which is part
of what is said of the texts, since a reader of the recording would see them.
-/

set_option autoImplicit false

namespace EventUpload

/-! ## What turns hand over

`handed` has the events without their numbers, because the numbers depend on nothing but their order. -/

/-- The events that a turn hands over, without their numbers. -/
def StreamTurn.events (s : Stream) : StreamTurn → List Event
  | deed _ d => d.events s
  | sink .. => []

namespace Stream

variable {s : Stream} {now : Nat}

/-- The events that some turns hand over, without their numbers. -/
def handed (s : Stream) : List StreamTurn → List Event
  | [] => []
  | t :: turns => t.events s ++ handed (t.apply s) turns

/-- The pairs of texts that are handed over in some turns. -/
def outputs (s : Stream) : List StreamTurn → List (String × String)
  | [] => []
  | t :: turns => t.output s ++ outputs (t.apply s) turns

theorem handed_append (s : Stream) (turns more : List StreamTurn) :
    s.handed (turns ++ more) = s.handed turns ++ (s.after turns).handed more := by
  induction turns generalizing s with
  | nil => rfl
  | cons t turns ih =>
    rw [List.cons_append, handed, handed, ih, List.append_assoc]
    rfl

theorem outputs_append (s : Stream) (turns more : List StreamTurn) :
    s.outputs (turns ++ more) = s.outputs turns ++ (s.after turns).outputs more := by
  induction turns generalizing s with
  | nil => rfl
  | cons t turns ih =>
    rw [List.cons_append, outputs, outputs, ih, List.append_assoc]
    rfl

theorem conveyed_eq (s : Stream) (channel : OutputChannel) (turns : List StreamTurn) :
    s.conveyed channel turns = String.join ((s.outputs turns).map channel.part) := by
  induction turns generalizing s with
  | nil => rfl
  | cons t turns ih => rw [conveyed_cons, outputs, List.map_append, String.join_append, ih]

theorem ne_empty_of_mem_outputs {turns : List StreamTurn} {pair : String × String}
    (h : pair ∈ s.outputs turns) : pair.1 ≠ "" ∨ pair.2 ≠ "" := by
  induction turns generalizing s with
  | nil => exact absurd h List.not_mem_nil
  | cons t turns ih =>
    rcases List.mem_append.mp h with h | h
    · cases t with
      | deed now d => exact StreamDeed.ne_empty_of_mem_output h
      | sink place change => exact absurd h List.not_mem_nil
    · exact ih h

/-- A closed stream is done with its sinks. -/
theorem silent_of_closed (h : s.closed = true) (turns : List StreamTurn) :
    s.handed turns = [] ∧ s.outputs turns = [] ∧ s.asked turns = [] := by
  induction turns generalizing s with
  | nil => exact ⟨rfl, rfl, rfl⟩
  | cons t turns ih =>
    have hclosed : (t.apply s).closed = true := closed_after h [t]
    obtain ⟨hhanded, houtputs, hasked⟩ := ih hclosed
    rw [handed, outputs, asked, hhanded, houtputs, hasked]
    simp only [List.append_nil]
    cases t with
    | sink place change => exact ⟨rfl, rfl, rfl⟩
    | deed now d =>
      have hevents := d.events_of_closed h
      have houtput : d.output s = [] := by
        have heq := d.events_eq s
        rw [hevents] at heq
        exact List.map_eq_nil_iff.mp (List.append_eq_nil_iff.mp heq.symm).1
      refine ⟨hevents, houtput, ?_⟩
      simp [StreamTurn.calls, StreamDeed.calls, hevents, d.closes_of_closed h, numberedFrom]

/-- **Over turns that close the stream** every sink is asked to accept what is handed over, and then to
close. -/
theorem asked_eq {turns : List StreamTurn} (hopen : s.closed = false)
    (hclosed : (s.after turns).closed = true) :
    ∃ now, s.asked turns = (numberedFrom s.next (s.handed turns)).map .accept ++ [.close now] := by
  induction turns generalizing s with
  | nil => exact absurd (hopen.symm.trans hclosed) (by simp)
  | cons t turns ih =>
    rw [asked, handed]
    cases hc : (t.apply s).closed with
    | true =>
      -- This is the turn that closes the stream, so nothing comes after it.
      obtain ⟨hhanded, -, hasked⟩ := silent_of_closed hc turns
      rw [hhanded, hasked, List.append_nil, List.append_nil]
      cases t with
      | sink place change => exact absurd (hopen.symm.trans hc) (by simp)
      | deed now d =>
        have hcloses : d.closes s = true := by
          by_contra hnot
          rw [StreamTurn.apply, closed, d.apply_eq, if_neg hnot] at hc
          exact absurd (hopen.symm.trans hc) (by simp)
        refine ⟨now, ?_⟩
        rw [StreamTurn.calls, StreamDeed.calls, hcloses]
        rfl
    | false =>
      obtain ⟨later, hlater⟩ := ih hc hclosed
      refine ⟨later, ?_⟩
      rw [hlater, numberedFrom_append, List.map_append, List.append_assoc]
      cases t with
      | sink place change => rfl
      | deed now d =>
        have hcloses : d.closes s = false := by
          by_contra hnot
          rw [StreamTurn.apply, closed, d.apply_eq, if_pos (by simpa using hnot)] at hc
          exact absurd hc (by simp)
        have hnext : (d.apply s now).next = s.next + (d.events s).length := by rw [d.apply_eq]
        rw [StreamTurn.calls, StreamDeed.calls, hcloses, StreamTurn.apply, hnext]
        simp [StreamTurn.events]

end Stream

/-! ## Writing

A listener that is full is emptied in the write that has filled it, so the pieces that are handed over
are determined by the pieces that are written. -/

/-- Writes pieces of a text; what is too much to be held back is taken. -/
def Listener.writeAll (l : Listener) (channel : OutputChannel) :
    List String → Listener × List (String × String)
  | [] => (l, [])
  | piece :: pieces =>
    let written := l.write channel (Utf8.encode piece)
    if written.isFull channel then
      let (last, pairs) := written.take.1.writeAll channel pieces
      (last, written.take.2 ++ pairs)
    else written.writeAll channel pieces

/-- The turns that write pieces of a text, at an instant. -/
def StreamTurn.writing (now : Nat) (channel : OutputChannel) (pieces : List String) :
    List StreamTurn :=
  pieces.map fun piece => .deed now (.write channel (Utf8.encode piece))

/-- The turns that post events, at an instant. -/
def StreamTurn.posting (now : Nat) (events : List Event) : List StreamTurn :=
  events.map fun e => .deed now (.post e)

namespace Stream

open StreamTurn

variable {s : Stream} {l : Listener} {channel : OutputChannel} {now : Nat}

theorem handed_writing (s : Stream) (pieces : List String) :
    s.handed (writing now channel pieces) =
      (s.outputs (writing now channel pieces)).map outputEvent := by
  induction pieces generalizing s with
  | nil => rfl
  | cons piece pieces ih =>
    have hevents := (StreamDeed.write channel (Utf8.encode piece)).events_eq s
    rw [StreamDeed.own, Option.toList_none, List.append_nil] at hevents
    rw [writing, List.map_cons, handed, outputs, List.map_append]
    exact congrArg₂ (· ++ ·) hevents (ih _)

/-- While a stream is open its listener takes what is written. -/
theorem after_writing (channel : OutputChannel) (now : Nat) (hopen : s.closed = false)
    (hl : s.listener = some l) (pieces : List String) :
    (s.after (writing now channel pieces)).closed = false ∧
      (s.after (writing now channel pieces)).listener = some (l.writeAll channel pieces).1 ∧
      s.outputs (writing now channel pieces) = (l.writeAll channel pieces).2 := by
  induction pieces generalizing s l with
  | nil => exact ⟨hopen, hl, rfl⟩
  | cons piece pieces ih =>
    let d := StreamDeed.write channel (Utf8.encode piece)
    have hclosed : (d.apply s now).closed = false := by
      rw [closed, d.apply_eq]
      exact hopen
    have hlistener : (d.apply s now).listener = d.listener s := by rw [d.apply_eq]
    simp only [d, StreamDeed.listener, hl, hopen, Option.map_some, Bool.false_eq_true, if_false]
      at hlistener
    have houtput : d.output s = if (l.write channel (Utf8.encode piece)).isFull channel then
        (l.write channel (Utf8.encode piece)).take.2 else [] := by
      simp only [d, StreamDeed.output, hl, hopen, Bool.not_false, Bool.true_and]
    have houtputs : s.outputs (writing now channel (piece :: pieces)) =
        d.output s ++ (d.apply s now).outputs (writing now channel pieces) := rfl
    rw [houtputs, houtput, Listener.writeAll]
    by_cases hfull : (l.write channel (Utf8.encode piece)).isFull channel = true
    · rw [if_pos hfull] at hlistener
      obtain ⟨hclosed', hlistener', houtputs'⟩ := ih hclosed hlistener
      simp only [hfull, if_true]
      exact ⟨hclosed', hlistener', congrArg (_ ++ ·) houtputs'⟩
    · rw [if_neg hfull] at hlistener
      obtain ⟨hclosed', hlistener', houtputs'⟩ := ih hclosed hlistener
      simp only [hfull, Bool.false_eq_true, if_false]
      exact ⟨hclosed', hlistener', houtputs'⟩

/-! ## Posting

An event is handed over when it is posted. Only the one that closes the stream has output in front. -/

/-- A last event closes a stream, and goes after what was held back. -/
theorem handed_last (now : Nat) (hopen : s.closed = false) (hl : s.listener = some l) {e : Event}
    (he : e.last = true) (more : List Event) :
    s.handed (posting now (e :: more)) = l.take.2.map outputEvent ++ [e] ∧
      s.outputs (posting now (e :: more)) = l.take.2 ∧
      (s.after (posting now (e :: more))).closed = true := by
  let d := StreamDeed.post e
  have hclosed : (d.apply s now).closed = true := by
    rw [closed, d.apply_eq]
    simp [d, StreamDeed.closes, hopen, he]
  obtain ⟨hhanded, houtputs, -⟩ := silent_of_closed hclosed (posting now more)
  have hevents : d.events s = l.take.2.map outputEvent ++ [e] := by
    simp [d, StreamDeed.events, hopen, he, outputEvents, hl]
  have houtput : d.output s = l.take.2 := by
    simp [d, StreamDeed.output, hopen, he, taken, hl]
  refine ⟨?_, ?_, closed_after hclosed (posting now more)⟩
  · show d.events s ++ (d.apply s now).handed (posting now more) = _
    rw [hhanded, hevents, List.append_nil]
  · show d.output s ++ (d.apply s now).outputs (posting now more) = _
    rw [houtputs, houtput, List.append_nil]

/-- **Events are handed over as they come**, up to the first that is the last; in front of that one goes
what was held back. -/
theorem handed_posting (now : Nat) (hopen : s.closed = false) (hl : s.listener = some l)
    (events : List Event) {final : Event} (hfinal : final.last = true) :
    s.handed (posting now (events ++ [final])) = events.takeWhile (fun e => !e.last) ++
        (l.take.2.map outputEvent ++ [(events.find? (·.last)).getD final]) ∧
      s.outputs (posting now (events ++ [final])) = l.take.2 ∧
      (s.after (posting now (events ++ [final]))).closed = true := by
  induction events generalizing s with
  | nil => exact handed_last now hopen hl hfinal []
  | cons e events ih =>
    cases he : e.last with
    | true =>
      rw [List.takeWhile_cons_of_neg (by simp [he]), List.find?_cons_of_pos he]
      exact handed_last now hopen hl he (events ++ [final])
    | false =>
      let d := StreamDeed.post e
      have hopen' : (d.apply s now).closed = false := by
        rw [closed, d.apply_eq]
        simpa [d, StreamDeed.closes, he, closed] using hopen
      have hl' : (d.apply s now).listener = some l := by
        rw [d.apply_eq]
        simp [d, StreamDeed.listener, StreamDeed.closes, he, hl]
      have hevents : d.events s = [e] := by simp [d, StreamDeed.events, hopen, he]
      have houtput : d.output s = [] := by simp [d, StreamDeed.output, he]
      obtain ⟨hhanded, houtputs, hclosed⟩ := ih hopen' hl'
      rw [List.takeWhile_cons_of_pos (by simp [he]), List.find?_cons_of_neg (by simp [he])]
      refine ⟨?_, ?_, hclosed⟩
      · show d.events s ++ (d.apply s now).handed (posting now (events ++ [final])) = _
        rw [hhanded, hevents]
        rfl
      · show d.output s ++ (d.apply s now).outputs (posting now (events ++ [final])) = _
        rw [houtputs, houtput]
        rfl

/-! ## What was written

The texts that are handed over and the one that is held back make up what was written. -/

theorem written_append (s : Stream) (channel : OutputChannel) (turns more : List StreamTurn) :
    s.written channel (turns ++ more) = s.written channel turns ++ (s.after turns).written channel more := by
  induction turns generalizing s with
  | nil => rfl
  | cons t turns ih =>
    rw [List.cons_append, written, written, ih, List.append_assoc]
    rfl

theorem written_posting (s : Stream) (events : List Event) :
    s.written channel (posting now events) = [] := by
  induction events generalizing s with
  | nil => rfl
  | cons e events ih => exact ih _

/-- The bytes of a channel are those of the pieces that were written to it. -/
theorem written_writing (hopen : s.closed = false) (c channel : OutputChannel) (pieces : List String) :
    s.written channel (writing now c pieces) =
      if c = channel then Utf8.encode (String.join pieces) else [] := by
  induction pieces generalizing s with
  | nil =>
    rw [writing, List.map_nil, written, String.join_nil]
    exact (ite_self _).symm
  | cons piece pieces ih =>
    let d := StreamDeed.write c (Utf8.encode piece)
    have hopen' : (d.apply s now).closed = false := by
      rw [closed, d.apply_eq]
      exact hopen
    have hwritten : s.written channel (writing now c (piece :: pieces)) =
        d.written s channel ++ (d.apply s now).written channel (writing now c pieces) := rfl
    rw [hwritten, ih hopen']
    by_cases hc : c = channel
    · simp [d, StreamDeed.written, hopen, hc, String.join_cons, Utf8.encode_eq]
    · simp [d, StreamDeed.written, hc]

end Stream

/-! ## Output, then events

The two parts are put together for a host that writes first and then posts. -/

/-- The turns that write pieces of a text to standard error and post events. -/
def StreamTurn.feeding (now : Nat) (pieces : List String) (events : List Event) : List StreamTurn :=
  writing now .err pieces ++ posting now events

theorem StreamTurn.mem_feeding {now : Nat} {pieces : List String} {events : List Event} {t : StreamTurn}
    (h : t ∈ feeding now pieces events) :
    (∃ bytes, t = .deed now (.write .err bytes)) ∨ ∃ e, t = .deed now (.post e) := by
  rcases List.mem_append.mp h with h | h
  · obtain ⟨piece, -, rfl⟩ := List.mem_map.mp h
    exact .inl ⟨_, rfl⟩
  · obtain ⟨e, -, rfl⟩ := List.mem_map.mp h
    exact .inr ⟨e, rfl⟩

namespace Listener

/-- The pairs of texts that are handed over while the pieces of a text are written. -/
def early (l : Listener) (pieces : List String) : List (String × String) := (l.writeAll .err pieces).2

/-- The pairs of texts that are held back until the last event. -/
def late (l : Listener) (pieces : List String) : List (String × String) :=
  (l.writeAll .err pieces).1.take.2

/-- What is handed over when pieces of a text are written to standard error and events are posted, with one
in the end that is the last if no other is. -/
def fed (l : Listener) (pieces : List String) (events : List Event) (final : Event) : List Event :=
  (l.early pieces).map Stream.outputEvent ++ (events.takeWhile (fun e => !e.last) ++
    ((l.late pieces).map Stream.outputEvent ++ [(events.find? (·.last)).getD final]))

end Listener

namespace Stream

open StreamTurn

variable (s : Stream) (buffer chunk now : Nat) (pieces : List String) (events : List Event) (final : Event)

theorem handed_feeding (hopen : s.closed = false) (hfinal : final.last = true) :
    let t := s.attach (.empty buffer chunk)
    t.handed (feeding now pieces (events ++ [final])) =
        (Listener.empty buffer chunk).fed pieces events final ∧
      t.outputs (feeding now pieces (events ++ [final])) =
        (Listener.empty buffer chunk).early pieces ++ (Listener.empty buffer chunk).late pieces ∧
      (t.after (feeding now pieces (events ++ [final]))).closed = true := by
  intro t
  have hopen' : t.closed = false := hopen
  obtain ⟨hopened, hlistener, houtputs⟩ :=
    after_writing .err now hopen' rfl pieces
  obtain ⟨hhanded, houtputs', hclosed⟩ := handed_posting now hopened hlistener events hfinal
  rw [feeding, handed_append, outputs_append, after_append, handed_writing, houtputs, hhanded, houtputs']
  exact ⟨rfl, rfl, hclosed⟩

/-- **Every sink of a stream that is fed** is asked for the same: to accept what is handed over, numbered
from one, and then to close. -/
theorem after_feeding (sinks : List Sink) (hfinal : final.last = true) :
    let t := ((new sinks).attach (.empty buffer chunk)).after (feeding now pieces (events ++ [final]))
    t.closed = true ∧ ∃ time, t.sinks = sinks.map (·.obeyAll ((numberedFrom 1
      ((Listener.empty buffer chunk).fed pieces events final)).map .accept ++ [.close time])) := by
  intro t
  obtain ⟨hhanded, -, hclosed⟩ := handed_feeding (new sinks) buffer chunk now pieces events final rfl hfinal
  obtain ⟨time, hasked⟩ := asked_eq (s := (new sinks).attach (.empty buffer chunk)) rfl hclosed
  refine ⟨hclosed, time, ?_⟩
  have htouch : ∀ u ∈ feeding now pieces (events ++ [final]), ∀ ks, u.touch ks = ks := by
    intro u hu ks
    obtain ⟨bytes, rfl⟩ | ⟨e, rfl⟩ := mem_feeding hu <;> rfl
  rw [← hhanded]
  exact (sinks_after _ htouch).trans (congrArg (fun calls => sinks.map (·.obeyAll calls)) hasked)

end Stream

theorem eq_empty_of_join_eq_empty {texts : List String} (h : String.join texts = "") :
    ∀ text ∈ texts, text = "" := by
  rw [← String.toList_inj, String.toList_join] at h
  exact fun text htext => String.toList_inj.mp (List.flatMap_eq_nil_iff.mp h text htext)

/-- **The texts of standard error put together** are what was written; those of standard output are empty. -/
theorem Listener.texts_of_fed (buffer chunk : Nat) (pieces : List String) :
    let l := Listener.empty buffer chunk
    (∀ pair ∈ l.early pieces ++ l.late pieces, pair.1 = "" ∧ pair.2 ≠ "") ∧
      String.join ((l.early pieces ++ l.late pieces).map Prod.snd) = String.join pieces := by
  intro l
  let s : Stream := .new []
  let final : Event := .lastOf "" .null
  let turns := StreamTurn.feeding 0 pieces ([] ++ [final])
  obtain ⟨-, houtputs, hclosed⟩ := s.handed_feeding buffer chunk 0 pieces [] final rfl rfl
  have hattaches : ∀ t ∈ turns, t.attaches = false := by
    intro t ht
    obtain ⟨bytes, rfl⟩ | ⟨e, rfl⟩ := StreamTurn.mem_feeding ht <;> rfl
  have hwritten (channel : OutputChannel) : (s.attach l).written channel turns =
      if OutputChannel.err = channel then Utf8.encode (String.join pieces) else [] := by
    show (s.attach l).written channel (_ ++ _) = _
    rw [Stream.written_append, Stream.written_posting, List.append_nil]
    exact Stream.written_writing rfl _ _ _
  have conveyed (channel : OutputChannel) (text : String)
      (htext : (s.attach l).written channel turns = Utf8.encode text) :
      (s.attach l).conveyed channel turns = text := by
    have hprefix : (s.attach l).written channel turns <+: Utf8.encode text :=
      htext ▸ List.prefix_rfl
    have hreads := s.reads_conveyed buffer chunk channel hattaches hclosed hprefix
    exact hreads.unique (htext ▸ Utf8.reads_encode text)
  have hout := conveyed .out "" (hwritten .out)
  have herr := conveyed .err (String.join pieces) (hwritten .err)
  rw [Stream.conveyed_eq, houtputs] at hout herr
  refine ⟨fun pair hpair => ?_, herr⟩
  have hempty := eq_empty_of_join_eq_empty hout pair.1 (List.mem_map_of_mem hpair)
  exact ⟨hempty, (Stream.ne_empty_of_mem_outputs (houtputs ▸ hpair)).resolve_left fun hne => hne hempty⟩

end EventUpload
