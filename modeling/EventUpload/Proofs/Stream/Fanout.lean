import EventUpload.Proofs.Growing
import EventUpload.Proofs.Output.Remainder
import EventUpload.Proofs.Stream.Deed

/-!
# What the sinks of a stream are handed

Producers take turns at a stream, in whatever order, and between their turns the sinks may change as
they like. Over all turns every sink is asked for the same: to accept events, numbered from one without
a gap, and then to close, once, if the stream is closed. The last event, if there is one, comes at the
end, after all the output that was captured until then. `Stream.fanned_out` says so for every list of
turns.

Everything rests on one invariant of a stream and what it has asked for (`Stream.Asks`), which a turn
keeps because of `StreamDeed.apply_eq`.

A turn of a sink has any function from sinks to sinks in it. So nothing is assumed of what sinks do,
alone or to each other, and what is shown is what they are asked for; only `FannedOut.together` is about
what they do, and it asks that nothing else befall them. Two producers that run at the same time take
turns in some order, as each deed is done under one lock, and the theorem is about all orders.

`FannedOut` gives the events first and everything else in terms of them. Which events there are is not
said there: that is the matter of `StreamDeed.events`, and for captured output of `Stream/Output`.
Closing is found by looking for the turn that has taken the snapshot, since nothing else sets it.
-/

set_option autoImplicit false

namespace EventUpload

/-! ## Turns

A turn of a sink may be anything that befalls it, by its own work or from outside. It comes between
deeds and never within one. -/

/-- One turn at a stream: something is done to it, or one of its sinks changes, by itself or because
of others. -/
inductive StreamTurn where
  | deed (now : Nat) (d : StreamDeed)
  | sink (place : Nat) (change : Sink → Sink)

namespace StreamTurn

/-- The stream after the turn. -/
def apply (s : Stream) : StreamTurn → Stream
  | deed now d => d.apply s now
  | sink place change => s.updateSink place change

/-- What a turn asks of every sink. -/
def calls (s : Stream) : StreamTurn → List SinkCall
  | deed now d => d.calls s now
  | sink .. => []

/-- What a turn does to single sinks without asking them. -/
def touch : StreamTurn → List Sink → List Sink
  | deed _ d, sinks => d.touch sinks
  | sink place change, sinks => sinks.modify place change

theorem sinks_apply (s : Stream) (t : StreamTurn) :
    (t.apply s).sinks = t.touch (s.sinks.map (·.obeyAll (t.calls s))) := by
  cases t with
  | deed now d => exact congrArg Stream.sinks (d.apply_eq s now)
  | sink place change => simp [apply, Stream.updateSink, touch, calls]

theorem length_touch (t : StreamTurn) (sinks : List Sink) :
    (t.touch sinks).length = sinks.length := by
  cases t with
  | deed now d => cases d <;> simp [touch, StreamDeed.touch]
  | sink place change => simp [touch]

end StreamTurn

namespace Stream

/-- A stream after some turns. -/
def after (s : Stream) (turns : List StreamTurn) : Stream := turns.foldl StreamTurn.apply s

/-- What is asked of every sink over some turns. -/
def asked (s : Stream) : List StreamTurn → List SinkCall
  | [] => []
  | t :: turns => t.calls s ++ asked (t.apply s) turns

theorem after_concat (s : Stream) (turns : List StreamTurn) (t : StreamTurn) :
    s.after (turns ++ [t]) = t.apply (s.after turns) := by simp [after]

theorem after_append (s : Stream) (turns more : List StreamTurn) :
    s.after (turns ++ more) = (s.after turns).after more := by simp [after]

theorem asked_concat (s : Stream) (turns : List StreamTurn) (t : StreamTurn) :
    s.asked (turns ++ [t]) = s.asked turns ++ t.calls (s.after turns) := by
  induction turns generalizing s with
  | nil => simp [asked, after]
  | cons u turns ih =>
    simp only [List.cons_append, asked, ih, List.append_assoc]
    rfl

/-- Sinks that nothing else befalls do all that was asked of them, and nothing more. -/
theorem sinks_after (s : Stream) {turns : List StreamTurn}
    (h : ∀ t ∈ turns, ∀ sinks, t.touch sinks = sinks) :
    (s.after turns).sinks = s.sinks.map (·.obeyAll (s.asked turns)) := by
  induction turns generalizing s with
  | nil => simp [after, asked]
  | cons t turns ih =>
    refine (ih (t.apply s) fun u hu => h u (List.mem_cons_of_mem _ hu)).trans ?_
    rw [t.sinks_apply, h t (by simp), List.map_map]
    exact List.map_congr_left fun k _ => (k.obeyAll_append (t.calls s) _).symm

/-! ## Closed streams

An event that is marked as the last one closes the stream, so there can only be one, and nothing comes
after it. -/

theorem closed_eq_false {s : Stream} : s.closed = false ↔ s.snapshot = none := by
  simp [closed]

end Stream

namespace StreamDeed

variable {s : Stream} {now : Nat} {d : StreamDeed}

theorem last_of_mem_outputEvents {e : Event} (h : e ∈ s.outputEvents) : e.last = false := by
  obtain ⟨chunk, _, rfl⟩ := List.mem_map.mp h
  rfl

/-- A deed hands over captured output, all of it if the deed closes the stream, and then at most one
event more. Only that one can be marked as the last event, and then it is. -/
theorem exists_events_eq (s : Stream) (d : StreamDeed) :
    ∃ (output : List Event) (final : Option Event), d.events s = output ++ final.toList ∧
      (∀ e ∈ output, e.last = false) ∧ (d.closes s = true → output = s.outputEvents) ∧
      (∀ e ∈ final, e.last = true → d.closes s = true) := by
  have houtput : ∀ e ∈ s.outputEvents, e.last = false := fun _ => last_of_mem_outputEvents
  cases hc : s.closed with
  | true =>
    refine ⟨[], none, by simp [events_of_closed hc d], by simp, ?_, by simp⟩
    rw [closes_of_closed hc d]
    exact fun h => absurd h (by simp)
  | false =>
    cases d with
    | post e =>
      cases hl : e.last with
      | true => exact ⟨_, some e, by simp [events, hc, hl], houtput, fun _ => rfl, by simp [closes, hc]⟩
      | false =>
        exact ⟨[], some e, by simp [events, hc, hl], by simp, by simp [closes, hl], by simp [closes, hc]⟩
    | write channel bytes =>
      refine ⟨_, none, (List.append_nil _).symm, fun e he => ?_, by simp [closes], by simp⟩
      simp only [events] at he
      split at he
      · exact absurd he (by simp)
      · split at he
        · obtain ⟨chunk, _, rfl⟩ := List.mem_map.mp he
          rfl
        · exact absurd he (by simp)
    | flush => exact ⟨_, none, by simp [events, hc], houtput, fun _ => rfl, by simp⟩
    | close reason =>
      refine ⟨_, reason.map AbortReason.event, ?_, houtput, fun _ => rfl, by simp [closes, hc]⟩
      cases reason <;> simp [events, hc]
    | attach listener => exact ⟨[], none, rfl, by simp, by simp [closes], by simp⟩
    | resolve sink half outcome => exact ⟨[], none, rfl, by simp, by simp [closes], by simp⟩

/-- Of the events that a deed hands over only the final one can be marked as the last event. -/
theorem last_of_mem_dropLast {e : Event} (h : e ∈ (d.events s).dropLast) : e.last = false := by
  obtain ⟨output, final, heq, houtput, -, -⟩ := exists_events_eq s d
  rw [heq] at h
  cases final with
  | none => exact houtput e ((List.dropLast_sublist _).mem (by simpa using h))
  | some f => exact houtput e (by simpa using h)

/-- A deed that hands over an event marked as the last one closes the stream. -/
theorem closes_of_last {e : Event} (h : e ∈ d.events s) (hl : e.last = true) :
    d.closes s = true := by
  obtain ⟨output, final, heq, houtput, -, hfinal⟩ := exists_events_eq s d
  rw [heq] at h
  rcases List.mem_append.mp h with h | h
  · exact absurd (houtput e h) (by simp [hl])
  · exact hfinal e (by simpa using h) hl

end StreamDeed

/-! ## The invariant

`Asks` ties the calls to the events and the events to the numbers. Everything that the sinks are asked
for later begins with what they have been asked for so far. -/

/-- What a stream has asked of its sinks: to accept these events and, if it is closed, to close. -/
structure Stream.Asks (s : Stream) (events : List Event) (calls : List SinkCall) : Prop where
  calls : calls = events.map .accept ++ s.snapshot.elim [] fun n => [.close n.time]
  numbers : events.map (·.sequence) = List.range' 1 events.length
  next : s.next = 1 + events.length
  last : ∀ e ∈ events.dropLast, e.last = false
  closed : ∀ e ∈ events, e.last = true → s.closed = true

namespace Stream.Asks

variable {s : Stream} {events : List Event} {calls : List SinkCall}

theorem new (sinks : List Sink) : (Stream.new sinks).Asks [] [] :=
  ⟨rfl, rfl, rfl, by simp, by simp⟩

/-- What a deed asks of the sinks is the events that it adds, and the closing if it closes. -/
theorem deed (h : s.Asks events calls) (now : Nat) (d : StreamDeed) :
    (d.apply s now).Asks (events ++ numberedFrom s.next (d.events s)) (calls ++ d.calls s now) := by
  have happly := d.apply_eq s now
  have hsnapshot : (d.apply s now).snapshot =
      if d.closes s then some (.take now s.sinks) else s.snapshot := by rw [happly]
  cases hc : s.closed with
  | true =>
    -- Nothing is asked for any longer.
    have hevents := d.events_of_closed hc
    have hcloses := d.closes_of_closed hc
    simp only [hcloses, Bool.false_eq_true, if_false] at hsnapshot
    simp only [StreamDeed.calls, hevents, hcloses, numberedFrom, List.map_nil, List.append_nil,
      Bool.false_eq_true, if_false]
    exact {
      calls := by rw [hsnapshot]; exact h.calls
      numbers := h.numbers
      next := by rw [happly, hevents]; exact h.next
      last := h.last
      closed := fun e he hl => by rw [Stream.closed, hsnapshot]; exact h.closed e he hl }
  | false =>
    -- As long as the stream is open no event so far is marked as the last one, and of the new ones
    -- only the final one may be.
    have hopen (e : Event) (he : e ∈ events) : e.last = false := by
      cases hl : e.last with
      | false => rfl
      | true => exact absurd (h.closed e he hl) (by simp [hc])
    have hlast := last_numberedFrom s.next (d.events s)
    exact {
      calls := by
        rw [h.calls, Stream.closed_eq_false.mp hc, hsnapshot, StreamDeed.calls]
        cases d.closes s <;> simp [Stream.closed_eq_false.mp hc, Snapshot.take]
      numbers := by
        rw [List.map_append, h.numbers, sequence_numberedFrom, List.length_append,
          length_numberedFrom, h.next, List.range'_append_1]
      next := by rw [happly, List.length_append, length_numberedFrom, h.next, Nat.add_assoc]
      last := fun e he => by
        by_cases hnil : numberedFrom s.next (d.events s) = []
        · rw [hnil, List.append_nil] at he
          exact h.last e he
        · rw [List.dropLast_append_of_ne_nil hnil] at he
          rcases List.mem_append.mp he with he | he
          · exact hopen e he
          · have hmem := List.mem_map_of_mem (f := (·.last)) he
            rw [List.map_dropLast, hlast, ← List.map_dropLast] at hmem
            obtain ⟨f, hf, heq⟩ := List.mem_map.mp hmem
            exact heq.symm.trans (StreamDeed.last_of_mem_dropLast hf)
      closed := fun e he hl => by
        rcases List.mem_append.mp he with he | he
        · exact absurd (hopen e he) (by simp [hl])
        · have hmem := List.mem_map_of_mem (f := (·.last)) he
          rw [hlast] at hmem
          obtain ⟨f, hf, heq⟩ := List.mem_map.mp hmem
          rw [Stream.closed, hsnapshot, if_pos (StreamDeed.closes_of_last hf (heq.trans hl))]
          rfl }

theorem turn (h : s.Asks events calls) (t : StreamTurn) :
    ∃ more, (t.apply s).Asks (events ++ more) (calls ++ t.calls s) := by
  cases t with
  | deed now d => exact ⟨_, h.deed now d⟩
  | sink place change =>
    refine ⟨[], ?_⟩
    simp only [StreamTurn.calls, List.append_nil]
    exact ⟨h.calls, h.numbers, h.next, h.last, h.closed⟩

theorem after (sinks : List Sink) (turns : List StreamTurn) :
    ∃ events, ((Stream.new sinks).after turns).Asks events ((Stream.new sinks).asked turns) := by
  induction turns using List.reverseRecOn with
  | nil => exact ⟨[], .new sinks⟩
  | append_singleton turns t ih =>
    obtain ⟨events, h⟩ := ih
    obtain ⟨more, hmore⟩ := h.turn t
    rw [Stream.after_concat, Stream.asked_concat]
    exact ⟨events ++ more, hmore⟩

end Stream.Asks

/-! ## Closing

The snapshot is taken once, by the deed that closes the stream, and it is of the sinks as they are then. -/

namespace Snapshot

theorem entries_eq (sinks : List Sink) : (entries sinks).map (fun e => (e.place, e.name)) =
    (List.range sinks.length).zip (sinks.map Sink.name) := by
  refine List.ext_getElem (by simp [entries]) fun i _ _ => ?_
  simp [entries]

end Snapshot

namespace StreamTurn

variable {s : Stream} {n : Snapshot}

/-- The snapshot of a closed stream stays as it is. -/
theorem snapshot_of_closed (h : s.snapshot = some n) (t : StreamTurn) :
    (t.apply s).snapshot = some n := by
  cases t with
  | deed now d =>
    have hc : d.closes s = false := d.closes_of_closed (by rw [Stream.closed, h]; rfl)
    rw [apply, d.apply_eq, hc]
    exact h
  | sink place change => exact h

/-- A snapshot is taken by a deed that closes the stream. -/
theorem of_snapshot (hopen : s.snapshot = none) {t : StreamTurn}
    (h : (t.apply s).snapshot = some n) :
    ∃ now d, t = .deed now d ∧ d.closes s = true ∧ n = .take now s.sinks := by
  cases t with
  | deed now d =>
    rw [apply, d.apply_eq] at h
    cases hc : d.closes s with
    | true =>
      simp only [hc, if_true, Option.some.injEq] at h
      exact ⟨now, d, rfl, hc, h.symm⟩
    | false =>
      simp only [hc, Bool.false_eq_true, if_false, hopen] at h
      exact absurd h (by simp)
  | sink place change => exact absurd (hopen.symm.trans h) (by simp)

end StreamTurn

namespace Stream

variable {s : Stream} {n : Snapshot}

theorem snapshot_after (h : s.snapshot = some n) (turns : List StreamTurn) :
    (s.after turns).snapshot = some n := by
  induction turns generalizing s with
  | nil => exact h
  | cons t turns ih => exact ih (t.snapshot_of_closed h)

theorem length_sinks_after (s : Stream) (turns : List StreamTurn) :
    (s.after turns).sinks.length = s.sinks.length := by
  induction turns generalizing s with
  | nil => rfl
  | cons t turns ih =>
    refine (ih (t.apply s)).trans ?_
    rw [t.sinks_apply, t.length_touch, List.length_map]

/-- A stream that is closed was closed by one of the turns. -/
theorem exists_closes (hopen : s.snapshot = none) {turns : List StreamTurn}
    (h : (s.after turns).snapshot = some n) :
    ∃ before now d after, turns = before ++ .deed now d :: after ∧
      d.closes (s.after before) = true ∧ n = .take now (s.after before).sinks := by
  induction turns using List.reverseRecOn with
  | nil => exact absurd (hopen.symm.trans h) (by simp)
  | append_singleton turns t ih =>
    rw [after_concat] at h
    cases hs : (s.after turns).snapshot with
    | none =>
      obtain ⟨now, d, rfl, hd, rfl⟩ := StreamTurn.of_snapshot hs h
      exact ⟨turns, now, d, [], rfl, hd, rfl⟩
    | some m =>
      obtain rfl : m = n := Option.some.inj ((t.snapshot_of_closed hs).symm.trans h)
      obtain ⟨before, now, d, rest, rfl, hd, hn⟩ := ih hs
      exact ⟨before, now, d, rest ++ [t], by simp, hd, hn⟩

theorem closed_after (h : s.closed = true) (turns : List StreamTurn) :
    (s.after turns).closed = true := by
  obtain ⟨n, hn⟩ := Option.isSome_iff_exists.mp h
  rw [closed, snapshot_after hn turns]
  rfl

theorem abort_of_closed (h : s.closed = true) (t : StreamTurn) : (t.apply s).abort = s.abort := by
  cases t with
  | deed now d =>
    rw [StreamTurn.apply, d.apply_eq]
    cases d with
    | close reason => cases reason <;> simp [StreamDeed.abort, h]
    | _ => rfl
  | sink place change => rfl

/-- What a turn sets as the reason for which the stream was aborted. -/
theorem abort_apply {t : StreamTurn} {r : AbortReason} (h : (t.apply s).abort = some r) :
    s.abort = some r ∨ s.closed = false ∧ ∃ now, t = .deed now (.close (some r)) := by
  cases t with
  | deed now d =>
    rw [StreamTurn.apply, d.apply_eq] at h
    cases d with
    | close reason =>
      cases reason with
      | none => exact .inl h
      | some r' =>
        simp only [StreamDeed.abort] at h
        split at h
        · exact .inl h
        · next hc =>
          cases h
          exact .inr ⟨by simpa using hc, now, rfl⟩
    | _ => exact .inl h
  | sink place change => exact .inl h

/-- A stream is aborted for the reason for which a deed has closed it, if there was a reason. -/
theorem abort_after (habort : s.abort = none) (turns : List StreamTurn) (r : AbortReason) :
    (s.after turns).abort = some r ↔
      ∃ before now after, turns = before ++ .deed now (.close (some r)) :: after ∧
        (s.after before).closed = false := by
  induction turns using List.reverseRecOn with
  | nil => simp [after, habort]
  | append_singleton turns t ih =>
    rw [after_concat]
    constructor
    · intro h
      rcases abort_apply h with h | ⟨hc, now, rfl⟩
      · obtain ⟨before, now, rest, rfl, hc⟩ := ih.mp h
        exact ⟨before, now, rest ++ [t], by simp, hc⟩
      · exact ⟨turns, now, [], rfl, hc⟩
    · rintro ⟨before, now, rest, heq, hc⟩
      rcases concat_eq_append_cons heq with ⟨rfl, rfl, rfl⟩ | ⟨rest', rfl, rfl⟩
      · rw [StreamTurn.apply, StreamDeed.apply_eq]
        simp [StreamDeed.abort, hc]
      · -- The stream has been closed since, so no other turn can put another reason there.
        rw [abort_of_closed ?_ t]
        · exact ih.mpr ⟨before, now, rest', rfl, hc⟩
        · rw [List.append_cons, after_append, after_concat]
          exact closed_after (s := (s.after before).close now (some r)) (closed_close _ now _) rest'

/-- A deed that closes a stream takes everything from its listener. -/
theorem outputEvents_of_closes {now : Nat} {d : StreamDeed} (h : d.closes s = true) :
    (d.apply s now).outputEvents = [] := by
  have hlistener : d.listener s = s.listener.map fun l => l.take.1 := by
    cases d with
    | post e => simp [StreamDeed.listener, h]
    | close reason =>
      have hc : s.closed = false := by simpa [StreamDeed.closes] using h
      simp [StreamDeed.listener, hc]
    | _ => exact absurd h (by simp [StreamDeed.closes])
  rw [outputEvents, d.apply_eq, hlistener]
  cases s.listener with
  | none => rfl
  | some l => simp [Listener.take_take]

end Stream

/-! ## The result

For every list of turns there is one list of calls, the same for all sinks. -/

/-- What holds of a stream over sinks after some turns, and of the events that the sinks were handed. -/
structure Stream.FannedOut (sinks : List Sink) (turns : List StreamTurn) (events : List Event) :
    Prop where
  /-- Every turn asks the same of every sink. -/
  alike : ∀ before t after, turns = before ++ t :: after →
    ((new sinks).after (before ++ [t])).sinks = t.touch
      (((new sinks).after before).sinks.map (·.obeyAll (t.calls ((new sinks).after before))))
  /-- So sinks that nothing else befalls have all done the same. -/
  together : (∀ t ∈ turns, ∀ ks, t.touch ks = ks) → ((new sinks).after turns).sinks =
    sinks.map (·.obeyAll ((new sinks).asked turns))
  /-- All in all, to accept the events and then, if the stream is closed, to close once. -/
  asked : (new sinks).asked turns = events.map .accept ++
    ((new sinks).after turns).snapshot.elim [] fun n => [.close n.time]
  numbers : events.map (·.sequence) = List.range' 1 events.length
  /-- Only the final event can be marked as the last one; it closes the stream. -/
  last : ∀ e ∈ events.dropLast, e.last = false
  closed : ∀ e ∈ events, e.last = true → ((new sinks).after turns).closed = true
  /-- When the stream is closed, all that was captured goes out first, and nothing is left of it. -/
  output : ∀ before now d after, turns = before ++ .deed now d :: after →
    d.closes ((new sinks).after before) = true →
      (∃ final : Option Event, d.events ((new sinks).after before) =
        ((new sinks).after before).outputEvents ++ final.toList) ∧
      ((new sinks).after (before ++ [.deed now d])).outputEvents = []
  /-- Nothing is asked of the sinks of a closed stream. -/
  silent : ∀ before t after, turns = before ++ t :: after →
    ((new sinks).after before).closed = true → t.calls ((new sinks).after before) = []
  /-- The snapshot has an entry for each signal of every sink. -/
  entries : ∀ n, ((new sinks).after turns).snapshot = some n →
    ∃ before now d after, turns = before ++ .deed now d :: after ∧
      d.closes ((new sinks).after before) = true ∧ n.half = n.done ∧
      n.done.map (fun e => (e.place, e.name)) =
        (List.range sinks.length).zip ((new sinks).after before).names
  /-- It is the one of the first time that the stream was closed. -/
  snapshot : ∀ before after n, turns = before ++ after →
    ((new sinks).after before).snapshot = some n → ((new sinks).after turns).snapshot = some n
  abort : ∀ r, ((new sinks).after turns).abort = some r ↔
    ∃ before now after, turns = before ++ .deed now (.close (some r)) :: after ∧
      ((new sinks).after before).closed = false

/-- **Every sink of a stream is handed the same**: events numbered from one, and to close at the end. -/
theorem Stream.fanned_out (sinks : List Sink) (turns : List StreamTurn) :
    ∃ events, FannedOut sinks turns events := by
  obtain ⟨events, h⟩ := Asks.after sinks turns
  refine ⟨events, ?_⟩
  exact {
    alike := fun before t after _ => by
      rw [after_concat]
      exact t.sinks_apply _
    together := fun htouch => sinks_after (new sinks) htouch
    asked := h.calls
    numbers := h.numbers
    last := h.last
    closed := h.closed
    output := fun before now d after _ hd => by
      obtain ⟨output, final, heq, -, houtput, -⟩ :=
        StreamDeed.exists_events_eq ((new sinks).after before) d
      refine ⟨⟨final, by rw [heq, houtput hd]⟩, ?_⟩
      rw [after_concat]
      exact outputEvents_of_closes hd
    silent := fun before t after _ hc => by
      cases t with
      | deed now d =>
        simp [StreamTurn.calls, StreamDeed.calls, StreamDeed.events_of_closed hc,
          StreamDeed.closes_of_closed hc, numberedFrom]
      | sink place change => rfl
    entries := fun n hn => by
      obtain ⟨before, now, d, rest, heq, hd, rfl⟩ := exists_closes rfl hn
      refine ⟨before, now, d, rest, heq, hd, rfl, ?_⟩
      have hlength := length_sinks_after (new sinks) before
      rw [← show _ = sinks.length from hlength]
      exact Snapshot.entries_eq _
    snapshot := fun before after n heq hn => by
      rw [heq, after_append]
      exact snapshot_after hn after
    abort := abort_after rfl turns }

end EventUpload
