import EventUpload.Proofs.Growing
import EventUpload.Proofs.Sink.Uploads

/-!
# Batches and what has been gathered for the next one

The writer in front of a backend gathers events until they fill a batch, hands the batch over and starts
again; what is left at the end makes the last batch, which may be empty. A writer is `Gathering` between
two deliveries and `Delivering` during one. Both say which events the batches so far are made of, and
with them every batch turns out to be full (`Batch.Full`), the last one to be shorter
(`Batch.Complete`), and all of them to say where they start (`Batch.Numbered`).

A batch says where it starts in one of two ways, by the number of its first event, or, if it is empty,
by the number behind the last event that was handed over before it. `Numbered` has both in one equation,
and speaks of every batch with what came before it, so that it can be carried through an induction
(`Numbered.concat`). Only for a stream that is numbered from one does the equation become the count of
the events before (`Numbered.first`). A writer never looks at its events, and would number batches of
any other stream in the same way; the assumption on the stream is made where it is used and not built
in.

`Complete.exact` is the arithmetic that belongs to it: how many batches there are is the number of
events divided by the size of a batch, and one more for the last. That the last one is always there,
even empty, is what tells the backend that the stream is over.
-/

set_option autoImplicit false

namespace EventUpload

/-! ## Batches in a row

Facts about lists of batches, without a writer. -/

namespace Batch

/-- The events of some batches, one after the other. -/
def contents (batches : List Batch) : List Event := batches.flatMap Batch.events

theorem contents_concat (batches : List Batch) (batch : Batch) :
    contents (batches ++ [batch]) = contents batches ++ batch.events := by
  rw [contents, List.flatMap_append, List.flatMap_singleton, contents]

/-- The number of the last of some events, or zero if there are none. -/
def lastNumber (events : List Event) : Nat := (events.getLast?.map (·.sequence)).getD 0

theorem lastNumber_concat (batches : List Batch) (batch : Batch) :
    lastNumber (contents (batches ++ [batch])) =
      batch.lastNumber?.getD (lastNumber (contents batches)) := by
  rw [contents_concat, lastNumber, List.getLast?_append, Batch.lastNumber?, lastNumber]
  cases batch.events.getLast? <;> rfl

/-- Every batch says where it starts: at its first event, or behind the last event before it. -/
def Numbered (sent : List Batch) : Prop :=
  ∀ before batch after, sent = before ++ batch :: after → batch.firstSequence =
    (batch.events.head?.map (·.sequence)).getD (lastNumber (contents before) + 1)

theorem Numbered.concat {sent : List Batch} {batch : Batch} (h : Numbered sent)
    (hbatch : batch.firstSequence =
      (batch.events.head?.map (·.sequence)).getD (lastNumber (contents sent) + 1)) :
    Numbered (sent ++ [batch]) := forall_cut_concat h hbatch

/-- In a stream that is numbered from one the numbers count the events. -/
theorem sequence_of_getElem? {part events : List Event} (h : part <+: events)
    (hstream : events.map (·.sequence) = List.range' 1 events.length) {i : Nat} {e : Event}
    (hi : part[i]? = some e) : e.sequence = i + 1 := by
  obtain ⟨rest, rfl⟩ := h
  obtain ⟨hlt, -⟩ := List.getElem?_eq_some_iff.mp hi
  have hnumber := congrArg (·[i]?) hstream
  simp only [List.getElem?_map, List.getElem?_append_left hlt, hi, Option.map_some] at hnumber
  rw [List.getElem?_range' (by rw [List.length_append]; omega), Option.some.injEq] at hnumber
  omega

/-- In a stream that is numbered from one, a batch starts behind the events before it. -/
theorem Numbered.first {sent before after : List Batch} {batch : Batch} {events : List Event}
    (h : Numbered sent) (heq : sent = before ++ batch :: after) (hsent : contents sent <+: events)
    (hstream : events.map (·.sequence) = List.range' 1 events.length) :
    batch.firstSequence = 1 + (contents before).length := by
  have hsplit : contents sent = contents before ++ (batch.events ++ contents after) := by
    rw [heq, contents, List.flatMap_append, List.flatMap_cons]
    rfl
  rw [h before batch after heq]
  -- A batch without events, as the last one may be, is counted on from the event before it.
  cases hevents : batch.events with
  | cons e events =>
    have hi : (contents sent)[(contents before).length]? = some e := by
      rw [hsplit, hevents]
      simp
    rw [List.head?_cons, Option.map_some, Option.getD_some, sequence_of_getElem? hsent hstream hi,
      Nat.add_comm]
  | nil =>
    rw [List.head?_nil, Option.map_none, Option.getD_none, Nat.add_comm, lastNumber]
    cases hlast : (contents before).getLast? with
    | none =>
      rw [List.getLast?_eq_none_iff.mp hlast]
      rfl
    | some e =>
      have hpos : 0 < (contents before).length := by
        rw [List.length_pos_iff]
        rintro hnil
        simp [hnil] at hlast
      have hi : (contents sent)[(contents before).length - 1]? = some e := by
        rw [hsplit, List.getElem?_append_left (by omega), ← List.getLast?_eq_getElem?, hlast]
      rw [Option.map_some, Option.getD_some, sequence_of_getElem? hsent hstream hi]
      omega

/-- All batches have the given size, and none is the last one. -/
def Full (b : Nat) (sent : List Batch) : Prop :=
  ∀ batch ∈ sent, batch.last = false ∧ batch.events.length = b

theorem Full.length_contents {b : Nat} {sent : List Batch} (h : Full b sent) :
    (contents sent).length = sent.length * b := by
  induction sent with
  | nil => simp [contents]
  | cons batch sent ih =>
    have hmore := ih fun other hother => h other (List.mem_cons_of_mem _ hother)
    rw [contents] at hmore
    rw [contents, List.flatMap_cons, List.length_append, hmore, (h batch (by simp)).2,
      List.length_cons, Nat.succ_mul, Nat.add_comm]

/-- Full batches and the last one, which has fewer events. -/
structure Complete (b : Nat) (sent : List Batch) : Prop where
  batches : ∃ full final, sent = full ++ [final] ∧ Full b full ∧ final.last = true ∧
    final.events.length < b

theorem Complete.exact {b : Nat} {sent : List Batch} (h : Complete b sent) :
    ∃ full final, sent = full ++ [final] ∧ Full b full ∧ final.last = true ∧
      full.length = (contents sent).length / b ∧
      final.events.length = (contents sent).length % b := by
  obtain ⟨full, final, rfl, hfull, hlast, hlt⟩ := h.batches
  have hlength : final.events.length + b * full.length = (contents (full ++ [final])).length := by
    rw [contents_concat, List.length_append, hfull.length_contents, Nat.mul_comm, Nat.add_comm]
  obtain ⟨hdiv, hmod⟩ := (Nat.div_mod_unique (by omega)).mpr ⟨hlength, hlt⟩
  exact ⟨full, final, rfl, hfull, hlast, hdiv.symm, hmod.symm⟩

end Batch

/-! ## What a writer has gathered

A writer has what is not yet handed over, and knows the number behind what is. -/

open Batch

/-- A writer between two deliveries, which has handed over full batches of some events and has
gathered the rest of them. -/
structure Gathering (b : Nat) (sent : List Batch) (w : BackendWriter) (events : List Event) :
    Prop where
  idle : w.onTheWay = none
  lastSent : w.lastSent = lastNumber (contents sent)
  full : Full b sent
  few : w.gathered.length < b
  events : contents sent ++ w.gathered = events

/-- A writer that has handed over all of some events and waits for the last batch to arrive. -/
structure Delivering (sent : List Batch) (w : BackendWriter) (events : List Event) : Prop where
  batch : ∃ before batch n, sent = before ++ [batch] ∧ w.onTheWay = some (batch, n) ∧
    w.lastSent = lastNumber (contents before)
  gathered : w.gathered = []
  events : contents sent = events

variable {b : Nat} {sent : List Batch} {w : BackendWriter} {events : List Event}

theorem Gathering.gathers (h : Gathering b sent w events) (e : Event)
    (hlt : w.gathered.length + 1 < b) : Gathering b sent (w.gathering e) (events ++ [e]) where
  idle := h.idle
  lastSent := h.lastSent
  full := h.full
  few := by simpa [BackendWriter.gathering] using hlt
  events := by rw [← h.events, List.append_assoc]; rfl

/-- Whatever is handed over, the batch starts where it has to. -/
theorem Gathering.handsOver (h : Gathering b sent w events) (hnumbered : Numbered sent)
    {v : BackendWriter} (hv : v.lastSent = w.lastSent) {more : List Event}
    (hgathered : v.gathered = w.gathered ++ more) (last : Bool) (n : Nat) :
    Delivering (sent ++ [v.batch last]) (v.handedOver last n) (events ++ more) ∧
      Numbered (sent ++ [v.batch last]) := by
  refine ⟨⟨⟨sent, _, n, rfl, rfl, hv.trans h.lastSent⟩, rfl, ?_⟩, hnumbered.concat ?_⟩
  · rw [contents_concat, ← h.events, List.append_assoc, ← hgathered]
    rfl
  · rw [← h.lastSent, ← hv]
    rfl

theorem Gathering.fills (h : Gathering b sent w events) (e : Event)
    (hle : b ≤ w.gathered.length + 1) : Full b (sent ++ [(w.gathering e).batch false]) := by
  intro batch hbatch
  rcases List.mem_append.mp hbatch with hbatch | hbatch
  · exact h.full batch hbatch
  · obtain rfl := List.mem_singleton.mp hbatch
    have hfew := h.few
    refine ⟨rfl, ?_⟩
    simp only [BackendWriter.batch, BackendWriter.gathering, List.length_append,
      List.length_singleton]
    omega

theorem Gathering.completes (h : Gathering b sent w events) : Complete b (sent ++ [w.batch true]) :=
  ⟨_, _, rfl, h.full, rfl, h.few⟩

theorem Gathering.delivered_eq (h : Gathering b sent w events) : w.delivered = w := by
  rw [BackendWriter.delivered, h.idle]

theorem Delivering.delivered (h : Delivering sent w events) : w.delivered.onTheWay = none ∧
    w.delivered.lastSent = lastNumber (contents sent) ∧ w.delivered.gathered = [] := by
  obtain ⟨before, batch, n, rfl, hway, hlast⟩ := h.batch
  rw [BackendWriter.delivered, hway]
  exact ⟨rfl, by rw [lastNumber_concat, ← hlast], h.gathered⟩

theorem Delivering.gathering (h : Delivering sent w events) (hfull : Full b sent) (hb : 0 < b) :
    Gathering b sent w.delivered events := by
  obtain ⟨hidle, hlast, hgathered⟩ := h.delivered
  exact ⟨hidle, hlast, hfull, by rwa [hgathered], by rw [hgathered, List.append_nil, h.events]⟩

end EventUpload
