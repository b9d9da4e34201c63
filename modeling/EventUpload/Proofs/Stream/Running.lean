import EventUpload.Proofs.Sink.Conduct

/-!
# Streams over channels

While nobody watches the sinks of a stream, they accept everything that the stream hands over, and are
closed when it is (`Stream.Running.deed`). Once the stream is closed, nothing that is done to it touches
its channels any more (`Stream.Kept.deed`).

The two predicates are those of single sinks (`Sink.Running`, `Sink.Kept`) for all sinks of a stream at
once, with its next number for the number of events that a channel has taken, and with its being open
for theirs. That a deed resolves a signal of a channel from outside need not be excluded by a
hypothesis: it has no effect on a channel (`touch_of_kept`).

The parameter `told` is some proposition about the log of a lifecycle. It only ever becomes true, and
streams do not look at it.
-/

set_option autoImplicit false

namespace EventUpload

namespace Stream

variable {s : Stream} {told told' : Prop}

/-- Every sink of the stream is a channel that has accepted its events. -/
def Kept (s : Stream) (told : Prop) : Prop := ∀ k ∈ s.sinks, k.Kept s.next told

/-- Besides, nobody watches the sinks or has cancelled them, and they are open if the stream is. -/
structure Running (s : Stream) (told : Prop) : Prop where
  next : 1 ≤ s.next
  sinks : ∀ k ∈ s.sinks, k.Running s.next told (s.closed = false)

theorem Running.kept (h : s.Running told) : s.Kept told := fun k hk => (h.sinks k hk).kept

theorem Kept.mono (h : s.Kept told) (htold : told → told') : s.Kept told' :=
  fun k hk => (h k hk).mono htold

theorem Running.mono (h : s.Running told) (htold : told → told') : s.Running told' :=
  ⟨h.next, fun k hk => (h.sinks k hk).mono htold⟩

theorem Running.new {sinks : List Sink} (h : ∀ k ∈ sinks, ∃ bound name destination,
    k = .new bound (.channel (.new name destination))) : (Stream.new sinks).Running told := by
  refine ⟨Nat.le_refl 1, fun k hk => ?_⟩
  obtain ⟨bound, name, destination, rfl⟩ := h k hk
  exact .new bound name destination

/-- Nobody resolves the signals of a channel but the channel itself. -/
theorem touch_of_kept {next : Nat} {sinks : List Sink} (h : ∀ k ∈ sinks, k.Kept next told)
    (d : StreamDeed) : d.touch sinks = sinks := by
  cases d with
  | resolve i half o =>
    show sinks.modify i (·.resolve half o) = sinks
    refine List.ext_getElem? fun j => ?_
    rw [List.getElem?_modify]
    cases hk : sinks[j]? with
    | none => rfl
    | some k =>
      have hsame := (h k (List.mem_of_getElem? hk)).resolve_eq half o
      by_cases hij : i = j <;> simp [hij, hsame]
  | _ => rfl

/-- What is done to a closed stream touches neither its sinks nor its numbers. -/
theorem Kept.deed (h : s.Kept told) (hclosed : s.closed = true) (d : StreamDeed) (now : Nat) :
    (d.apply s now).sinks = s.sinks ∧ (d.apply s now).next = s.next ∧
      (d.apply s now).closed = true := by
  have hevents := d.events_of_closed hclosed
  have hcloses := d.closes_of_closed hclosed
  have hcalls : d.calls s now = [] := by simp [StreamDeed.calls, hevents, hcloses, numberedFrom]
  rw [d.apply_eq]
  refine ⟨?_, ?_, ?_⟩
  · simp only [hcalls, Sink.obeyAll_nil, List.map_id']
    exact touch_of_kept h d
  · simp [hevents]
  · simpa [hcloses, closed] using hclosed

/-- **What is done to a stream** its sinks go along with. -/
theorem Running.deed (h : s.Running told) (d : StreamDeed) (now : Nat) :
    (d.apply s now).Running told := by
  cases hclosed : s.closed with
  -- A stream that has been closed asks its sinks for nothing any more.
  | true =>
    obtain ⟨hsinks, hnext, hclosed'⟩ := h.kept.deed hclosed d now
    refine ⟨hnext ▸ h.next, fun k hk => ?_⟩
    rw [hsinks] at hk
    rw [hnext, hclosed', ← hclosed]
    exact h.sinks k hk
  | false =>
    -- An open one hands the new events over first and may then tell the sinks to close.
    have haccepted (k : Sink) (hk : k ∈ s.sinks) :
        (k.obeyAll ((numberedFrom s.next (d.events s)).map .accept)).Running
          (s.next + (d.events s).length) told True := by
      refine Sink.Running.acceptAll _ ?_ trivial h.next
      exact (h.sinks k hk).weaken fun _ => hclosed
    have hobeyed (k : Sink) (hk : k ∈ s.sinks) : (k.obeyAll (d.calls s now)).Running
        (s.next + (d.events s).length) told ((d.apply s now).closed = false) := by
      rw [StreamDeed.calls, Sink.obeyAll_append]
      cases hcloses : d.closes s with
      | true =>
        refine ((haccepted k hk).close now).weaken fun hopen => ?_
        rw [d.apply_eq] at hopen
        simp [closed, hcloses] at hopen
      | false => exact (haccepted k hk).weaken fun _ => trivial
    have hkept : ∀ k ∈ s.sinks.map (·.obeyAll (d.calls s now)),
        k.Kept (s.next + (d.events s).length) told := by
      intro k hk
      obtain ⟨k, hmem, rfl⟩ := List.mem_map.mp hk
      exact (hobeyed k hmem).kept
    have hnext : (d.apply s now).next = s.next + (d.events s).length := by rw [d.apply_eq]
    have hsinks : (d.apply s now).sinks = s.sinks.map (·.obeyAll (d.calls s now)) := by
      rw [d.apply_eq]
      exact touch_of_kept hkept d
    refine ⟨?_, fun k hk => ?_⟩
    · rw [hnext]
      exact Nat.le_add_right_of_le h.next
    · rw [hsinks] at hk
      obtain ⟨k, hmem, rfl⟩ := List.mem_map.mp hk
      rw [hnext]
      exact hobeyed k hmem

end Stream

end EventUpload
