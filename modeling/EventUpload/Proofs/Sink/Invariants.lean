import EventUpload.Lifecycle.State

/-!
# Invariants of channels and sinks

Whatever goes on behind a sink is a turn of its channel or the end of it: settling a sink, its watch and
giving it up come to that. So what is known of a channel and of the outside is known for good if turns
and cancelling do not lead out of it (`Channel.Abides`), and this holds of all the sinks in a row
(`Channel.Abides.settleSinks`). What is known of a destination is known for good if no piece of work
leads out of it (`Destination.Abides.channel`).

An invariant has two parts, one of the channel and one of the outside, because each step reads and
changes both: writing a file needs to know what is in the store, and what is in the store changes by it.
They are kept apart so that the sinks of a stream, which share one outside, can each have a part of
their own while there is only one part of the outside (`Lifecycle.Keeping`).

Nothing is asked about accepting events and being closed, which come from the host and not from behind
the sink; an invariant for which they matter has to say so itself (`Channel.Takes`).
-/

set_option autoImplicit false

namespace EventUpload

/-- What is known of a channel and of the outside, and what the channel does does not change. -/
structure Channel.Abides (C : Channel → Prop) (O : Outside → Prop) : Prop where
  step : ∀ {c d : Channel} {outside outside' : Outside} {now : Nat} {errors : List SinkError},
    C c → O outside → c.step? outside now = some (d, outside', errors) → C d ∧ O outside'
  cancel : ∀ {c : Channel} {outside : Outside},
    C c → O outside → C (c.cancel outside).1 ∧ O (c.cancel outside).2

/-- The same of a destination and of the outside, whatever work is done. -/
structure Destination.Abides (D : Destination → Prop) (O : Outside → Prop) : Prop where
  begin : ∀ {d : Destination} {outside : Outside} (work : Work),
    D d → O outside → D (d.begin outside work).1 ∧ O (d.begin outside work).2.1
  finish : ∀ {d : Destination} {outside : Outside} (work : Work),
    D d → O outside → D (d.finish outside work).1 ∧ O (d.finish outside work).2.1
  release : ∀ {d : Destination} {outside : Outside}, D d → O outside → O (d.release outside)

/-- The same of a sink: there is something to be known if it has a channel. -/
def Sink.Has (C : Channel → Prop) (s : Sink) : Prop := ∀ c, s.body = .channel c → C c

theorem Sink.has_of_responder {C : Channel → Prop} {s : Sink} {r : Responder}
    (h : s.body = .responder r) : s.Has C :=
  fun _ hc => absurd (h.symm.trans hc) (by simp)

namespace Channel.Abides

variable {C : Channel → Prop} {O : Outside → Prop} {outside : Outside} {s : Sink} {sinks : List Sink}

theorem run (h : Abides C O) (now steps : Nat) {c : Channel} (hc : C c) (ho : O outside) :
    C (Channel.run steps c outside now).1 ∧ O (Channel.run steps c outside now).2.1 := by
  induction steps generalizing c outside with
  | zero => exact ⟨hc, ho⟩
  | succ steps ih =>
    unfold Channel.run
    cases hstep : c.step? outside now with
    | none => exact ⟨hc, ho⟩
    | some out =>
      obtain ⟨d, outside', errors⟩ := out
      obtain ⟨hd, ho'⟩ := h.step hc ho hstep
      exact ih hd ho'

/-! ## One sink -/

theorem advance (h : Abides C O) (now : Nat) (hs : s.Has C) (ho : O outside) :
    (s.advance outside now).1.Has C ∧ O (s.advance outside now).2.1 := by
  obtain ⟨bound, body, watch⟩ := s
  cases body with
  | responder r => exact ⟨Sink.has_of_responder rfl, ho⟩
  | channel c =>
    obtain ⟨hd, ho'⟩ := h.run now (c.patience outside) (hs c rfl) ho
    refine ⟨fun d heq => ?_, ho'⟩
    cases heq
    exact hd

theorem cancelSink (h : Abides C O) (hs : s.Has C) (ho : O outside) :
    (s.cancel outside).1.Has C ∧ O (s.cancel outside).2 := by
  obtain ⟨bound, body, watch⟩ := s
  cases body with
  | responder r => exact ⟨Sink.has_of_responder rfl, ho⟩
  | channel c =>
    obtain ⟨hd, ho'⟩ := h.cancel (hs c rfl) ho
    refine ⟨fun d heq => ?_, ho'⟩
    cases heq
    exact hd

theorem watchDone (h : Abides C O) (now : Nat) (hs : s.Has C) (ho : O outside) :
    (s.watchDone outside now).1.Has C ∧ O (s.watchDone outside now).2 := by
  unfold Sink.watchDone
  split
  · exact ⟨hs, ho⟩
  · split
    · exact ⟨hs, ho⟩
    · split
      · exact ⟨hs, ho⟩
      · split
        · exact ⟨hs, ho⟩
        · exact h.cancelSink (fun c hc => hs c hc) ho

theorem watchHalf (h : Abides C O) (now : Nat) (hs : s.Has C) (ho : O outside) :
    (s.watchHalf outside now).1.Has C ∧ O (s.watchHalf outside now).2 := by
  unfold Sink.watchHalf
  split
  · exact ⟨hs, ho⟩
  · split
    · exact ⟨hs, ho⟩
    · split
      · exact ⟨hs, ho⟩
      · split
        · exact ⟨hs, ho⟩
        · exact h.cancelSink (fun c hc => hs c hc) ho

theorem settle (h : Abides C O) (now : Nat) (hs : s.Has C) (ho : O outside) :
    (s.settle outside now).1.Has C ∧ O (s.settle outside now).2.1 := by
  obtain ⟨hadvanced, ho⟩ := h.advance now hs ho
  obtain ⟨hdone, ho⟩ := h.watchDone now hadvanced ho
  exact h.watchHalf now hdone ho

theorem giveUp (h : Abides C O) (hs : s.Has C) (ho : O outside) :
    (s.giveUp outside).1.Has C ∧ O (s.giveUp outside).2 :=
  h.cancelSink (fun c hc => hs c hc) ho

/-! ## Sinks in a row

The outside goes from sink to sink, so what is known of it has to be kept by each. -/

theorem settleSinks (h : Abides C O) (now : Nat) (hs : ∀ s ∈ sinks, s.Has C) (ho : O outside) :
    (∀ s ∈ (Lifecycle.settleSinks now sinks outside).1, s.Has C) ∧
      O (Lifecycle.settleSinks now sinks outside).2.1 := by
  induction sinks generalizing outside with
  | nil => exact ⟨hs, ho⟩
  | cons s rest ih =>
    obtain ⟨hsettled, ho⟩ := h.settle now (hs s (by simp)) ho
    obtain ⟨hrest, ho⟩ := ih (fun t ht => hs t (List.mem_cons_of_mem s ht)) ho
    refine ⟨fun t ht => ?_, ho⟩
    rcases List.mem_cons.mp ht with rfl | ht
    · exact hsettled
    · exact hrest t ht

theorem giveUpSinks (h : Abides C O) (hs : ∀ s ∈ sinks, s.Has C) (ho : O outside) :
    (∀ s ∈ (Lifecycle.overSinks Sink.giveUp sinks outside).1, s.Has C) ∧
      O (Lifecycle.overSinks Sink.giveUp sinks outside).2 := by
  induction sinks generalizing outside with
  | nil => exact ⟨hs, ho⟩
  | cons s rest ih =>
    obtain ⟨hgiven, ho⟩ := h.giveUp (hs s (by simp)) ho
    obtain ⟨hrest, ho⟩ := ih (fun t ht => hs t (List.mem_cons_of_mem s ht)) ho
    refine ⟨fun t ht => ?_, ho⟩
    rcases List.mem_cons.mp ht with rfl | ht
    · exact hgiven
    · exact hrest t ht

end Channel.Abides

/-! ## Destinations -/

namespace Destination.Abides

variable {D : Destination → Prop} {O : Outside → Prop} {c : Channel} {outside : Outside}

theorem conclude (h : Abides D O) (now : Nat) (hc : D c.destination) (ho : O outside) (work : Work)
    (verdict : Verdict) : D (c.conclude outside now work verdict).1.destination ∧
      O (c.conclude outside now work verdict).2.1 := by
  cases verdict with
  | again pause => exact ⟨hc, ho⟩
  | failed reason =>
    cases work with
    | write e => exact ⟨hc, ho⟩
    | flush => exact ⟨hc, h.release hc ho⟩
    | acknowledge => exact ⟨hc, h.release hc ho⟩
  | ok =>
    cases work with
    | write e => exact ⟨hc, ho⟩
    | flush => exact h.begin .acknowledge hc ho
    | acknowledge => exact ⟨hc, h.release hc ho⟩

/-- **A channel does nothing but the work of its destination.** -/
theorem channel (h : Abides D O) : Channel.Abides (fun c => D c.destination) O where
  step := by
    intro c d outside outside' now errors hc ho hstep
    unfold Channel.step? at hstep
    split at hstep
    · exact absurd hstep (by simp)
    -- A piece of work ends, and what follows may begin another one.
    · next work wake _ =>
      split at hstep
      · obtain ⟨hdone, ho'⟩ := h.finish work hc ho
        generalize c.destination.finish outside work = finished at hstep hdone ho'
        obtain ⟨destination, outside₁, verdict⟩ := finished
        have hconcluded := h.conclude (c := { c with destination := destination }) now hdone ho'
          work verdict
        rw [Option.some.inj hstep] at hconcluded
        exact hconcluded
      · exact absurd hstep (by simp)
    · split at hstep
      · cases hstep
        exact ⟨hc, ho⟩
      · next e queue _ _ =>
        cases hstep
        exact h.begin (.write e) hc ho
      · split at hstep
        · split at hstep
          · cases hstep
            exact ⟨hc, h.release hc ho⟩
          · cases hstep
            exact h.begin .flush hc ho
        · exact absurd hstep (by simp)
  -- Cancelling releases the destination if work on it was under way.
  cancel := by
    intro c outside hc ho
    unfold Channel.cancel
    split
    · exact ⟨hc, ho⟩
    · dsimp only
      split
      · exact ⟨hc, ho⟩
      · exact ⟨hc, h.release hc ho⟩

end Destination.Abides

/-- A channel that has stopped does nothing any more. -/
theorem Channel.Abides.orStopped {C : Channel → Prop} {O : Outside → Prop} (h : Channel.Abides C O) :
    Channel.Abides (fun c => c.stage = .stopped ∨ C c) O where
  step := by
    rintro c d outside outside' now errors (hstopped | hc) ho hstep
    · unfold Channel.step? at hstep
      rw [hstopped] at hstep
      exact absurd hstep (by simp)
    · exact (h.step hc ho hstep).imp_left .inr
  cancel := by
    rintro c outside (hstopped | hc) ho
    · have hcancel : (c.cancel outside).1.stage = .stopped ∧ (c.cancel outside).2 = outside := by
        obtain ⟨name, destination, queue, closing, cancelled, failure, stage, written, signals⟩ := c
        cases hstopped
        cases cancelled <;> exact ⟨rfl, rfl⟩
      rw [hcancel.2]
      exact ⟨.inl hcancel.1, ho⟩
    · exact (h.cancel hc ho).imp_left .inr

end EventUpload
