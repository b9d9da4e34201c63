import EventUpload.Proofs.Sink.Conduct

/-!
# Sinks that are done with

Cancelling a sink resolves what is unresolved, and a channel does not stop before it has. So a sink that
has been cancelled or has stopped is done with, whatever it did before: `Sink.Sound`. A sink like that
has an outcome as soon as it is given up (`Sink.Sound.done_giveUp`), even if its watch was still waiting
for one.

`Sink.Sound` is kept by everything that a sink does by itself and by everything that is ever done to it.
It is not true of every state that the types allow: a channel could be marked as cancelled and have open
signals. That is why it is an invariant of runs and why sinks that are handed over are asked for it
(`Sink.Fresh`). Both kinds of sinks there are come into being with it, channels (`Fresh.channel`) and
responders (`Fresh.responder`).

`StreamDeed.keeps` is here because this is the first invariant that goes through all deeds: it reduces
them to the three single things that can be done to a sink, to be asked to accept, to be closed, and to
have a signal resolved from outside.
-/

set_option autoImplicit false

namespace EventUpload

/-- A channel that was cancelled or has stopped is done. -/
def Channel.Sound (c : Channel) : Prop :=
  c.cancelled = true ∨ c.stage = .stopped → c.signals.done.isSome = true

/-- A responder that was cancelled is done. -/
def Responder.Sound (r : Responder) : Prop :=
  r.cancelled = true → r.signals.done.isSome = true

theorem Signals.Upto.done_isSome {s t : Signals} (h : s.Upto t) (hs : s.done.isSome = true) :
    t.done.isSome = true := by
  obtain ⟨o, ho⟩ := Option.isSome_iff_exists.mp hs
  rw [h.done o ho]
  rfl

theorem Signals.done_cancel (s : Signals) (sink : String) : (s.cancel sink).done.isSome = true :=
  Signal.isSome_resolve _ _

/-! ## Channels -/

namespace Channel.Sound

variable {c d : Channel} {outside : Outside}

theorem new (name : String) (destination : Destination) :
    (Channel.new name destination).Sound := by
  rintro (h | h)
  · exact absurd h (by simp [Channel.new])
  · exact absurd h (by simp [Channel.new])

/-- The worker only stops when it has resolved the signals. -/
theorem does {ended : List (Work × Verdict)} {errors : List SinkError} (h : c.Sound)
    (hd : c.Does d ended errors) : d.Sound := by
  have hsignals := hd.onward.signals
  -- A turn that does not stop the worker leaves it sound because it was not cancelled before.
  have hgoing (hstage : d.stage ≠ .stopped) : d.Sound := by
    rintro (hcancelled | hstopped)
    · rw [hd.keeps.2.2] at hcancelled
      exact hsignals.done_isSome (h (.inl hcancelled))
    · exact absurd hstopped hstage
  cases hd with
  | leftOut => exact hgoing (by simp)
  | begun => exact hgoing (by simp)
  | flushes => exact hgoing (by simp)
  | again => exact hgoing (by simp)
  | wrote => exact hgoing (by simp)
  | writeFailed => exact hgoing (by simp)
  | flushed => exact hgoing (by simp)
  | gaveUp => exact fun _ => Signal.isSome_resolve _ _
  | flushFailed => exact fun _ => Signal.isSome_resolve _ _
  | acknowledged => exact fun _ => Signal.isSome_resolve _ _
  | acknowledgeFailed => exact fun _ => Signal.isSome_resolve _ _

theorem accept (h : c.Sound) (e : Event) : (c.accept e).Sound := by
  unfold Channel.accept
  split
  · exact h
  · exact h

theorem cancel (h : c.Sound) (outside : Outside) : (c.cancel outside).1.Sound := by
  unfold Channel.cancel
  split
  · exact h
  · cases hs : c.stage with
    | stopped => exact fun _ => h (.inr hs)
    | ready => exact fun _ => Signals.done_cancel _ _
    | working work wake => exact fun _ => Signals.done_cancel _ _

/-- Cancelling a sound channel resolves what is unresolved, and nothing else. -/
theorem done_cancel (h : c.Sound) (outside : Outside) : (c.cancel outside).1.signals.done =
    c.signals.done.resolve (.failed (.cancelled c.name)) := by
  have hdone (hc : c.cancelled = true ∨ c.stage = .stopped) :
      c.signals.done = c.signals.done.resolve (.failed (.cancelled c.name)) := by
    obtain ⟨o, ho⟩ := Option.isSome_iff_exists.mp (h hc)
    rw [ho]
    rfl
  unfold Channel.cancel
  split
  · next hc => exact hdone (.inl hc)
  · cases hs : c.stage with
    | stopped => exact hdone (.inr hs)
    | ready => rfl
    | working work wake => rfl

end Channel.Sound

/-! ## Sinks -/

namespace Sink

/-- A sink that was cancelled or has stopped is done. -/
def Sound (s : Sink) : Prop :=
  match s.body with
  | .responder r => r.Sound
  | .channel c => c.Sound

/-- A sink that is handed over: nobody watches it yet, and if it was cancelled it is done. -/
structure Fresh (s : Sink) : Prop where
  unwatched : s.watch = none
  sound : s.Sound

variable {s t : Sink} {now : Nat} {errors : List SinkError}

theorem Fresh.channel (bound : Nat) (name : String) (destination : Destination) :
    (Sink.new bound (.channel (.new name destination))).Fresh :=
  ⟨rfl, .new name destination⟩

theorem Fresh.responder (bound : Nat) (name : String) (halfAfter : Option Nat)
    (doneAfter : Option (Nat × Outcome)) :
    (Sink.new bound (.responder (.new name halfAfter doneAfter))).Fresh :=
  ⟨rfl, fun hc => absurd hc (by simp [Responder.new])⟩

namespace Sound

/-- A responder goes where it wants, as long as it is not cancelled on the way. -/
theorem ofResponder {bound : Nat} {watch : Option Watch} {r q : Responder} (h : r.Sound)
    (honward : r.Onward q) (hc : q.cancelled = r.cancelled) :
    Sound ⟨bound, .responder q, watch⟩ :=
  fun hq => honward.signals.done_isSome (h (hc.symm.trans hq))

theorem accept (h : s.Sound) (e : Event) : (s.accept e).Sound := by
  obtain ⟨bound, body, watch⟩ := s
  cases body with
  | channel c => exact Channel.Sound.accept h e
  | responder r =>
    refine ofResponder h (r.onward_accept e) ?_
    unfold Responder.accept
    split <;> rfl

theorem close (h : s.Sound) (now : Nat) : (s.close now).Sound := by
  obtain ⟨bound, body, watch⟩ := s
  cases body with
  | channel c => exact h
  | responder r => exact ofResponder h (r.onward_close now) rfl

theorem resolve (h : s.Sound) (half : Bool) (o : Outcome) : (s.resolve half o).Sound := by
  obtain ⟨bound, body, watch⟩ := s
  cases body with
  | channel c => exact h
  | responder r =>
    intro hc
    have honward := Sink.onward_resolve ⟨bound, .responder r, watch⟩ half o
    exact honward.signals.done_isSome (h hc)

theorem cancel (h : s.Sound) (outside : Outside) : (s.cancel outside).1.Sound := by
  obtain ⟨bound, body, watch⟩ := s
  cases body with
  | channel c => exact Channel.Sound.cancel h outside
  | responder r => exact fun _ => Signals.done_cancel _ _

theorem done_cancel (h : s.Sound) (outside : Outside) : (s.cancel outside).1.signals.done =
    s.signals.done.resolve (.failed (.cancelled s.name)) := by
  obtain ⟨bound, body, watch⟩ := s
  cases body with
  | channel c => exact Channel.Sound.done_cancel h outside
  | responder r => rfl

/-- Whatever a watch sees, the sink behind it is as it was. -/
theorem watched (h : s.Sound) (watch : Option Watch) : { s with watch := watch }.Sound := h

theorem watchDone (h : s.Sound) (outside : Outside) : (s.watchDone outside now).1.Sound := by
  unfold Sink.watchDone
  split
  · exact h
  · split
    · exact h
    · split
      · exact h.watched _
      · split
        · exact h
        · exact (h.watched _).cancel outside

theorem watchHalf (h : s.Sound) (outside : Outside) : (s.watchHalf outside now).1.Sound := by
  unfold Sink.watchHalf
  split
  · exact h
  · split
    · exact h
    · split
      · exact h.watched _
      · split
        · exact h
        · exact (h.watched _).cancel outside

theorem startWatch (h : s.Sound) (now : Nat) : (s.startWatch now).Sound := by
  unfold Sink.startWatch
  split
  · exact h
  · exact h.watched _

theorem giveUp (h : s.Sound) (outside : Outside) : (s.giveUp outside).1.Sound :=
  (h.watched _).cancel outside

/-- **A sink that is given up** is cancelled, for everybody who looks at it, unless it has an outcome. -/
theorem seen_giveUp (h : s.Sound) (outside : Outside) : (s.giveUp outside).1.seen.done =
    s.seen.done.resolve (.failed (.cancelled s.name)) := by
  cases hw : s.watch with
  | none =>
    have hw' : (s.giveUp outside).1.watch = none := by
      rw [Sink.giveUp, watch_cancel, hw]
      rfl
    rw [seen_of_unwatched hw', seen_of_unwatched hw]
    exact (h.watched _).done_cancel outside
  | some w =>
    have hw' : (s.giveUp outside).1.watch = some (w.cancel s.name) := by
      rw [Sink.giveUp, watch_cancel, hw]
      rfl
    rw [seen_of_watch hw', seen_of_watch hw]
    rfl

theorem done_giveUp (h : s.Sound) (outside : Outside) :
    (s.giveUp outside).1.seen.done.isSome = true := by
  rw [h.seen_giveUp outside]
  exact Signal.isSome_resolve _ _

theorem stirs (h : s.Sound) (hs : Stirs now s t errors) : t.Sound := by
  cases hs with
  | @answers r hb =>
    obtain ⟨bound, body, watch⟩ := s
    cases hb
    exact ofResponder h (r.onward_advance now) rfl
  | works hb hstep =>
    obtain ⟨bound, body, watch⟩ := s
    cases hb
    exact Channel.Sound.does h (Channel.does_step? hstep)
  | watchesDone outside => exact h.watchDone outside
  | watchesHalf outside _ => exact h.watchHalf outside

end Sound

theorem AllGoOn.sound {ss ts : List Sink} (h : AllGoOn now ss ts errors)
    (hss : ∀ s ∈ ss, s.Sound) : ∀ t ∈ ts, t.Sound :=
  h.keeps (fun hs hstir _ => hs.stirs hstir) id hss

end Sink

/-! ## Streams -/

/-- What every single thing that is done to a sink keeps, a deed keeps for all of them. -/
theorem StreamDeed.keeps {P : Sink → Prop} (haccept : ∀ {k : Sink}, P k → ∀ e, P (k.accept e))
    (hclose : ∀ {k : Sink}, P k → ∀ now, P (k.close now))
    (hresolve : ∀ {k : Sink}, P k → ∀ half o, P (k.resolve half o)) {s : Stream}
    (h : ∀ k ∈ s.sinks, P k) (d : StreamDeed) (now : Nat) : ∀ k ∈ (d.apply s now).sinks, P k := by
  -- What is asked of all sinks is asked one call after the other.
  have hobey (calls : List SinkCall) (k : Sink) (hk : P k) : P (k.obeyAll calls) := by
    induction calls generalizing k with
    | nil => exact hk
    | cons call calls ih =>
      cases call with
      | accept e => exact ih _ (haccept hk e)
      | close now => exact ih _ (hclose hk now)
  have hall : ∀ k ∈ s.sinks.map (·.obeyAll (d.calls s now)), P k := by
    intro k hk
    obtain ⟨k, hmem, rfl⟩ := List.mem_map.mp hk
    exact hobey _ k (h k hmem)
  rw [d.apply_eq]
  dsimp only
  -- Only a resolution from outside treats one sink otherwise than the others.
  cases d with
  | resolve sink half o =>
    intro k hk
    obtain ⟨j, hj⟩ := List.getElem?_of_mem hk
    rw [touch, List.getElem?_modify] at hj
    obtain ⟨k', hk', heq⟩ := Option.map_eq_some_iff.mp hj
    have hP := hall k' (List.mem_of_getElem? hk')
    split at heq
    · exact heq ▸ hresolve hP half o
    · exact heq ▸ hP
  | post e => exact hall
  | attach listener => exact hall
  | write channel bytes => exact hall
  | flush => exact hall
  | close reason => exact hall

end EventUpload
