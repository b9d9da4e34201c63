import EventUpload.Proofs.Lifecycle.Orderly
import EventUpload.Proofs.Sink.Watch

/-!
# Closing the active invocation

What ends the active invocation closes its stream and publishes its uploads: from then on the bounds
count. No sink of an active invocation had a watch before, so at this instant every sink with a bound
has a watch that has seen nothing, whatever has become of the sink itself; and being closed does not
cancel a sink. That is where an `Upload` begins (`arrived_closing`).

The plan of an upload, when it completes by itself and how, is a parameter here. It cannot be read off
the sink at this moment, because it depends on what happens outside from now on; `Sink.upload` puts a
plan beside the other three things that are known now. That sinks do as planned is an assumption of
those who use the uploads, and there is always a plan of which it is true (`Run.exists_completesAs`).

`finish_blocking_eq` cuts the operation in two, into closing the invocation and looking at the call that
waits for it. The second half is the same look that every later instant has, so that nothing has to be
proved twice for the first look and for the others.
-/

set_option autoImplicit false

namespace EventUpload

open List (Forall₂)

/-! ## Closing cancels nothing -/

namespace Sink

theorem isCancelled_accept (s : Sink) (e : Event) : (s.accept e).isCancelled = s.isCancelled := by
  obtain ⟨bound, body, watch⟩ := s
  cases body with
  | responder r =>
    show (r.accept e).cancelled = r.cancelled
    unfold Responder.accept
    split <;> rfl
  | channel c =>
    show (c.accept e).cancelled = c.cancelled
    unfold Channel.accept
    split <;> rfl

theorem isCancelled_close (s : Sink) (now : Nat) : (s.close now).isCancelled = s.isCancelled := by
  obtain ⟨bound, body, watch⟩ := s
  cases body <;> rfl

theorem isCancelled_startWatch (s : Sink) (now : Nat) :
    (s.startWatch now).isCancelled = s.isCancelled := by
  unfold startWatch
  split <;> rfl

/-- A list of sinks, with which of them are cancelled kept. -/
theorem map_isCancelled_map {f : Sink → Sink} (h : ∀ s : Sink, (f s).isCancelled = s.isCancelled)
    (sinks : List Sink) : (sinks.map f).map isCancelled = sinks.map isCancelled := by
  rw [List.map_map]
  exact List.map_congr_left fun s _ => h s

end Sink

namespace Stream

theorem isCancelled_hand (s : Stream) (e : Event) :
    (s.hand e).sinks.map Sink.isCancelled = s.sinks.map Sink.isCancelled :=
  Sink.map_isCancelled_map (fun k => k.isCancelled_accept _) s.sinks

theorem isCancelled_foldl_hand (events : List Event) (s : Stream) :
    (events.foldl hand s).sinks.map Sink.isCancelled = s.sinks.map Sink.isCancelled := by
  induction events generalizing s with
  | nil => rfl
  | cons e events ih => exact (ih (s.hand e)).trans (s.isCancelled_hand e)

theorem isCancelled_drain (s : Stream) :
    s.drain.sinks.map Sink.isCancelled = s.sinks.map Sink.isCancelled := by
  unfold drain
  split
  · rfl
  · next l _ => exact isCancelled_foldl_hand _ { s with listener := some l.take.1 }

theorem isCancelled_close (s : Stream) (now : Nat) (reason : Option AbortReason) :
    (s.close now reason).sinks.map Sink.isCancelled = s.sinks.map Sink.isCancelled := by
  have hshut (s : Stream) :
      (s.shut now).sinks.map Sink.isCancelled = s.sinks.map Sink.isCancelled :=
    Sink.map_isCancelled_map (fun k => k.isCancelled_close now) s.sinks
  unfold close
  split
  · rfl
  · refine (hshut _).trans ?_
    cases reason with
    | none => exact s.isCancelled_drain
    | some r =>
      exact (isCancelled_hand { s.drain with abort := some r } r.event).trans s.isCancelled_drain

end Stream

/-! ## Where an upload begins -/

/-- The upload of a sink, given when it completes by itself. -/
def Sink.upload (s : Sink) (completion : Option (Nat × Outcome)) : Upload :=
  ⟨s.name, s.bound, completion, s.isCancelled⟩

/-- A sink that is closed and watched from now on has seen nothing. -/
theorem Sink.Onward.arrived_startWatch {s t : Sink} (h : s.Onward t) (hw : s.watch = none)
    (hc : t.isCancelled = s.isCancelled) (completion : Option (Nat × Outcome)) (now : Nat) :
    (s.upload completion).Arrived now 0 (t.startWatch now) := by
  have hshape := h.shape
  simp only [Sink.shape, Prod.mk.injEq, hw, Option.map_none, Option.map_eq_none_iff] at hshape
  obtain ⟨hname, hbound, hwatch⟩ := hshape
  have hspares : (s.upload completion).Spares 0 (t.startWatch now) := by
    intro hcancelled
    rw [Sink.isCancelled_startWatch, hc] at hcancelled
    exact .inl hcancelled
  by_cases hb : s.bound = 0
  · have ht : t.startWatch now = t := if_pos (hbound.trans hb)
    rw [ht] at hspares ⊢
    refine ⟨⟨hname, hbound, ?_⟩, hspares, fun _ _ _ hlt => absurd hlt (Nat.not_lt_zero _),
      fun hne => absurd hb hne⟩
    rw [hwatch]
    exact (if_pos hb).symm
  · have ht : t.startWatch now = { t with watch := some ⟨now + t.bound, .unresolved⟩ } :=
      if_neg (by rw [hbound]; exact hb)
    rw [ht] at hspares ⊢
    refine ⟨⟨hname, hbound, ?_⟩, hspares, fun _ _ _ hlt => absurd hlt (Nat.not_lt_zero _),
      fun _ _ => rfl⟩
    rw [hbound]
    exact (if_neg hb).symm

/-- The sinks of an invocation, closed and watched from now on. -/
theorem Sink.forall₂_arrived {sinks closed : List Sink} {plans : List (Option (Nat × Outcome))}
    (h : Forall₂ Sink.Onward sinks closed) (hw : ∀ s ∈ sinks, s.watch = none)
    (hc : closed.map Sink.isCancelled = sinks.map Sink.isCancelled)
    (hlength : plans.length = sinks.length) (now : Nat) :
    Forall₂ (fun t u => u.Arrived now 0 t) (closed.map (Sink.startWatch · now))
      (List.zipWith Sink.upload sinks plans) := by
  induction h generalizing plans with
  | nil => exact .nil
  | @cons s t sinks closed hst _ ih =>
    cases plans with
    | nil => exact absurd hlength (by simp)
    | cons plan plans =>
      obtain ⟨hhead, hrest⟩ := List.cons.inj hc
      refine .cons (hst.arrived_startWatch (hw s (by simp)) hhead plan now) ?_
      exact ih (fun s' hs' => hw s' (List.mem_cons_of_mem _ hs')) hrest (Nat.succ.inj hlength)

namespace Lifecycle

/-- The lifecycle with its active invocation closed and published, before its uploads are looked
at. -/
def closing (l : Lifecycle) (i : Nat) : Lifecycle :=
  { l with phase := .closing, active := none }.closeAndPublish i .blocking none

variable {l : Lifecycle} {i : Nat} {v : Invocation}

theorem invocations_noteOpen (l : Lifecycle) (i : Nat) (ending : Option Ending) :
    (l.noteOpen i ending).invocations = l.invocations := by
  unfold noteOpen
  cases l.invocation? i with
  | none => rfl
  | some v =>
    cases ending with
    | none =>
      dsimp only
      split <;> rfl
    | some e =>
      dsimp only
      split <;> rfl

theorem now_closing (l : Lifecycle) (i : Nat) : (l.closing i).now = l.now :=
  (quiet_closeStream { l with phase := .closing, active := none } i none).now

theorem limits_closing (l : Lifecycle) (i : Nat) : (l.closing i).limits = l.limits :=
  (quiet_closeStream { l with phase := .closing, active := none } i none).limits

/-- What an invocation is when it has been closed and published. -/
theorem invocation?_closeAndPublish (hv : l.invocation? i = some v) (mode : UploadMode)
    (ending : Option Ending) : (l.closeAndPublish i mode ending).invocation? i =
      some ({ v with
        stream := v.stream.close l.now (some .internal)
        mode := mode }.withSinks
          ((v.stream.close l.now (some .internal)).sinks.map (Sink.startWatch · l.now))) := by
  have hnow := (quiet_closeStream l i ending).now
  have hopen : (l.noteOpen i ending).invocation? i = some v := by
    rw [invocation?, invocations_noteOpen]
    exact hv
  have hclosed : ((l.noteOpen i ending).updateStream i
      (·.close l.now (some .internal))).invocation? i =
        some { v with stream := v.stream.close l.now (some .internal) } :=
    invocation?_update_self hopen _
  rw [closeAndPublish, invocation?_publish, if_pos rfl, hnow, hclosed]
  rfl

/-- **Where the uploads begin.** When the active invocation has been closed and published, its sinks
are the ones of their uploads, which all count from now, and none of them has been seen to end. -/
theorem arrived_closing {plans : List (Option (Nat × Outcome))} (hv : l.invocation? i = some v)
    (hw : l.Unwatched i) (hlength : plans.length = v.sinks.length) :
    ∃ w, (l.closing i).invocation? i = some w ∧ w.mode = .blocking ∧
      Forall₂ (fun t u => u.Arrived l.now 0 t) w.sinks
        (List.zipWith Sink.upload v.sinks plans) := by
  have hopen : ({ l with phase := .closing, active := none } : Lifecycle).invocation? i = some v :=
    hv
  refine ⟨_, invocation?_closeAndPublish hopen .blocking none, rfl, ?_⟩
  exact Sink.forall₂_arrived (v.stream.onward_close l.now (some .internal)) (hw v hv)
    (v.stream.isCancelled_close l.now (some .internal)) hlength l.now

/-- The call that waits for the uploads of an invocation that has ended. -/
def finishCall (l : Lifecycle) (i : Nat) (w : Invocation) : Call :=
  .finish i l.now (l.now + l.limits.blocking) (w.sinks.map fun _ => false)
    (expectedWait l.limits.blocking w.sinks) (l.now + 1000)

/-- Ending the active invocation and waiting is closing it and looking at its uploads. -/
theorem finish_blocking_eq {w : Invocation} (hp : l.phase = .active) (ha : l.active = some i)
    (hw : (l.closing i).invocation? i = some w) :
    l.finish .blocking = (l.closing i).check (l.finishCall i w) := by
  have hclosing : ({ l with phase := .closing, active := none } :
      Lifecycle).closeAndPublish i .blocking none = l.closing i := rfl
  unfold finish
  rw [if_neg (by simp [hp, Operation.phase]), ha]
  dsimp only
  rw [hclosing, hw]
  dsimp only
  rw [now_closing, limits_closing]
  rfl

end Lifecycle

end EventUpload
