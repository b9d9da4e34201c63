import Mathlib.Data.List.Forall2
import EventUpload.Lifecycle.State
import EventUpload.Proofs.Sink.Turn

/-!
# Where a sink can go from here

Whatever is done to a sink that is part of a stream, three things hold afterwards: its name, its bound
and the deadline of its watch are what they were; if it was cancelled it still is; and a signal that had
an outcome, its own or as seen from outside, has the same outcome. `Sink.Onward` says so, and this file
shows it of everything that is ever done to a sink, alone or in a list, and of everything that is done
to a stream. The one exception is `Sink.startWatch`, which sets the deadline.

`Onward` is deliberately weak. It allows a sink to go anywhere that an unknown destination, an unknown
host and an unknown clock could take it, so that a property of the lifecycle that is proved from
`Onward` alone needs no case for files, backends or sinks that answer by themselves. What gets lost with
it is progress: a sink that never does anything is onward too. Proofs that need a sink to come to
something use `Sink.Stirs` or settle it.

It is a preorder (`Onward.refl`, `Onward.trans`), which is all that is used when operations are put
together. Lists of sinks are compared place by place with `List.Forall₂`; the lemmas about it that the
library does not have in this form stand at the end, before those about streams.
-/

set_option autoImplicit false

namespace EventUpload

/-! ## Signals

Both signals of a sink are resolved at most once, whoever does it; the lemmas hold because `resolve`
leaves a signal alone that has an outcome. -/

/-- Every signal that has an outcome in `s` has the same outcome in `t`. -/
structure Signals.Upto (s t : Signals) : Prop where
  half : ∀ o, s.half = some o → t.half = some o
  done : ∀ o, s.done = some o → t.done = some o

namespace Signals.Upto

theorem refl (s : Signals) : s.Upto s := ⟨fun _ h => h, fun _ h => h⟩

theorem trans {s t u : Signals} (h : s.Upto t) (k : t.Upto u) : s.Upto u :=
  ⟨fun o ho => k.half o (h.half o ho), fun o ho => k.done o (h.done o ho)⟩

end Signals.Upto

namespace Signals

theorem upto_resolve_half (s : Signals) (o : Outcome) :
    s.Upto { s with half := s.half.resolve o } :=
  ⟨fun _ h => Signal.resolve_eq_of_some h o, fun _ h => h⟩

theorem upto_resolve_done (s : Signals) (o : Outcome) :
    s.Upto { s with done := s.done.resolve o } :=
  ⟨fun _ h => h, fun _ h => Signal.resolve_eq_of_some h o⟩

theorem upto_cancel (s : Signals) (sink : String) : s.Upto (s.cancel sink) :=
  ⟨fun _ h => Signal.resolve_eq_of_some h _, fun _ h => Signal.resolve_eq_of_some h _⟩

theorem upto_fail (s : Signals) (e : SinkError) : s.Upto (s.fail e) :=
  ⟨fun _ h => Signal.resolve_eq_of_some h _, fun _ h => Signal.resolve_eq_of_some h _⟩

end Signals

/-! ## Channels

A channel goes on by steps of its worker, and `Channel.Does` lists what a step can come to, whatever the
destination answers. -/

/-- Where a channel can go: it keeps its name, stays cancelled and keeps the outcomes it has. -/
structure Channel.Onward (c d : Channel) : Prop where
  name : d.name = c.name
  cancelled : c.cancelled = true → d.cancelled = true
  signals : c.signals.Upto d.signals

namespace Channel

variable {outside : Outside} {now : Nat}

theorem Onward.refl (c : Channel) : c.Onward c := ⟨rfl, fun h => h, .refl _⟩

theorem Onward.trans {c d e : Channel} (h : c.Onward d) (k : d.Onward e) : c.Onward e :=
  ⟨k.name.trans h.name, fun hc => k.cancelled (h.cancelled hc), h.signals.trans k.signals⟩

theorem onward_accept (c : Channel) (e : Event) : c.Onward (c.accept e) := by
  unfold accept
  split
  · exact .refl c
  · exact ⟨rfl, fun h => h, .refl _⟩

theorem onward_close (c : Channel) : c.Onward c.close := ⟨rfl, fun h => h, .refl _⟩

theorem onward_cancel (c : Channel) : c.Onward (c.cancel outside).1 := by
  unfold cancel
  by_cases hc : c.cancelled = true
  · rw [if_pos hc]
    exact .refl c
  · rw [if_neg hc]
    cases hs : c.stage with
    | stopped => exact ⟨rfl, fun _ => rfl, .refl _⟩
    | ready => exact ⟨rfl, fun _ => rfl, Signals.upto_cancel _ _⟩
    | working work wake => exact ⟨rfl, fun _ => rfl, Signals.upto_cancel _ _⟩

theorem Does.onward {c d : Channel} {ended : List (Work × Verdict)} {errors : List SinkError}
    (h : c.Does d ended errors) : c.Onward d := by
  obtain ⟨hname, -, hcancelled⟩ := h.keeps
  refine ⟨hname, hcancelled.trans, ?_⟩
  cases h with
  | leftOut => exact .refl _
  | begun => exact .refl _
  | flushes => exact .refl _
  | again => exact .refl _
  | wrote => exact .refl _
  | writeFailed => exact .refl _
  | gaveUp => exact Signals.upto_fail _ _
  | flushed => exact Signals.upto_resolve_half _ _
  | flushFailed => exact Signals.upto_fail _ _
  | acknowledged => exact Signals.upto_resolve_done _ _
  | acknowledgeFailed => exact Signals.upto_fail _ _

theorem onward_run (steps : Nat) (c : Channel) (outside : Outside) :
    c.Onward (run steps c outside now).1 := by
  induction steps generalizing c outside with
  | zero => exact .refl c
  | succ steps ih =>
    unfold run
    split
    · exact .refl c
    · next d outside' errors h => exact (does_step? h).onward.trans (ih d outside')

theorem onward_advance (c : Channel) : c.Onward (c.advance outside now).1 :=
  onward_run _ c outside

end Channel

/-! ## Responders

A responder has a script in the place of a worker. What it reaches at an instant only depends on the
script and on what it has been asked for. -/

/-- Where a responder can go. -/
structure Responder.Onward (r q : Responder) : Prop where
  name : q.name = r.name
  cancelled : r.cancelled = true → q.cancelled = true
  signals : r.signals.Upto q.signals

namespace Responder

theorem reach_of_some {s : Signal} {o : Outcome} (h : s = some o) (due : Option (Nat × Outcome))
    (now : Nat) : reach s due now = some o := by
  unfold reach
  split
  · split
    · exact Signal.resolve_eq_of_some h _
    · exact h
  · exact h

theorem onward_advance (r : Responder) (now : Nat) : r.Onward (r.advance now) :=
  ⟨rfl, fun h => h, fun _ h => reach_of_some h _ _, fun _ h => reach_of_some h _ _⟩

theorem onward_accept (r : Responder) (e : Event) : r.Onward (r.accept e) := by
  unfold accept
  split
  · exact ⟨rfl, fun h => h, .refl _⟩
  · exact ⟨rfl, fun h => h, .refl _⟩

theorem onward_close (r : Responder) (now : Nat) : r.Onward (r.close now) := by
  have h := onward_advance
    { r with closes := r.closes + 1, closedAt := r.closedAt <|> some now } now
  exact ⟨h.name, h.cancelled, h.signals⟩

theorem onward_cancel (r : Responder) : r.Onward r.cancel :=
  ⟨rfl, fun _ => rfl, Signals.upto_cancel _ _⟩

end Responder

/-! ## Sinks

A sink is one of the two with a bound, and with a watch when it has been published. There are two pairs
of signals then: its own, and those that the watch has seen. Each is kept by itself. -/

namespace Sink

variable {outside : Outside} {now : Nat}

/-- The name of a sink, its bound, and the deadline of its watch if it is watched. -/
def shape (s : Sink) : String × Nat × Option Nat := (s.name, s.bound, s.watch.map Watch.deadline)

/-- Whether a sink has been cancelled. -/
def isCancelled (s : Sink) : Bool :=
  match s.body with
  | .responder r => r.cancelled
  | .channel c => c.cancelled

/-- Where a sink can go. -/
structure Onward (s t : Sink) : Prop where
  shape : t.shape = s.shape
  cancelled : s.isCancelled = true → t.isCancelled = true
  signals : s.signals.Upto t.signals
  seen : s.seen.Upto t.seen

theorem Onward.refl (s : Sink) : s.Onward s := ⟨rfl, fun h => h, .refl _, .refl _⟩

theorem Onward.trans {s t u : Sink} (h : s.Onward t) (k : t.Onward u) : s.Onward u :=
  ⟨k.shape.trans h.shape, fun hc => k.cancelled (h.cancelled hc), h.signals.trans k.signals,
   h.seen.trans k.seen⟩

theorem Onward.ofChannel {bound : Nat} {watch : Option Watch} {c d : Channel} (h : c.Onward d) :
    Onward ⟨bound, .channel c, watch⟩ ⟨bound, .channel d, watch⟩ where
  shape := by simp only [Sink.shape, name, h.name]
  cancelled := h.cancelled
  signals := h.signals
  seen := by
    cases watch with
    | none => exact h.signals
    | some w => exact .refl _

theorem Onward.ofResponder {bound : Nat} {watch : Option Watch} {r q : Responder}
    (h : r.Onward q) : Onward ⟨bound, .responder r, watch⟩ ⟨bound, .responder q, watch⟩ where
  shape := by simp only [Sink.shape, name, h.name]
  cancelled := h.cancelled
  signals := h.signals
  seen := by
    cases watch with
    | none => exact h.signals
    | some w => exact .refl _

/-- What a watch has come to see, with its deadline as it was, changes nothing else. -/
theorem Onward.ofWatch {s : Sink} {w : Watch} (hw : s.watch = some w) {seen : Signals}
    (h : w.seen.Upto seen) : s.Onward { s with watch := some { w with seen := seen } } where
  shape := by simp only [Sink.shape, hw]; rfl
  cancelled := fun h => h
  signals := .refl _
  seen := by simp only [Sink.seen, hw]; exact h

theorem onward_accept (s : Sink) (e : Event) : s.Onward (s.accept e) := by
  obtain ⟨bound, body, watch⟩ := s
  cases body with
  | responder r => exact .ofResponder (r.onward_accept e)
  | channel c => exact .ofChannel (c.onward_accept e)

theorem onward_close (s : Sink) (now : Nat) : s.Onward (s.close now) := by
  obtain ⟨bound, body, watch⟩ := s
  cases body with
  | responder r => exact .ofResponder (r.onward_close now)
  | channel c => exact .ofChannel c.onward_close

theorem onward_cancel (s : Sink) (outside : Outside) : s.Onward (s.cancel outside).1 := by
  obtain ⟨bound, body, watch⟩ := s
  cases body with
  | responder r => exact .ofResponder r.onward_cancel
  | channel c => exact .ofChannel c.onward_cancel

theorem onward_resolve (s : Sink) (half : Bool) (o : Outcome) : s.Onward (s.resolve half o) := by
  obtain ⟨bound, body, watch⟩ := s
  cases body with
  | responder r =>
    cases half with
    | false => exact .ofResponder ⟨rfl, fun h => h, Signals.upto_resolve_done _ _⟩
    | true => exact .ofResponder ⟨rfl, fun h => h, Signals.upto_resolve_half _ _⟩
  | channel c => exact .refl _

theorem onward_advance (s : Sink) (outside : Outside) (now : Nat) :
    s.Onward (s.advance outside now).1 := by
  obtain ⟨bound, body, watch⟩ := s
  cases body with
  | responder r => exact .ofResponder (r.onward_advance now)
  | channel c => exact .ofChannel c.onward_advance

theorem onward_watchDone (s : Sink) (outside : Outside) (now : Nat) :
    s.Onward (s.watchDone outside now).1 := by
  unfold watchDone
  cases hw : s.watch with
  | none => exact .refl s
  | some w =>
    have hup (o : Outcome) (hd : ¬ w.seen.done.isSome = true) :
        w.seen.Upto { w.seen with done := some o } :=
      ⟨fun _ h => h, fun _ h => absurd (by rw [h]; rfl) hd⟩
    dsimp only
    split
    · exact .refl s
    · next hd =>
      split
      · exact .ofWatch hw (hup _ hd)
      · split
        · exact .refl s
        · exact (Onward.ofWatch hw (hup _ hd)).trans (onward_cancel _ _)

theorem onward_watchHalf (s : Sink) (outside : Outside) (now : Nat) :
    s.Onward (s.watchHalf outside now).1 := by
  unfold watchHalf
  cases hw : s.watch with
  | none => exact .refl s
  | some w =>
    have hup (o : Outcome) (hd : ¬ w.seen.half.isSome = true) :
        w.seen.Upto { w.seen with half := some o } :=
      ⟨fun _ h => absurd (by rw [h]; rfl) hd, fun _ h => h⟩
    dsimp only
    split
    · exact .refl s
    · next hd =>
      split
      · exact .ofWatch hw (hup _ hd)
      · split
        · exact .refl s
        · exact (Onward.ofWatch hw (hup _ hd)).trans (onward_cancel _ _)

theorem onward_settle (s : Sink) (outside : Outside) (now : Nat) :
    s.Onward (s.settle outside now).1 :=
  ((s.onward_advance outside now).trans (onward_watchDone _ _ _)).trans (onward_watchHalf _ _ _)

theorem onward_giveUp (s : Sink) (outside : Outside) : s.Onward (s.giveUp outside).1 := by
  refine Onward.trans (t := { s with watch := s.watch.map fun w => w.cancel s.name }) ?_
    (onward_cancel _ _)
  cases hw : s.watch with
  | none =>
    rw [Option.map_none, ← hw]
    exact .refl s
  | some w => exact .ofWatch hw (Signals.upto_cancel _ _)

/-- Cancelling cancels. -/
theorem isCancelled_cancel (s : Sink) (outside : Outside) :
    (s.cancel outside).1.isCancelled = true := by
  obtain ⟨bound, body, watch⟩ := s
  cases body with
  | responder r => rfl
  | channel c =>
    simp only [cancel, isCancelled, Channel.cancel]
    split
    · next h => exact h
    · split <;> rfl

theorem isCancelled_giveUp (s : Sink) (outside : Outside) :
    (s.giveUp outside).1.isCancelled = true := isCancelled_cancel _ _

end Sink

/-! ## Lists of sinks -/

open List (Forall₂)

theorem forall₂_exists_left {α β : Type} {R : α → β → Prop} {as : List α} {bs : List β}
    (h : Forall₂ R as bs) {b : β} (hb : b ∈ bs) : ∃ a ∈ as, R a b := by
  induction h with
  | nil => exact absurd hb (by simp)
  | @cons a b' as bs hab _ ih =>
    rcases List.mem_cons.mp hb with rfl | hb
    · exact ⟨a, by simp, hab⟩
    · obtain ⟨a', ha', hr⟩ := ih hb
      exact ⟨a', List.mem_cons_of_mem _ ha', hr⟩

theorem forall₂_trans {α β γ : Type} {R : α → β → Prop} {S : β → γ → Prop} {T : α → γ → Prop}
    {as : List α} {bs : List β} {cs : List γ} (h : Forall₂ R as bs) (k : Forall₂ S bs cs)
    (hT : ∀ {a b c}, R a b → S b c → T a c) : Forall₂ T as cs := by
  induction h generalizing cs with
  | nil =>
    cases k
    exact .nil
  | cons hs _ ih =>
    cases k with
    | cons ks krest => exact .cons (hT hs ks) (ih krest)

theorem forall₂_getElem? {α β : Type} {R : α → β → Prop} {as : List α} {bs : List β}
    (h : Forall₂ R as bs) {i : Nat} {a : α} (ha : as[i]? = some a) : ∃ b, bs[i]? = some b ∧ R a b := by
  obtain ⟨hi, rfl⟩ := List.getElem?_eq_some_iff.mp ha
  have hj : i < bs.length := by rw [← h.length_eq]; exact hi
  exact ⟨bs[i], List.getElem?_eq_getElem hj, (List.forall₂_iff_get.mp h).2 i hi hj⟩

theorem Sink.forall₂_onward_refl (sinks : List Sink) : Forall₂ Sink.Onward sinks sinks :=
  List.forall₂_same.mpr fun s _ => .refl s

theorem Sink.forall₂_onward_trans {as bs cs : List Sink} (h : Forall₂ Sink.Onward as bs)
    (k : Forall₂ Sink.Onward bs cs) : Forall₂ Sink.Onward as cs := forall₂_trans h k .trans

theorem Sink.forall₂_onward_map {f : Sink → Sink} (h : ∀ s : Sink, s.Onward (f s)) (sinks : List Sink) :
    Forall₂ Sink.Onward sinks (sinks.map f) := by
  induction sinks with
  | nil => exact .nil
  | cons s rest ih => exact .cons (h s) ih

theorem forall₂_modify {α : Type} {R : α → α → Prop} {f : α → α} (hR : ∀ a, R a a) (as : List α)
    (i : Nat) (h : ∀ a, as[i]? = some a → R a (f a)) : Forall₂ R as (as.modify i f) := by
  induction as generalizing i with
  | nil => cases i <;> exact .nil
  | cons a rest ih =>
    cases i with
    | zero => exact .cons (h a rfl) (List.forall₂_same.mpr fun b _ => hR b)
    | succ i => exact .cons (hR a) (ih i h)

namespace Lifecycle

theorem forall₂_overSinks {R : Sink → Sink → Prop} {f : Sink → Outside → Sink × Outside}
    {sinks : List Sink} (h : ∀ s ∈ sinks, ∀ outside, R s (f s outside).1) (outside : Outside) :
    Forall₂ R sinks (overSinks f sinks outside).1 := by
  induction sinks generalizing outside with
  | nil => exact .nil
  | cons s rest ih =>
    exact .cons (h s (by simp) outside) (ih (fun t ht => h t (List.mem_cons_of_mem _ ht)) _)

theorem forall₂_onward_settleSinks (now : Nat) (sinks : List Sink) (outside : Outside) :
    Forall₂ Sink.Onward sinks (settleSinks now sinks outside).1 := by
  induction sinks generalizing outside with
  | nil => exact .nil
  | cons s rest ih =>
    exact .cons (s.onward_settle outside now) (ih (s.settle outside now).2.1)

end Lifecycle

/-! ## Streams

What a stream does to its sinks it does to all of them, but for an outcome that comes to one sink from
outside. -/

namespace Stream

theorem onward_hand (s : Stream) (e : Event) : Forall₂ Sink.Onward s.sinks (s.hand e).sinks :=
  Sink.forall₂_onward_map (fun k => k.onward_accept _) s.sinks

theorem onward_foldl_hand (events : List Event) (s : Stream) :
    Forall₂ Sink.Onward s.sinks (events.foldl hand s).sinks := by
  induction events generalizing s with
  | nil => exact Sink.forall₂_onward_refl _
  | cons e events ih => exact Sink.forall₂_onward_trans (s.onward_hand e) (ih (s.hand e))

theorem onward_drain (s : Stream) : Forall₂ Sink.Onward s.sinks s.drain.sinks := by
  unfold drain
  split
  · exact Sink.forall₂_onward_refl _
  · next l _ => exact onward_foldl_hand _ { s with listener := some l.take.1 }

theorem onward_shut (s : Stream) (now : Nat) : Forall₂ Sink.Onward s.sinks (s.shut now).sinks :=
  Sink.forall₂_onward_map (fun k => k.onward_close now) s.sinks

theorem onward_post (s : Stream) (now : Nat) (e : Event) :
    Forall₂ Sink.Onward s.sinks (s.post now e).sinks := by
  unfold post
  split
  · exact Sink.forall₂_onward_refl _
  · split
    · have h := Sink.forall₂_onward_trans s.onward_drain (s.drain.onward_hand e)
      exact Sink.forall₂_onward_trans h ((s.drain.hand e).onward_shut now)
    · exact s.onward_hand e

theorem onward_close (s : Stream) (now : Nat) (reason : Option AbortReason) :
    Forall₂ Sink.Onward s.sinks (s.close now reason).sinks := by
  unfold close
  split
  · exact Sink.forall₂_onward_refl _
  · refine Sink.forall₂_onward_trans ?_ (onward_shut _ now)
    cases reason with
    | none => exact s.onward_drain
    | some r =>
      exact Sink.forall₂_onward_trans s.onward_drain
        (onward_hand { s.drain with abort := some r } r.event)

theorem onward_flush (s : Stream) : Forall₂ Sink.Onward s.sinks s.flush.sinks := by
  unfold flush
  split
  · exact Sink.forall₂_onward_refl _
  · exact s.onward_drain

theorem onward_write (s : Stream) (channel : OutputChannel) (bytes : List UInt8) :
    Forall₂ Sink.Onward s.sinks (s.write channel bytes).sinks := by
  unfold write
  split
  · exact Sink.forall₂_onward_refl _
  · next l _ =>
    split
    · exact Sink.forall₂_onward_refl _
    · dsimp only
      split
      · exact onward_drain { s with listener := some (l.write channel bytes) }
      · exact Sink.forall₂_onward_refl _

theorem onward_updateSink {f : Sink → Sink} (h : ∀ k : Sink, k.Onward (f k)) (s : Stream) (k : Nat) :
    Forall₂ Sink.Onward s.sinks (s.updateSink k f).sinks :=
  forall₂_modify .refl s.sinks k fun a _ => h a

end Stream

end EventUpload
