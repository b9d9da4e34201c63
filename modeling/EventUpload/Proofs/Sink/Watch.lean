import EventUpload.Proofs.Sink.Onward

/-!
# What is seen of an upload

An upload ends by itself at some instant, or never; and it ends when its bound has passed. What is seen
of it from outside, whether it has a watch or not, is the earlier of the two (`Arrived.settle`),
provided that the sink is looked at whenever something is due. Times count from an instant at which
every watch has begun.

An `Upload` is all that has to be known of a sink to say this: its name, its bound, and when it
completes by itself. Neither other sinks nor anything outside have a part in it; and unless its own
bound has passed, nothing that happens by itself cancels a sink.

The two can come at the same instant, and then the completion wins (`Upload.ending` compares with `≤`):
a watch looks at the signal of its sink before it looks at the clock. The order of the two timers of one
sink matters as well, and `Sink.settle` fixes it; what the other orders lead to is the subject of
`Proofs.Sink.TwoTimers`.

An instant has a beginning and an end here. `Arrived` is what is to be seen of a sink before anything is
done at an instant, `Settled` what is to be seen when everything is done, and `Arrived.settle` leads
from one to the other. The step between two instants is `Settled.arrived`, and its hypothesis is where
it matters that no instant is left out at which an upload ends. That the program leaves none out is
shown where its clock is (`Proofs.Lifecycle.Arrival`).
-/

set_option autoImplicit false

namespace EventUpload

/-- What decides how an upload is seen to end. -/
structure Upload where
  name : String
  /-- Its bound in milliseconds; zero means none. -/
  bound : Nat
  /-- When it completes by itself, and how, if ever. -/
  completion : Option (Nat × Outcome)
  /-- Whether its sink had been cancelled when the time began. -/
  cancelled : Bool

namespace Upload

/-- When an upload ends and how: by itself, or because its bound has passed. -/
def ending (u : Upload) : Option (Nat × Outcome) :=
  let expiry : Nat × Outcome := (u.bound, .failed (.closeTimeout u.name u.bound))
  match u.completion with
  | some (t, o) => if u.bound = 0 ∨ t ≤ u.bound then some (t, o) else some expiry
  | none => if u.bound = 0 then none else some expiry

/-- The upload has ended by some time. -/
def EndedBy (u : Upload) (time : Nat) : Prop := ∃ t o, u.ending = some (t, o) ∧ t ≤ time

/-- What is to be seen of an upload at a time. -/
def seenAt (u : Upload) (time : Nat) : Signal := Responder.reach none u.ending time

/-- No bound has passed before the time. -/
def InTime (u : Upload) (time : Nat) : Prop := u.bound = 0 ∨ time ≤ u.bound

/-- The signal of a sink at a time agrees with when the upload completes by itself; what has completed
earlier does not matter. -/
structure Agrees (u : Upload) (time : Nat) (own : Signal) : Prop where
  before : ∀ t o, u.completion = some (t, o) → time < t → own = none
  at_ : ∀ t o, u.completion = some (t, o) → time = t → own = some o
  never : u.completion = none → own = none

variable {u : Upload} {time : Nat}

theorem InTime.mono {later : Nat} (h : u.InTime later) (hle : time ≤ later) : u.InTime time :=
  h.imp_right fun hb => Nat.le_trans hle hb

theorem inTime_zero : u.InTime 0 := .inr (Nat.zero_le _)

theorem seenAt_of_ended {t : Nat} {o : Outcome} (he : u.ending = some (t, o)) (h : t ≤ time) :
    u.seenAt time = some o := by
  simp only [seenAt, he, Responder.reach, if_pos h, Signal.resolve_none]

theorem seenAt_of_not_ended (h : ¬ u.EndedBy time) : u.seenAt time = none := by
  unfold seenAt Responder.reach
  split
  · next t o he => exact if_neg fun hle => h ⟨t, o, he, hle⟩
  · rfl

theorem seenAt_of_lt {t : Nat} {o : Outcome} (he : u.ending = some (t, o)) (h : time < t) :
    u.seenAt time = none := by
  refine seenAt_of_not_ended ?_
  rintro ⟨t', o', ht, hle⟩
  rw [he] at ht
  cases ht
  exact absurd h (Nat.not_lt.mpr hle)

theorem isSome_seenAt : (u.seenAt time).isSome = true ↔ u.EndedBy time := by
  constructor
  · intro h
    by_contra hn
    rw [seenAt_of_not_ended hn] at h
    exact absurd h (by simp)
  · rintro ⟨t, o, he, hle⟩
    rw [seenAt_of_ended he hle]
    rfl

theorem ending_of_unbounded (hb : u.bound = 0) : u.ending = u.completion := by
  unfold ending
  rcases u.completion with _ | ⟨t, o⟩ <;> simp [hb]

/-- The end of a bounded upload is its completion, unless its bound passes before. -/
theorem ending_of_bounded (hb : u.bound ≠ 0) :
    (∃ t o, u.completion = some (t, o) ∧ t ≤ u.bound ∧ u.ending = some (t, o)) ∨
      (∀ t o, u.completion = some (t, o) → u.bound < t) ∧
        u.ending = some (u.bound, .failed (.closeTimeout u.name u.bound)) := by
  unfold ending
  cases hc : u.completion with
  | none => exact .inr ⟨fun t o h => absurd h (by simp), if_neg hb⟩
  | some p =>
    obtain ⟨t, o⟩ := p
    by_cases hle : t ≤ u.bound
    · exact .inl ⟨t, o, rfl, hle, if_pos (.inr hle)⟩
    · refine .inr ⟨fun t' o' h => ?_, if_neg (by simp [hb, hle])⟩
      cases h
      exact Nat.not_le.mp hle

/-- What ends has ended in time. -/
theorem inTime_of_ending {t : Nat} {o : Outcome} (he : u.ending = some (t, o)) : u.InTime t := by
  by_cases hb : u.bound = 0
  · exact .inl hb
  · rcases ending_of_bounded hb with ⟨t', o', _, hle, he'⟩ | ⟨_, he'⟩
    · cases he.symm.trans he'
      exact .inr hle
    · cases he.symm.trans he'
      exact .inr (Nat.le_refl _)

/-- What ends at once has completed: no bound passes in no time. -/
theorem completion_of_ending_zero {o : Outcome} (he : u.ending = some (0, o)) :
    u.completion = some (0, o) := by
  by_cases hb : u.bound = 0
  · rw [← ending_of_unbounded hb]
    exact he
  · rcases ending_of_bounded hb with ⟨t, o', hc, _, he'⟩ | ⟨_, he'⟩
    · rw [hc, ← he', he]
    · rw [he] at he'
      exact absurd (congrArg Prod.fst (Option.some.inj he')).symm hb

end Upload

/-! ## What a channel does at an instant

Only that a channel does not cancel itself is needed here. -/

namespace Channel

variable {outside : Outside} {now : Nat}

/-- A cancelled channel was cancelled by its callers: its own work never does that. -/
theorem cancelled_run (steps : Nat) (c : Channel) (outside : Outside) :
    (run steps c outside now).1.cancelled = c.cancelled := by
  induction steps generalizing c outside with
  | zero => rfl
  | succ steps ih =>
    unfold run
    split
    · rfl
    · next d outside' errors h => exact (ih d outside').trans (does_step? h).keeps.2.2

end Channel

/-! ## What a sink does at an instant

The sink goes on first, and then its watch looks, at the end before the half-close. The second look does
not touch what the first has seen. -/

namespace Sink

variable {outside : Outside} {now : Nat}

theorem watch_advance (s : Sink) : (s.advance outside now).1.watch = s.watch := by
  unfold advance
  split <;> rfl

theorem watch_cancel (s : Sink) : (s.cancel outside).1.watch = s.watch := by
  unfold cancel
  split <;> rfl

theorem settle_fst (s : Sink) : (s.settle outside now).1 =
    ((((s.advance outside now).1.watchDone (s.advance outside now).2.1 now).1).watchHalf
      ((s.advance outside now).1.watchDone (s.advance outside now).2.1 now).2 now).1 := rfl

/-- A sink without a watch only goes on. -/
theorem settle_of_unwatched {s : Sink} (hw : s.watch = none) :
    (s.settle outside now).1 = (s.advance outside now).1 := by
  have hw' : (s.advance outside now).1.watch = none := (watch_advance s).trans hw
  rw [settle_fst]
  generalize (s.advance outside now).1 = k at hw'
  have hdone (outside : Outside) : (k.watchDone outside now) = (k, outside) := by
    simp only [watchDone, hw']
  rw [hdone]
  simp only [watchHalf, hw']

theorem seen_of_watch {s : Sink} {w : Watch} (hw : s.watch = some w) : s.seen = w.seen := by
  unfold seen
  rw [hw]

theorem seen_of_unwatched {s : Sink} (hw : s.watch = none) : s.seen = s.signals := by
  unfold seen
  rw [hw]

/-- Looking after the half-close does not touch what is seen of the end. -/
theorem done_watchHalf (s : Sink) (outside : Outside) (now : Nat) :
    (s.watchHalf outside now).1.seen.done = s.seen.done := by
  unfold watchHalf
  cases hw : s.watch with
  | none => rfl
  | some w =>
    rw [seen_of_watch hw]
    dsimp only
    split
    · rw [seen_of_watch hw]
    · split
      · rfl
      · split
        · rw [seen_of_watch hw]
        · rw [seen, watch_cancel]

/-- What the watch comes to see of the end: what it has seen, else what there is, else the bound, if
that has passed. -/
theorem done_watchDone {s : Sink} {w : Watch} (hw : s.watch = some w) (outside : Outside)
    (now : Nat) : (s.watchDone outside now).1.seen.done =
      match w.seen.done, s.signals.done with
      | some o, _ => some o
      | none, some o => some o
      | none, none => if now < w.deadline then none else some (.failed s.timeout) := by
  unfold watchDone
  rw [hw]
  dsimp only
  cases hseen : w.seen.done with
  | some o =>
    rw [if_pos (by rfl), seen_of_watch hw]
    exact hseen
  | none =>
    rw [if_neg (by simp)]
    cases hown : s.signals.done with
    | some o => rfl
    | none =>
      dsimp only
      split
      · rw [seen_of_watch hw]
        exact hseen
      · rw [seen, watch_cancel]

theorem done_settle {s : Sink} {w : Watch} (hw : s.watch = some w) :
    (s.settle outside now).1.seen.done =
      match w.seen.done, (s.advance outside now).1.signals.done with
      | some o, _ => some o
      | none, some o => some o
      | none, none =>
        if now < w.deadline then none else some (.failed (s.advance outside now).1.timeout) := by
  rw [settle_fst, done_watchHalf]
  exact done_watchDone ((watch_advance s).trans hw) _ _

/-! ### Cancellation

A sink that was not cancelled when the time began can only have been cancelled by its own watch, when
the bound passed. -/

theorem isCancelled_advance (s : Sink) :
    (s.advance outside now).1.isCancelled = s.isCancelled := by
  obtain ⟨bound, body, watch⟩ := s
  cases body with
  | responder r => rfl
  | channel c => exact Channel.cancelled_run _ c outside

theorem isCancelled_watchDone {s : Sink} (h : (s.watchDone outside now).1.isCancelled = true) :
    s.isCancelled = true ∨ ∃ w, s.watch = some w ∧ w.deadline ≤ now := by
  unfold watchDone at h
  cases hw : s.watch with
  | none =>
    simp only [hw] at h
    exact .inl h
  | some w =>
    simp only [hw] at h
    split at h
    · exact .inl h
    · split at h
      · exact .inl h
      · split at h
        · exact .inl h
        · next hnow => exact .inr ⟨w, rfl, Nat.not_lt.mp hnow⟩

theorem isCancelled_watchHalf {s : Sink} (h : (s.watchHalf outside now).1.isCancelled = true) :
    s.isCancelled = true ∨ ∃ w, s.watch = some w ∧ w.deadline ≤ now := by
  unfold watchHalf at h
  cases hw : s.watch with
  | none =>
    simp only [hw] at h
    exact .inl h
  | some w =>
    simp only [hw] at h
    split at h
    · exact .inl h
    · split at h
      · exact .inl h
      · split at h
        · exact .inl h
        · next hnow => exact .inr ⟨w, rfl, Nat.not_lt.mp hnow⟩

theorem shape_eq_of_watch {s t : Sink} {w : Watch} (h : t.shape = s.shape)
    (hw : t.watch = some w) : ∃ w', s.watch = some w' ∧ w'.deadline = w.deadline := by
  have hd := congrArg (fun p : String × Nat × Option Nat => p.2.2) h
  simp only [shape, hw, Option.map_some] at hd
  obtain ⟨w', hw', hdeadline⟩ := Option.map_eq_some_iff.mp hd.symm
  exact ⟨w', hw', hdeadline⟩

/-- At an instant a sink is only cancelled because its own bound has passed. -/
theorem isCancelled_settle {s : Sink} (h : (s.settle outside now).1.isCancelled = true) :
    s.isCancelled = true ∨ ∃ w, s.watch = some w ∧ w.deadline ≤ now := by
  rw [settle_fst] at h
  have hadvance : (s.advance outside now).1.isCancelled = true ∨
      ∃ w, (s.advance outside now).1.watch = some w ∧ w.deadline ≤ now := by
    rcases isCancelled_watchHalf h with h | ⟨w, hw, hd⟩
    · exact isCancelled_watchDone h
    · have hshape := (onward_watchDone (s.advance outside now).1 (s.advance outside now).2.1
        now).shape
      obtain ⟨w', hw', hdeadline⟩ := shape_eq_of_watch hshape hw
      exact .inr ⟨w', hw', hdeadline ▸ hd⟩
  rw [isCancelled_advance, watch_advance] at hadvance
  exact hadvance

end Sink

/-! ## An upload over time

`Describes` says that an upload is one of a sink, and `Arrived` and `Settled` say what is to be seen of
it at the beginning and at the end of an instant. -/

namespace Upload

variable {u : Upload} {base time : Nat} {s : Sink} {outside : Outside}

/-- The sink is the one of the upload; its watch began at `base`. -/
structure Describes (u : Upload) (base : Nat) (s : Sink) : Prop where
  name : s.name = u.name
  bound : s.bound = u.bound
  watch : s.watch.map Watch.deadline = if u.bound = 0 then none else some (base + u.bound)

/-- The sink is not cancelled, unless it had been before or its bound has passed. -/
def Spares (u : Upload) (time : Nat) (s : Sink) : Prop :=
  s.isCancelled = true → u.cancelled = true ∨ u.bound ≠ 0 ∧ u.bound ≤ time

/-- What is to be seen of the sink when an instant begins: the ends of the instants before. -/
structure Arrived (u : Upload) (base time : Nat) (s : Sink) : Prop where
  describes : u.Describes base s
  spares : u.Spares time s
  ended : ∀ t o, u.ending = some (t, o) → t < time → s.seen.done = some o
  unseen : u.bound ≠ 0 → (∀ t o, u.ending = some (t, o) → time ≤ t) → s.seen.done = none

/-- What is to be seen of the sink when everything is done at an instant. -/
structure Settled (u : Upload) (base time : Nat) (s : Sink) : Prop where
  describes : u.Describes base s
  spares : u.Spares time s
  seen : s.seen.done = u.seenAt time

theorem Describes.onward {t : Sink} (h : u.Describes base s) (hst : s.Onward t) :
    u.Describes base t := by
  have hshape := hst.shape
  simp only [Sink.shape, Prod.mk.injEq] at hshape
  obtain ⟨hname, hbound, hwatch⟩ := hshape
  exact ⟨hname.trans h.name, hbound.trans h.bound, hwatch.trans h.watch⟩

theorem Spares.settle (h : u.Spares time s) (hd : u.Describes base s) :
    u.Spares time (s.settle outside (base + time)).1 := by
  intro hc
  rcases Sink.isCancelled_settle hc with hc | ⟨w, hw, hdue⟩
  · exact h hc
  · have hwatch := hd.watch
    rw [hw, Option.map_some] at hwatch
    by_cases hb : u.bound = 0
    · rw [if_pos hb] at hwatch
      exact absurd hwatch (by simp)
    · rw [if_neg hb] at hwatch
      have := Option.some.inj hwatch
      exact .inr ⟨hb, by omega⟩

/-- **One instant of an upload.** If the sink has seen what had ended before, and its own signal agrees
with when it completes by itself, then it comes to see what has ended by now. -/
theorem Arrived.settle (h : u.Arrived base time s)
    (hown : u.InTime time → u.Agrees time (s.advance outside (base + time)).1.signals.done) :
    u.Settled base time (s.settle outside (base + time)).1 := by
  have honward := s.onward_settle outside (base + time)
  refine ⟨h.describes.onward honward, h.spares.settle h.describes, ?_⟩
  -- What was seen before stays as it is.
  by_cases hbefore : ∃ t o, u.ending = some (t, o) ∧ t < time
  · obtain ⟨t, o, he, hlt⟩ := hbefore
    rw [seenAt_of_ended he (Nat.le_of_lt hlt)]
    exact honward.seen.done o (h.ended t o he hlt)
  · have hlate (t : Nat) (o : Outcome) (he : u.ending = some (t, o)) : time ≤ t :=
      Nat.not_lt.mp fun hlt => hbefore ⟨t, o, he, hlt⟩
    by_cases hb : u.bound = 0
    · -- Without a watch the signal itself is seen.
      have hw : s.watch = none := by
        have := h.describes.watch
        rw [if_pos hb] at this
        exact Option.map_eq_none_iff.mp this
      rw [Sink.settle_of_unwatched hw, Sink.seen_of_unwatched ((Sink.watch_advance s).trans hw)]
      have hown := hown (.inl hb)
      have he := ending_of_unbounded hb
      cases hc : u.completion with
      | none =>
        rw [hown.never hc, seenAt_of_not_ended]
        rintro ⟨t, o, ht, _⟩
        rw [he, hc] at ht
        exact absurd ht (by simp)
      | some p =>
        obtain ⟨t, o⟩ := p
        rw [hc] at he
        rcases Nat.lt_or_eq_of_le (hlate t o he) with hlt | heq
        · rw [hown.before t o hc hlt, seenAt_of_lt he hlt]
        · rw [hown.at_ t o hc heq, seenAt_of_ended he (Nat.le_of_eq heq.symm)]
    · -- The watch looks at the signal first, and at its deadline only if there is none.
      obtain ⟨w, hw, hdeadline⟩ : ∃ w, s.watch = some w ∧ w.deadline = base + u.bound := by
        have := h.describes.watch
        rw [if_neg hb] at this
        exact Option.map_eq_some_iff.mp this
      have hseen : w.seen.done = none := by
        rw [← Sink.seen_of_watch hw]
        exact h.unseen hb hlate
      have htimeout : (s.advance outside (base + time)).1.timeout =
          .closeTimeout u.name u.bound := by
        have hd := h.describes.onward (s.onward_advance outside (base + time))
        rw [Sink.timeout, hd.name, hd.bound]
      rw [Sink.done_settle hw, hseen, hdeadline, htimeout]
      rcases ending_of_bounded hb with ⟨t, o, hc, hle, he⟩ | ⟨hlater, he⟩
      · have hown := hown (.inr (Nat.le_trans (hlate t o he) hle))
        rcases Nat.lt_or_eq_of_le (hlate t o he) with hlt | heq
        · rw [hown.before t o hc hlt, seenAt_of_lt he hlt]
          exact if_pos (by omega)
        · rw [hown.at_ t o hc heq, seenAt_of_ended he (Nat.le_of_eq heq.symm)]
      · -- The bound comes first, so there is nothing to see before it has passed.
        have hown := hown (.inr (hlate _ _ he))
        have hnone : (s.advance outside (base + time)).1.signals.done = none := by
          cases hc : u.completion with
          | none => exact hown.never hc
          | some p =>
            have := hlater p.1 p.2 hc
            have := hlate _ _ he
            exact hown.before p.1 p.2 hc (by omega)
        rw [hnone]
        rcases Nat.lt_or_eq_of_le (hlate _ _ he) with hlt | heq
        · rw [seenAt_of_lt he hlt]
          exact if_pos (by omega)
        · rw [seenAt_of_ended he (Nat.le_of_eq heq.symm)]
          exact if_neg (by omega)

/-- What is seen when an instant is over is what is seen when the next one begins. -/
theorem Settled.arrived {next : Nat} (h : u.Settled base time s) (hlt : time < next)
    (hnone : ∀ t o, u.ending = some (t, o) → t < next → t ≤ time) : u.Arrived base next s where
  describes := h.describes
  spares := fun hc => (h.spares hc).imp_right fun ⟨hb, hle⟩ => ⟨hb, by omega⟩
  ended := fun t o he ht => h.seen.trans (seenAt_of_ended he (hnone t o he ht))
  unseen := fun _ hlate => by
    refine h.seen.trans (seenAt_of_not_ended ?_)
    rintro ⟨t, o, he, hle⟩
    have := hlate t o he
    omega

end Upload

end EventUpload
