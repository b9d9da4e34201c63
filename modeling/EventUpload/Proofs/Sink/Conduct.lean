import EventUpload.Proofs.Sink.Resolution
import EventUpload.Proofs.Sink.Watch
import EventUpload.Proofs.Stream.Deed

/-!
# What a sink does by itself

`Sink.settle` does everything that can be done at an instant, in one order. In `Sink.Stirs` one thing
happens: the channel of a sink has a turn, or its watch looks at one of the signals. Only one order is
kept: when the bound has passed, the signal for being done is looked at before the other one may time
out (`InTurn`).

Two things are shown of a sink that goes on like this. What its channel has accepted are the events with
the first numbers, and if it failed somebody was told (`Sink.Kept`); and what its watch has seen is
true, unless it is that the bound has passed (`Sink.Candid`). A sink of which both hold and whose end is
seen has everything written and flushed, or there is an error that is still to be told, or somebody was
told (`Sink.Kept.of_seen`).

That somebody was told is a proposition `told` that every lemma here leaves open. A step may assume it
if the step has met an error, since whoever carries out the step posts the errors that it meets; the
lifecycle puts in for it that an alarm was raised. In this way nothing here depends on logs, and the
invariant can be carried from one state to the next although the log grows (`Kept.mono`).

The one order that is kept is not for convenience. A timer of the half-close that has its turn first may
make a sink look cancelled to the timer of being done, and then what the watch sees is not true of
anything but that timer (`Proofs.Sink.TwoTimers`). `Candid` would be false of such a sink, and what is
said of losses in `Proofs.Lifecycle.SilentLoss` is said for the order in which `Sink.settle` goes.

`Running` is the form that `Kept` has before anybody watches a sink. It also says that the sink is
closed only if its stream is, which is needed to know that events can still be accepted.
-/

set_option autoImplicit false

namespace EventUpload

open List (Forall₂)

namespace Sink

/-! ## One thing after the other

The relation has single things as its steps, and not whole instants, because something may be posted
between two of them that a later one relies on. -/

/-- The half-close only times out when it has been seen that the sink is done. -/
def InTurn (now : Nat) (s : Sink) : Prop :=
  ∀ w, s.watch = some w → w.deadline ≤ now → w.seen.half = none → s.signals.half = none →
    w.seen.done.isSome = true

/-- One thing that a sink does by itself at an instant, and the errors that it meets. -/
inductive Stirs (now : Nat) (s : Sink) : Sink → List SinkError → Prop where
  | answers {r : Responder} : s.body = .responder r →
      Stirs now s { s with body := .responder (r.advance now) } []
  /-- The channel has a turn, with the outside as it is by then. -/
  | works {c d : Channel} {outside outside' : Outside} {errors : List SinkError} :
      s.body = .channel c → c.step? outside now = some (d, outside', errors) →
      Stirs now s { s with body := .channel d } errors
  | watchesDone (outside : Outside) : Stirs now s (s.watchDone outside now).1 []
  | watchesHalf (outside : Outside) : s.InTurn now → Stirs now s (s.watchHalf outside now).1 []

/-- What a sink does by itself at an instant, one thing after the other. -/
inductive GoesOn (now : Nat) (s : Sink) : Sink → List SinkError → Prop where
  | rest : GoesOn now s s []
  | step {t u : Sink} {errors more : List SinkError} :
      GoesOn now s t errors → Stirs now t u more → GoesOn now s u (errors ++ more)

/-- The same for sinks next to each other. -/
inductive AllGoOn (now : Nat) : List Sink → List Sink → List SinkError → Prop where
  | nil : AllGoOn now [] [] []
  | cons {s t : Sink} {ss ts : List Sink} {errors more : List SinkError} :
      GoesOn now s t errors → AllGoOn now ss ts more → AllGoOn now (s :: ss) (t :: ts) (errors ++ more)

variable {now : Nat} {s t u : Sink} {errors more : List SinkError}

theorem Stirs.onward (h : Stirs now s t errors) : s.Onward t := by
  cases h with
  | @answers r hb =>
    obtain ⟨bound, body, watch⟩ := s
    cases hb
    exact .ofResponder (r.onward_advance now)
  | works hb hstep =>
    obtain ⟨bound, body, watch⟩ := s
    cases hb
    exact .ofChannel (Channel.does_step? hstep).onward
  | watchesDone outside => exact s.onward_watchDone outside now
  | watchesHalf outside _ => exact s.onward_watchHalf outside now

theorem GoesOn.onward (h : GoesOn now s t errors) : s.Onward t := by
  induction h with
  | rest => exact .refl s
  | step _ hstir ih => exact ih.trans hstir.onward

theorem AllGoOn.onward {ss ts : List Sink} (h : AllGoOn now ss ts errors) :
    Forall₂ Sink.Onward ss ts := by
  induction h with
  | nil => exact .nil
  | cons hgo _ ih => exact .cons hgo.onward ih

theorem GoesOn.trans (h : GoesOn now s t errors) (k : GoesOn now t u more) :
    GoesOn now s u (errors ++ more) := by
  induction k with
  | rest =>
    rw [List.append_nil]
    exact h
  | step _ hstir ih =>
    rw [← List.append_assoc]
    exact ih.step hstir

theorem Stirs.goesOn (h : Stirs now s t errors) : GoesOn now s t errors := GoesOn.rest.step h

/-- What one thing keeps, all of them keep; the errors that are met are told. -/
theorem GoesOn.keeps {P : Sink → Prop} {told : Prop}
    (hstirs : ∀ {s t : Sink} {errors : List SinkError},
      P s → Stirs now s t errors → (errors ≠ [] → told) → P t)
    (h : GoesOn now s t errors) (htold : errors ≠ [] → told) (hs : P s) : P t := by
  induction h with
  | rest => exact hs
  | @step t u errors more _ hstir ih =>
    refine hstirs (ih fun hne => htold ?_) hstir fun hne => htold ?_
    · exact fun h => hne (List.append_eq_nil_iff.mp h).1
    · exact fun h => hne (List.append_eq_nil_iff.mp h).2

theorem AllGoOn.keeps {P : Sink → Prop} {told : Prop}
    (hstirs : ∀ {s t : Sink} {errors : List SinkError},
      P s → Stirs now s t errors → (errors ≠ [] → told) → P t)
    {ss ts : List Sink} (h : AllGoOn now ss ts errors) (htold : errors ≠ [] → told)
    (hss : ∀ s ∈ ss, P s) : ∀ t ∈ ts, P t := by
  induction h with
  | nil => exact fun t ht => absurd ht (by simp)
  | @cons s t ss ts errors more hgo _ ih =>
    intro u hu
    rcases List.mem_cons.mp hu with rfl | hu
    · refine hgo.keeps hstirs (fun hne => htold ?_) (hss s (by simp))
      exact fun h => hne (List.append_eq_nil_iff.mp h).1
    · refine ih (fun hne => htold ?_) (fun s hs => hss s (List.mem_cons_of_mem _ hs)) u hu
      exact fun h => hne (List.append_eq_nil_iff.mp h).2

/-! ## What is done at an instant

The function of the program settles a sink in one go, and here it is taken apart. -/

theorem goesOn_run (steps : Nat) {bound : Nat} {watch : Option Watch} (c : Channel)
    (outside : Outside) : GoesOn now ⟨bound, .channel c, watch⟩
      ⟨bound, .channel (Channel.run steps c outside now).1, watch⟩
      (Channel.run steps c outside now).2.2 := by
  induction steps generalizing c outside with
  | zero => exact .rest
  | succ steps ih =>
    cases hstep : c.step? outside now with
    | none =>
      simp only [Channel.run, hstep]
      exact .rest
    | some out =>
      simp only [Channel.run, hstep]
      have hworks : Stirs now ⟨bound, .channel c, watch⟩ ⟨bound, .channel out.1, watch⟩ out.2.2 :=
        .works rfl hstep
      exact hworks.goesOn.trans (ih out.1 out.2.1)

theorem goesOn_advance (s : Sink) (outside : Outside) :
    GoesOn now s (s.advance outside now).1 (s.advance outside now).2.2 := by
  obtain ⟨bound, body, watch⟩ := s
  cases body with
  | responder r => exact (Stirs.answers rfl).goesOn
  | channel c => exact goesOn_run _ c outside

/-- When the watch has looked after the end, the half-close may time out. -/
theorem inTurn_watchDone (s : Sink) (outside : Outside) : (s.watchDone outside now).1.InTurn now := by
  intro w hw hdue _ _
  have hseen := seen_of_watch hw
  obtain ⟨w', hw', hdeadline⟩ := shape_eq_of_watch (s.onward_watchDone outside now).shape hw
  rw [← hseen, done_watchDone hw']
  split
  · rfl
  · rfl
  · rw [if_neg (by omega)]
    rfl

/-- **Everything that is done to a sink at an instant** is a row of such things. -/
theorem goesOn_settle (s : Sink) (outside : Outside) :
    GoesOn now s (s.settle outside now).1 (s.settle outside now).2.2 := by
  have hadvance : GoesOn now s (s.advance outside now).1 (s.advance outside now).2.2 :=
    goesOn_advance s outside
  have hdone := hadvance.step (.watchesDone (s.advance outside now).2.1)
  have hhalf := hdone.step (.watchesHalf
    ((s.advance outside now).1.watchDone (s.advance outside now).2.1 now).2 (inTurn_watchDone _ _))
  rw [List.append_nil, List.append_nil] at hhalf
  exact hhalf

end Sink

/-! ## What a channel has accepted

`Stands` knows which events a channel was given. What is added is their numbers, which are those of a
stream from one on, and that a failure was told. -/

/-- The channel has accepted events with the first numbers, up to the next one, and if it has failed
somebody was told. -/
def Channel.Kept (next : Nat) (told : Prop) (c : Channel) : Prop :=
  ∃ accepted course, c.Stands accepted course ∧
    accepted.map (·.sequence) = List.range' 1 (next - 1) ∧ (course.error? c.name ≠ none → told)

namespace Channel.Kept

variable {next : Nat} {told told' : Prop} {c d : Channel}

theorem mono (h : c.Kept next told) (htold : told → told') : c.Kept next told' := by
  obtain ⟨accepted, course, hstands, hnumbers, herror⟩ := h
  exact ⟨accepted, course, hstands, hnumbers, fun he => htold (herror he)⟩

theorem new (name : String) (destination : Destination) (told : Prop) :
    (Channel.new name destination).Kept 1 told :=
  ⟨[], .writing, .ready rfl rfl rfl rfl rfl, rfl, fun h => absurd rfl h⟩

theorem does {ended : List (Work × Verdict)} {errors : List SinkError} (h : c.Kept next told)
    (hd : c.Does d ended errors) (htold : errors ≠ [] → told) : d.Kept next told := by
  obtain ⟨accepted, course, hstands, hnumbers, herror⟩ := h
  obtain ⟨course', hstands', -, hmet⟩ := hstands.does hd
  refine ⟨accepted, course', hstands', hnumbers, ?_⟩
  intro he
  rw [hd.keeps.1] at he
  by_cases herrors : errors = []
  · -- Nothing new was met, so the failure is the one that there was before.
    rw [herrors, List.append_nil] at hmet
    refine herror fun hnone => he ?_
    rw [hnone, Option.toList_none, Option.toList_eq_nil_iff] at hmet
    exact hmet
  · exact htold herrors

theorem accept (h : c.Kept next told) (hopen : c.closing = false ∧ c.cancelled = false)
    (hpos : 1 ≤ next) (e : Event) : (c.accept (e.numbered next)).Kept (next + 1) told := by
  obtain ⟨accepted, course, hstands, hnumbers, herror⟩ := h
  have hnext := hstands.accept (e.numbered next)
  rw [hopen.1, hopen.2, if_neg (by simp)] at hnext
  refine ⟨_, course, hnext, ?_, ?_⟩
  · rw [List.map_append, hnumbers, show next + 1 - 1 = next - 1 + 1 by omega, List.range'_concat]
    show _ ++ [next] = _
    rw [show 1 + 1 * (next - 1) = next by omega]
  · rw [(accept_keeps c _).1]
    exact herror

theorem close (h : c.Kept next told) : c.close.Kept next told := by
  obtain ⟨accepted, course, hstands, hnumbers, herror⟩ := h
  exact ⟨accepted, course, hstands.close, hnumbers, herror⟩

theorem cancel (h : c.Kept next told) (outside : Outside) :
    (c.cancel outside).1.Kept next told := by
  obtain ⟨accepted, course, hstands, hnumbers, herror⟩ := h
  refine ⟨accepted, course, hstands.cancel outside, hnumbers, ?_⟩
  rw [(cancel_keeps c outside).1]
  exact herror

/-- A channel that has sent everything has written all its events. -/
theorem written (h : c.Kept next told) (hhalf : c.signals.half = some .done) :
    c.written.map (·.sequence) = List.range' 1 (next - 1) := by
  obtain ⟨accepted, course, hstands, hnumbers, -⟩ := h
  rw [← hstands.accepted_of_half hhalf]
  exact hnumbers

theorem half_of_done (h : c.Kept next told) (hdone : c.signals.done.isSome = true) :
    c.signals.half.isSome = true := by
  obtain ⟨accepted, course, hstands, -⟩ := h
  exact hstands.half_of_done hdone

/-- How a channel can have come to its end. -/
theorem done_cases (h : c.Kept next told) {o : Outcome} (hdone : c.signals.done = some o) :
    c.signals.half = some .done ∧ o = .done ∨
      c.cancelled = true ∧ o = .failed (.cancelled c.name) ∨ told := by
  obtain ⟨accepted, course, hstands, -, herror⟩ := h
  rcases hstands.signals_cases with hsig | ⟨-, hsig⟩ | ⟨p, -, hsig, hwhy⟩
  · simp [hsig, Signals.unresolved] at hdone
  · simp [hsig] at hdone
  · rw [hsig, Option.some.injEq] at hdone
    subst hdone
    rcases hwhy with ⟨hc, ho, -⟩ | ⟨-, ho⟩
    · exact .inr (.inl ⟨hc, ho⟩)
    · cases p with
      | done => exact .inl ⟨hstands.half_of_success (by rw [hsig]), rfl⟩
      | failed e =>
        refine .inr (.inr (herror ?_))
        rw [Course.error?_of_outcome? ho]
        exact Option.some_ne_none e

end Channel.Kept

/-! ## What is known of a sink

A sink with a script is not `Kept`: it may come to any outcome without having done anything. -/

namespace Sink

variable {now next : Nat} {told told' : Prop} {s t : Sink} {errors : List SinkError}

/-- The sink has a channel that has accepted events with the first numbers, and if that has failed
somebody was told. -/
def Kept (next : Nat) (told : Prop) (s : Sink) : Prop :=
  ∃ c, s.body = .channel c ∧ c.Kept next told

/-- What is seen of a sink is true of it, unless it is that its bound has passed; and it was only
cancelled because of that. -/
structure Candid (s : Sink) : Prop where
  half : s.seen.half = some .done → s.signals.half = some .done
  done : ∀ o, s.seen.done = some o →
    s.signals.done = some o ∨ ∃ e, o = .failed e ∧ e.isTimeout = true
  cancelled : s.isCancelled = true → ∃ e, s.seen.done = some (.failed e) ∧ e.isTimeout = true

theorem Kept.mono (h : s.Kept next told) (htold : told → told') : s.Kept next told' := by
  obtain ⟨c, hb, hc⟩ := h
  exact ⟨c, hb, hc.mono htold⟩

/-- A channel resolves its signals itself. -/
theorem Kept.resolve_eq (h : s.Kept next told) (half : Bool) (o : Outcome) :
    s.resolve half o = s := by
  obtain ⟨c, hb, -⟩ := h
  simp only [Sink.resolve, hb]

theorem Kept.half_of_done (h : s.Kept next told) (hdone : s.signals.done.isSome = true) :
    s.signals.half.isSome = true := by
  obtain ⟨c, hb, hc⟩ := h
  simp only [signals, hb] at hdone ⊢
  exact hc.half_of_done hdone

/-- A sink that has sent everything has written all its events. -/
theorem Kept.received (h : s.Kept next told) (hhalf : s.signals.half = some .done) :
    s.received.map (·.sequence) = List.range' 1 (next - 1) := by
  obtain ⟨c, hb, hc⟩ := h
  simp only [signals, hb] at hhalf
  simp only [Sink.received, hb]
  exact hc.written hhalf

theorem Kept.cancel (h : s.Kept next told) (outside : Outside) :
    (s.cancel outside).1.Kept next told := by
  obtain ⟨bound, body, watch⟩ := s
  obtain ⟨c, rfl, hc⟩ := h
  exact ⟨_, rfl, hc.cancel outside⟩

/-- Whatever a watch sees, the sink behind it is as it was. -/
theorem Kept.watched (h : s.Kept next told) (watch : Option Watch) :
    { s with watch := watch }.Kept next told := h

theorem Kept.watchDone (h : s.Kept next told) (outside : Outside) :
    (s.watchDone outside now).1.Kept next told := by
  unfold Sink.watchDone
  split
  · exact h
  · split
    · exact h
    · split
      · exact h.watched _
      · split
        · exact h
        · exact (h.watched _).cancel outside

theorem Kept.watchHalf (h : s.Kept next told) (outside : Outside) :
    (s.watchHalf outside now).1.Kept next told := by
  unfold Sink.watchHalf
  split
  · exact h
  · split
    · exact h
    · split
      · exact h.watched _
      · split
        · exact h
        · exact (h.watched _).cancel outside

theorem Kept.startWatch (h : s.Kept next told) : (s.startWatch now).Kept next told := by
  unfold Sink.startWatch
  split
  · exact h
  · exact h.watched _

theorem Kept.giveUp (h : s.Kept next told) (outside : Outside) :
    (s.giveUp outside).1.Kept next told := (h.watched _).cancel outside

theorem Kept.stirs (h : s.Kept next told) (hs : Stirs now s t errors)
    (htold : errors ≠ [] → told) : t.Kept next told := by
  cases hs with
  | answers hb =>
    obtain ⟨c, hb', -⟩ := h
    cases hb.symm.trans hb'
  | @works c d outside outside' errors hb hstep =>
    obtain ⟨c', hb', hc⟩ := h
    cases hb.symm.trans hb'
    exact ⟨d, rfl, hc.does (Channel.does_step? hstep) htold⟩
  | watchesDone outside => exact h.watchDone outside
  | watchesHalf outside _ => exact h.watchHalf outside

/-! ### What a watch sees

A watch sees its sink's outcome or the timeout. Cancelling a sink makes an outcome that is not its own,
so `Candid` says of a cancelled sink that its watch had seen the timeout before. -/

/-- A sink that nobody has cancelled or begun to watch hides nothing. -/
theorem Candid.fresh (hw : s.watch = none) (hc : s.isCancelled = false) : s.Candid where
  half := by
    rw [seen_of_unwatched hw]
    exact fun h => h
  done := by
    intro o ho
    rw [seen_of_unwatched hw] at ho
    exact .inl ho
  cancelled := fun h => absurd h (by simp [hc])

theorem Candid.startWatch (h : s.Candid) (hc : s.isCancelled = false) :
    (s.startWatch now).Candid := by
  unfold Sink.startWatch
  split
  · exact h
  · exact {
      half := fun hseen => absurd hseen (by simp [seen, Signals.unresolved])
      done := fun o hseen => absurd hseen (by simp [seen, Signals.unresolved])
      cancelled := fun hcancelled => absurd (hc.symm.trans hcancelled) (by simp) }

/-- A step of the worker posts an error whenever it makes a half fail, so a candid sink stays candid.
-/
theorem Candid.works {c d : Channel} {outside outside' : Outside} (h : s.Candid)
    (hb : s.body = .channel c) (hstep : c.step? outside now = some (d, outside', errors)) :
    { s with body := .channel d }.Candid := by
  have honward : s.Onward { s with body := .channel d } := (Stirs.works hb hstep).onward
  have hcancelled : isCancelled { s with body := .channel d } = s.isCancelled := by
    simp only [isCancelled, hb]
    exact (Channel.does_step? hstep).keeps.2.2
  -- Without a watch one sees the signals themselves; with a watch nothing new is seen before it looks.
  rcases Option.eq_none_or_eq_some s.watch with hw | ⟨w, hw⟩
  · have hseen : seen { s with body := .channel d } = signals { s with body := .channel d } :=
      seen_of_unwatched hw
    refine ⟨?_, ?_, ?_⟩
    · rw [hseen]
      exact fun h => h
    · rw [hseen]
      exact fun o ho => .inl ho
    · intro hc
      obtain ⟨e, he, ht⟩ := h.cancelled (hcancelled ▸ hc)
      exact ⟨e, honward.seen.done _ he, ht⟩
  · have hseen : seen { s with body := .channel d } = s.seen := by
      rw [seen_of_watch hw]
      exact seen_of_watch hw
    refine ⟨?_, ?_, ?_⟩
    · intro hhalf
      exact honward.signals.half _ (h.half (hseen ▸ hhalf))
    · intro o ho
      exact (h.done o (hseen ▸ ho)).imp_left (honward.signals.done o)
    · intro hc
      rw [hseen]
      exact h.cancelled (hcancelled ▸ hc)

/-- What a watch sees of a signal that has an outcome is that outcome. -/
theorem Candid.seesDone {w : Watch} {o : Outcome} (h : s.Candid) (hw : s.watch = some w)
    (hnone : w.seen.done = none) (ho : s.signals.done = some o) :
    { s with watch := some { w with seen := { w.seen with done := some o } } }.Candid where
  half := by
    intro hhalf
    refine h.half ?_
    rw [seen_of_watch hw]
    exact hhalf
  done := by
    intro o' ho'
    cases ho'
    exact .inl ho
  cancelled := by
    intro hc
    obtain ⟨e, he, -⟩ := h.cancelled hc
    rw [seen_of_watch hw, hnone] at he
    cases he

theorem Candid.seesHalf {w : Watch} {o : Outcome} (h : s.Candid) (hw : s.watch = some w)
    (ho : s.signals.half = some o) :
    { s with watch := some { w with seen := { w.seen with half := some o } } }.Candid where
  half := by
    intro hhalf
    exact ho.trans hhalf
  done := by
    intro o' ho'
    refine h.done o' ?_
    rw [seen_of_watch hw]
    exact ho'
  cancelled := by
    intro hc
    have := h.cancelled hc
    rw [seen_of_watch hw] at this
    exact this

/-- When the bound passes the sink is cancelled, and that is what is seen. -/
theorem Candid.timesOut {w : Watch} {e : SinkError} (h : s.Candid) (hw : s.watch = some w)
    (he : e.isTimeout = true) (outside : Outside) :
    ({ s with watch := some { w with seen := { w.seen with done := some (.failed e) } }
      }.cancel outside).1.Candid := by
  have honward := onward_cancel
    { s with watch := some { w with seen := { w.seen with done := some (.failed e) } } } outside
  have hseen := seen_of_watch (s := ({ s with
    watch := some { w with seen := { w.seen with done := some (.failed e) } } }.cancel outside).1)
    (watch_cancel _)
  refine ⟨?_, ?_, ?_⟩
  · intro hhalf
    rw [hseen] at hhalf
    refine honward.signals.half _ (h.half ?_)
    rw [seen_of_watch hw]
    exact hhalf
  · intro o ho
    rw [hseen] at ho
    cases ho
    exact .inr ⟨e, rfl, he⟩
  · intro _
    rw [hseen]
    exact ⟨e, rfl, he⟩

/-- The half-close times out after the end was seen to do so. -/
theorem Candid.timesOutHalf {w : Watch} {o : Outcome} {e : SinkError} (h : s.Candid)
    (hkept : s.Kept next told) (hw : s.watch = some w) (hnone : s.signals.half = none)
    (ho : w.seen.done = some o) (outside : Outside) :
    ({ s with watch := some { w with seen := { w.seen with half := some (.failed e) } }
      }.cancel outside).1.Candid := by
  have hseen := seen_of_watch (s := ({ s with
    watch := some { w with seen := { w.seen with half := some (.failed e) } } }.cancel outside).1)
    (watch_cancel _)
  -- A sink that is done has sent everything, so the end was not seen because it is there.
  have htimeout : ∃ e', o = .failed e' ∧ e'.isTimeout = true := by
    rcases h.done o (by rw [seen_of_watch hw]; exact ho) with hown | htimeout
    · have := hkept.half_of_done (by rw [hown]; rfl)
      rw [hnone] at this
      cases this
    · exact htimeout
  obtain ⟨e', rfl, he'⟩ := htimeout
  refine ⟨?_, ?_, ?_⟩
  · intro hhalf
    rw [hseen] at hhalf
    cases hhalf
  · intro o ho'
    rw [hseen] at ho'
    exact .inr ⟨e', (Option.some.inj (ho.symm.trans ho')).symm, he'⟩
  · intro _
    rw [hseen]
    exact ⟨e', ho, he'⟩

theorem Candid.watchDone (h : s.Candid) (outside : Outside) :
    (s.watchDone outside now).1.Candid := by
  unfold Sink.watchDone
  cases hw : s.watch with
  | none => exact h
  | some w =>
    dsimp only
    cases hd : w.seen.done with
    | some o => exact h
    | none =>
      rw [if_neg (by simp)]
      cases ho : s.signals.done with
      | some o => exact h.seesDone hw hd ho
      | none =>
        dsimp only
        split
        · exact h
        · exact h.timesOut hw rfl outside

theorem Candid.watchHalf (h : s.Candid) (hkept : s.Kept next told) (hturn : s.InTurn now)
    (outside : Outside) : (s.watchHalf outside now).1.Candid := by
  unfold Sink.watchHalf
  cases hw : s.watch with
  | none => exact h
  | some w =>
    dsimp only
    cases hd : w.seen.half with
    | some o => exact h
    | none =>
      rw [if_neg (by simp)]
      cases ho : s.signals.half with
      | some o => exact h.seesHalf hw ho
      | none =>
        dsimp only
        split
        · exact h
        · next hdue =>
          obtain ⟨o, hdone⟩ := Option.isSome_iff_exists.mp (hturn w hw (by omega) hd ho)
          exact h.timesOutHalf hkept hw ho hdone outside

theorem Candid.stirs (h : s.Candid) (hkept : s.Kept next told) (hs : Stirs now s t errors) :
    t.Candid := by
  cases hs with
  | answers hb =>
    obtain ⟨c, hb', -⟩ := hkept
    cases hb.symm.trans hb'
  | works hb hstep => exact h.works hb hstep
  | watchesDone outside => exact h.watchDone outside
  | watchesHalf outside hturn => exact h.watchHalf hkept hturn outside

/-! ### Before anybody watches

Watches begin when a stream is closed, and whoever gives a sink up does so later still. So while the
stream is open its sinks are neither watched nor cancelled, and they take events. -/

/-- A sink of a stream that nobody watches and nobody has cancelled. It has been closed only if its
stream was. -/
def Running (next : Nat) (told opened : Prop) (s : Sink) : Prop :=
  s.watch = none ∧ ∃ c, s.body = .channel c ∧ c.cancelled = false ∧
    (opened → c.closing = false) ∧ c.Kept next told

namespace Running

variable {opened : Prop}

theorem kept (h : s.Running next told opened) : s.Kept next told := by
  obtain ⟨-, c, hb, -, -, hc⟩ := h
  exact ⟨c, hb, hc⟩

theorem isCancelled (h : s.Running next told opened) : s.isCancelled = false := by
  obtain ⟨-, c, hb, hcancelled, -⟩ := h
  simp only [Sink.isCancelled, hb, hcancelled]

theorem mono (h : s.Running next told opened) (htold : told → told') :
    s.Running next told' opened := by
  obtain ⟨hw, c, hb, hcancelled, hopen, hc⟩ := h
  exact ⟨hw, c, hb, hcancelled, hopen, hc.mono htold⟩

theorem weaken {opened' : Prop} (h : s.Running next told opened) (hopen : opened' → opened) :
    s.Running next told opened' := by
  obtain ⟨hw, c, hb, hcancelled, hclosing, hc⟩ := h
  exact ⟨hw, c, hb, hcancelled, fun ho => hclosing (hopen ho), hc⟩

theorem new (bound : Nat) (name : String) (destination : Destination) :
    (Sink.new bound (.channel (.new name destination))).Running 1 told opened :=
  ⟨rfl, _, rfl, rfl, fun _ => rfl, .new name destination told⟩

theorem stirs (h : s.Running next told opened) (hs : Stirs now s t errors)
    (htold : errors ≠ [] → told) : t.Running next told opened := by
  obtain ⟨hw, c, hb, hcancelled, hopen, hc⟩ := h
  cases hs with
  | answers hb' => cases hb.symm.trans hb'
  | @works c' d outside outside' errors hb' hstep =>
    cases hb.symm.trans hb'
    have hdoes := Channel.does_step? hstep
    obtain ⟨-, hclosing, hcancelled'⟩ := hdoes.keeps
    refine ⟨hw, d, rfl, hcancelled'.trans hcancelled, ?_, hc.does hdoes htold⟩
    exact fun ho => hclosing.trans (hopen ho)
  | watchesDone outside =>
    have hsame : s.watchDone outside now = (s, outside) := by simp only [Sink.watchDone, hw]
    rw [hsame]
    exact ⟨hw, c, hb, hcancelled, hopen, hc⟩
  | watchesHalf outside _ =>
    have hsame : s.watchHalf outside now = (s, outside) := by simp only [Sink.watchHalf, hw]
    rw [hsame]
    exact ⟨hw, c, hb, hcancelled, hopen, hc⟩

theorem accept (h : s.Running next told opened) (hopened : opened) (hpos : 1 ≤ next) (e : Event) :
    (s.accept (e.numbered next)).Running (next + 1) told opened := by
  obtain ⟨bound, body, watch⟩ := s
  obtain ⟨hw, c, rfl, hcancelled, hopen, hc⟩ := h
  obtain ⟨-, hclosing, hcancelled', -⟩ := Channel.accept_keeps c (e.numbered next)
  refine ⟨hw, _, rfl, hcancelled'.trans hcancelled, fun ho => hclosing.trans (hopen ho), ?_⟩
  exact hc.accept ⟨hopen hopened, hcancelled⟩ hpos e

theorem acceptAll (es : List Event) (h : s.Running next told opened) (hopened : opened)
    (hpos : 1 ≤ next) :
    (s.obeyAll ((numberedFrom next es).map .accept)).Running (next + es.length) told opened := by
  induction es generalizing s next with
  | nil => exact h
  | cons e es ih =>
    have hnext := ih (h.accept hopened hpos e) (by omega)
    rw [List.length_cons, Nat.add_comm es.length, ← Nat.add_assoc]
    exact hnext

theorem close (h : s.Running next told opened) (now : Nat) :
    (s.close now).Running next told False := by
  obtain ⟨bound, body, watch⟩ := s
  obtain ⟨hw, c, rfl, hcancelled, -, hc⟩ := h
  exact ⟨hw, _, rfl, hcancelled, False.elim, hc.close⟩

end Running

/-! ### What is known when the end is seen

This is what the lifecycle uses when it finds a sink to be done. The error in the last case is one that
the lifecycle has still to tell of, so that nothing is lost if it does. -/

/-- **When the end of a sink is seen**, it has sent everything, or there is an error that is not only
a cancellation and that the sink does not report itself, or somebody was told. -/
theorem Kept.of_seen (h : s.Kept next told) (hcandid : s.Candid) {o : Outcome}
    (hseen : s.seen.done = some o) :
    s.signals.half = some .done ∨ told ∨
      ∃ e, o = .failed e ∧ e.isCancelled = false ∧ e.isTransmission = false := by
  rcases hcandid.done o hseen with hown | ⟨e, rfl, he⟩
  · obtain ⟨c, hb, hc⟩ := h
    simp only [signals, hb] at hown ⊢
    rcases hc.done_cases hown with ⟨hhalf, -⟩ | ⟨hcancelled, rfl⟩ | htold
    · exact .inl hhalf
    · -- It would only have been cancelled because of its bound, and that would be seen.
      obtain ⟨e, he, ht⟩ := hcandid.cancelled (by simp only [isCancelled, hb]; exact hcancelled)
      rw [hseen] at he
      cases he
      cases ht
    · exact .inr (.inl htold)
  · cases e with
    | closeTimeout sink bound => exact .inr (.inr ⟨_, rfl, rfl, rfl⟩)
    | construction sink reason => cases he
    | transmission sink reason => cases he
    | cancelled sink => cases he
    | aborted sink => cases he

/-- A sink whose end is seen to be a success has sent everything. -/
theorem Kept.half_of_seen (h : s.Kept next told) (hcandid : s.Candid)
    (hseen : s.seen.done = some .done) : s.signals.half = some .done := by
  rcases hcandid.done .done hseen with hown | ⟨e, he, -⟩
  · obtain ⟨c, hb, accepted, course, hstands, -⟩ := h
    simp only [signals, hb] at hown ⊢
    exact hstands.half_of_success hown
  · cases he

end Sink

end EventUpload
