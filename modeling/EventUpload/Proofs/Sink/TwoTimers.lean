import EventUpload.Proofs.Sink.Resolution
import EventUpload.Proofs.Sink.Timeouts

/-!
# The two timers of a channel

A channel with a bound has two timers: one for the entry of its half-close and one for that of its being
done. Both wait for the same instant, and whichever finds its entry open then tells the work of the
channel to stop. The work stops when it has its own turn; until then the other timer may have had its.
In `Sink.settle` the timer of being done comes first, and the work stops at once. Here the turns come
in any order (`WatchedChannel.Turn`), and `Sink.settle` is one of the orders (`settledInTurns`).

A timer looks at the signal of the channel before it looks at the clock. Hence the order matters, and in
one way only. While the work of a channel has not been stopped, its signals are what its destination has
come to, and if that has neither flushed, nor acknowledged, nor failed at anything, they are open
(`Channel.signals_of_unfinished`): the entry of being done resolves to the timeout as soon as its timer
has a turn, even if the other timer has already told the work to stop. Once the work has stopped, its
signals say that it was cancelled (`Channel.done_of_cancelled`), and that is what the entry resolves to,
although nobody has cancelled anything but the timer of the half-close. `WatchedChannel.resolves` says
both at once, and `Unforced.half` who it was.

Nothing is said here of when the turns come; that a timer never has its turn before its instant and
always has it in the end is part of `Proofs.Sink.Timeouts`.
-/

set_option autoImplicit false

namespace EventUpload

/-! ## Work that has come to nothing yet

Only a flush and an acknowledgement resolve signals with success, and only a failure or a cancellation
resolves them with an error. Writes that have succeeded say nothing. -/

namespace Channel

/-- The destination of a channel has neither flushed, nor acknowledged, nor failed at anything. -/
structure Trace.Unfinished (t : Trace) : Prop where
  flushed : (.flush, .ok) ∉ t.ended
  acknowledged : (.acknowledge, .ok) ∉ t.ended
  failed : ∀ work reason, (work, .failed reason) ∉ t.ended

theorem Trace.ended_act (t : Trace) (a : Act) : t.ended <+: (t.act a).ended := by
  cases a with
  | accept e => exact List.prefix_rfl
  | close => exact List.prefix_rfl
  | cancel outside => exact List.prefix_rfl
  | work outside now =>
    cases hstep : t.channel.step? outside now with
    | none => simp only [act_work_of_none hstep, List.prefix_refl]
    | some out =>
      rw [act_work_of_some hstep]
      exact List.prefix_append _ _

theorem Trace.Unfinished.of_act {t : Trace} {a : Act} (h : (t.act a).Unfinished) : t.Unfinished where
  flushed := fun hmem => h.flushed ((t.ended_act a).subset hmem)
  acknowledged := fun hmem => h.acknowledged ((t.ended_act a).subset hmem)
  failed := fun work reason hmem => h.failed work reason ((t.ended_act a).subset hmem)

/-- A channel that is still writing, and was not stopped, has signalled nothing. -/
theorem Stands.signals_of_writing {c : Channel} {accepted : List Event}
    (h : Stands accepted c .writing) (hopen : c.cancelled = false) : c.signals = .unresolved := by
  cases h with
  | ready _ _ _ hsig => exact hsig
  | writing _ _ _ hsig => exact hsig
  | flushing _ _ _ hsig => exact hsig
  | stopped _ hwhy =>
    rcases hwhy with ⟨hcancelled, -⟩ | ⟨-, ho⟩
    · cases hopen.symm.trans hcancelled
    · cases ho

/-- As long as its destination has come to nothing, a channel is still writing. -/
theorem stands_of_unfinished {name : String} {destination : Destination} {acts : List Act}
    (h : (trace name destination acts).Unfinished) :
    Stands (admitted acts) (trace name destination acts).channel .writing := by
  obtain ⟨course, hended, -, hstands⟩ := (coherent name destination acts).course
  have hmem {p : Work × Verdict} (hp : p ∈ course.ended) :
      p ∈ (trace name destination acts).ended := by
    rw [hended]
    exact List.mem_append_right _ hp
  cases course with
  | writing => exact hstands
  | writeFailed e reason => exact absurd (hmem (List.mem_cons_self ..)) (h.failed _ _)
  | flushFailed reason => exact absurd (hmem (List.mem_cons_self ..)) (h.failed _ _)
  | flushed => exact absurd (hmem (List.mem_cons_self ..)) h.flushed
  | acknowledgeFailed reason => exact absurd (hmem (List.mem_cons_self ..)) h.flushed
  | acknowledged => exact absurd (hmem (List.mem_cons_self ..)) h.flushed

/-- Nothing but what its destination comes to, or being stopped, resolves a signal of a channel. -/
theorem signals_of_unfinished {name : String} {destination : Destination} {acts : List Act}
    (hopen : (trace name destination acts).channel.cancelled = false)
    (h : (trace name destination acts).Unfinished) :
    (trace name destination acts).channel.signals = .unresolved :=
  (stands_of_unfinished h).signals_of_writing hopen

/-- A channel that has stopped before its destination came to anything says that it was cancelled. -/
theorem done_of_cancelled {name : String} {destination : Destination} {acts : List Act}
    (hcancelled : (trace name destination acts).channel.cancelled = true)
    (h : (trace name destination acts).Unfinished) :
    (trace name destination acts).channel.signals.done = some (.failed (.cancelled name)) := by
  have hname := (coherent name destination acts).name
  cases stands_of_unfinished h with
  | ready _ _ hopen => cases hopen.symm.trans hcancelled
  | writing _ _ hopen => cases hopen.symm.trans hcancelled
  | flushing _ _ hopen => cases hopen.symm.trans hcancelled
  | stopped _ hwhy hsig =>
    rcases hwhy with ⟨-, rfl, -⟩ | ⟨-, ho⟩
    · rw [hsig, hname]
    · cases ho

end Channel

/-! ## Turns in any order

The work of a channel is told to stop in the turn of a timer, and it stops in a turn of its own. In
between it may still go on, as work does that is told to stop at the next point where it waits; what it
does then is noted like everything else. -/

/-- A channel under watch, with everything that has happened to it. -/
structure WatchedChannel where
  name : String
  destination : Destination
  bound : Nat
  acts : List Channel.Act
  watch : Watch
  /-- A timer has told the work to stop. -/
  told : Bool

namespace WatchedChannel

/-- One thing that happens to a channel under watch. -/
inductive Turn where
  /-- Callers and the worker go on. -/
  | does (a : Channel.Act)
  /-- One of the two timers looks at its entry. -/
  | timer (half : Bool) (now : Nat)
  /-- The work stops if it was told to. -/
  | stops (outside : Outside)

variable (w : WatchedChannel)

def trace : Channel.Trace := Channel.trace w.name w.destination w.acts

def channel : Channel := w.trace.channel

def sink : Sink := ⟨w.bound, .channel w.channel, some w.watch⟩

def act (a : Channel.Act) : WatchedChannel := { w with acts := w.acts ++ [a] }

def shows (half : Bool) (o : Outcome) : WatchedChannel :=
  { w with watch := { w.watch with seen := w.watch.seen.put half o } }

/-- The turn of a timer. It only tells the work to stop. -/
def look (half : Bool) (now : Nat) : WatchedChannel :=
  if (w.watch.seen.of half).isSome then w
  else match w.channel.signals.of half with
    | some o => w.shows half o
    | none =>
      if now < w.watch.deadline then w
      else { w.shows half (.failed (.closeTimeout w.name w.bound)) with told := true }

/-- What a channel does not heed any longer when it was told to stop: it takes no events, and being
cancelled again is nothing new. -/
def ignores : Channel.Act → Bool
  | .accept _ | .cancel _ => w.told
  | .close | .work .. => false

def turn : Turn → WatchedChannel
  | .does a => if w.ignores a then w else w.act a
  | .timer half now => w.look half now
  | .stops outside => if w.told then w.act (.cancel outside) else w

def run (turns : List Turn) : WatchedChannel := turns.foldl turn w

/-- A channel, after anything that has happened to it, of which the signals have just been published. -/
def opened (name : String) (destination : Destination) (acts : List Channel.Act) (bound start : Nat) :
    WatchedChannel :=
  ⟨name, destination, bound, acts, ⟨start + bound, .unresolved⟩, false⟩

theorem trace_act (a : Channel.Act) : (w.act a).trace = w.trace.act a :=
  Channel.trace_concat w.name w.destination w.acts a

theorem run_append (turns more : List Turn) : w.run (turns ++ more) = (w.run turns).run more :=
  List.foldl_append

/-- A channel that was published is watched from then on. -/
theorem sink_opened (name : String) (destination : Destination) (acts : List Channel.Act) {bound : Nat}
    (hbound : bound ≠ 0) (start : Nat) : (opened name destination acts bound start).sink =
      (Sink.mk bound (.channel (Channel.trace name destination acts).channel) none).startWatch start := by
  rw [Sink.startWatch, if_neg hbound]
  rfl

/-! ## Where turns lead

`Onward` forgets which turns there were. `unfinished` goes backwards: what is known of the end is
thereby known of every moment before. -/

variable {w : WatchedChannel}

theorem channel_name : w.channel.name = w.name := (Channel.coherent _ _ w.acts).name

/-- What two moments of a watched channel have in common, and how it goes on from one to the other. -/
structure Onward (w v : WatchedChannel) : Prop where
  name : v.name = w.name
  bound : v.bound = w.bound
  deadline : v.watch.deadline = w.watch.deadline
  sink : w.sink.Onward v.sink
  /-- What has not come to anything later has not come to anything before. -/
  unfinished : v.trace.Unfinished → w.trace.Unfinished

theorem Onward.refl (w : WatchedChannel) : w.Onward w := ⟨rfl, rfl, rfl, .refl _, id⟩

theorem Onward.trans {v u : WatchedChannel} (h : w.Onward v) (k : v.Onward u) : w.Onward u where
  name := k.name.trans h.name
  bound := k.bound.trans h.bound
  deadline := k.deadline.trans h.deadline
  sink := h.sink.trans k.sink
  unfinished := fun hu => h.unfinished (k.unfinished hu)

theorem onward_act (w : WatchedChannel) (a : Channel.Act) : w.Onward (w.act a) where
  name := rfl
  bound := rfl
  deadline := rfl
  sink := by
    have hact := w.trace.onward_act a
    rw [← trace_act] at hact
    exact .ofChannel hact
  unfinished := fun hu => by
    rw [trace_act] at hu
    exact hu.of_act

theorem onward_look (w : WatchedChannel) (half : Bool) (now : Nat) : w.Onward (w.look half now) := by
  unfold look
  split
  · exact .refl w
  · next hseen =>
    rw [Option.not_isSome_iff_eq_none] at hseen
    have hshows (o : Outcome) : w.sink.Onward (w.shows half o).sink :=
      .ofWatch rfl (Signals.upto_put hseen o)
    split
    · next o _ => exact ⟨rfl, rfl, rfl, hshows o, id⟩
    · split
      · exact .refl w
      · exact ⟨rfl, rfl, rfl, hshows _, id⟩

theorem onward_turn (w : WatchedChannel) (t : Turn) : w.Onward (w.turn t) := by
  cases t with
  | does a =>
    rw [turn]
    split
    · exact .refl w
    · exact w.onward_act a
  | timer half now => exact w.onward_look half now
  | stops outside =>
    rw [turn]
    split
    · exact w.onward_act _
    · exact .refl w

theorem onward_run (w : WatchedChannel) (turns : List Turn) : w.Onward (w.run turns) := by
  induction turns generalizing w with
  | nil => exact .refl w
  | cons t turns ih => exact (w.onward_turn t).trans (ih _)

/-! ## The entry of being done

The entry can be open, or have the timeout, or have what the channel has come to. The last of these is
excluded as long as the channel's own signals are open, which is all that the induction needs. -/

/-- The error of a watched channel whose bound has passed. -/
def expiry (w : WatchedChannel) : Outcome := .failed (.closeTimeout w.name w.bound)

/-- The entry of being done is open, or has resolved to the timeout. -/
def InTime (w : WatchedChannel) : Prop :=
  w.watch.seen.done = none ∨ w.watch.seen.done = some w.expiry

/-- **A turn of a timer** shows nothing but the timeout, as long as the signals are open. -/
theorem InTime.look (h : w.InTime) (hopen : w.channel.signals = .unresolved) (half : Bool) (now : Nat) :
    (w.look half now).InTime := by
  unfold WatchedChannel.look
  split
  · exact h
  · rw [hopen, Signals.of_unresolved]
    dsimp only
    split
    · exact h
    · cases half with
      | false => exact .inr rfl
      | true => exact h

/-- As long as the work has neither come to anything nor been stopped, the entry of being done shows
nothing but the timeout. -/
theorem inTime_run {w : WatchedChannel} (h : w.InTime) {turns : List Turn}
    (hopen : (w.run turns).sink.isCancelled = false) (hrest : (w.run turns).trace.Unfinished) :
    (w.run turns).InTime := by
  induction turns generalizing w with
  | nil => exact h
  | cons t turns ih =>
    refine ih (w := w.turn t) ?_ hopen hrest
    have honward := (w.onward_turn t).trans ((w.turn t).onward_run turns)
    have hsignals : w.channel.signals = .unresolved := by
      refine Channel.signals_of_unfinished ?_ (honward.unfinished hrest)
      exact Bool.eq_false_iff.mpr fun hc => Bool.eq_false_iff.mp hopen (honward.sink.cancelled hc)
    cases t with
    | timer half now => exact h.look hsignals half now
    | does a =>
      rw [turn]
      split <;> exact h
    | stops outside =>
      rw [turn]
      split <;> exact h

/-- **Turns in any order.** The timer of being done has a turn when the bound of the channel has passed;
before that its other timer may have had turns, or not. If by then the destination has neither flushed,
nor acknowledged, nor failed at anything, and the work has not been stopped, the entry of being done is
resolved to the timeout, whatever follows. -/
theorem timed_out {name : String} {destination : Destination} {acts : List Channel.Act}
    {bound start time : Nat} {before : List Turn} {w : WatchedChannel}
    (hw : w = (opened name destination acts bound start).run before) (hlate : start + bound ≤ time)
    (hopen : w.sink.isCancelled = false) (hrest : w.trace.Unfinished) (after : List Turn) :
    ((w.run (.timer false time :: after)).sink.seen).done =
      some (.failed (.closeTimeout name bound)) := by
  subst hw
  set w := (opened name destination acts bound start).run before
  have honward := (opened name destination acts bound start).onward_run before
  have hsignals : w.channel.signals = .unresolved := Channel.signals_of_unfinished hopen hrest
  have hlook : (w.look false time).watch.seen.done = some (.failed (.closeTimeout name bound)) := by
    have hexpiry : w.expiry = .failed (.closeTimeout name bound) := by
      rw [expiry, honward.name, honward.bound]
      rfl
    have hintime : w.InTime := inTime_run (.inl rfl) hopen hrest
    rw [InTime, hexpiry] at hintime
    rcases hintime with hnone | hsome
    · have hdue : ¬ time < w.watch.deadline := by
        rw [honward.deadline]
        exact Nat.not_lt.mpr hlate
      rw [look, if_neg (by simp [Signals.of, hnone]), hsignals, Signals.of_unresolved]
      dsimp only
      rw [if_neg hdue]
      exact congrArg some hexpiry
    · rw [look, if_pos (by simp [Signals.of, hsome]), hsome]
  exact ((w.look false time).onward_run after).sink.seen.done _ hlook

/-- **What an overdue entry resolves to.** The timer of being done has a turn when the bound of the
channel has passed and its destination has come to nothing. If the work still goes on, told to stop or
not, that is the timeout. If it has stopped before, and the entry was open, it is the cancellation. -/
theorem resolves {name : String} {destination : Destination} {acts : List Channel.Act}
    {bound start time : Nat} {before : List Turn} {w : WatchedChannel}
    (hw : w = (opened name destination acts bound start).run before) (hlate : start + bound ≤ time)
    (hrest : w.trace.Unfinished) (hopen : w.channel.cancelled = true → w.watch.seen.done = none)
    (after : List Turn) : (w.run (.timer false time :: after)).sink.seen.done =
      some (.failed (if w.channel.cancelled then .cancelled name else .closeTimeout name bound)) := by
  cases hc : w.channel.cancelled with
  | false => exact timed_out hw hlate hc hrest after
  | true =>
    have hname : w.name = name := by
      rw [hw, (onward_run _ before).name]
      rfl
    -- The timer finds the entry open, and the signal resolved.
    have hsignal : w.channel.signals.of false = some (.failed (.cancelled w.name)) :=
      Channel.done_of_cancelled hc hrest
    have hlook : (w.look false time).watch.seen.done = some (.failed (.cancelled name)) := by
      rw [look, if_neg (by simp [Signals.of, hopen hc]), hsignal, ← hname]
      rfl
    exact ((w.look false time).onward_run after).sink.seen.done _ hlook

/-! ## Who stops the work

A channel that nobody cancels is stopped by a timer or not at all, and a timer that tells it to stop has
resolved its own entry to the timeout before. If this was the timer of being done, the entry of being
done is not open; so it was the other one. -/

/-- Nobody but a timer whose instant has come tells the work to stop. -/
structure Unforced (w : WatchedChannel) : Prop where
  cancelled : w.channel.cancelled = true → w.told = true
  told : w.told = true → w.watch.seen.half = some w.expiry ∨ w.watch.seen.done = some w.expiry

theorem unforced_opened (name : String) (destination : Destination) {acts : List Channel.Act}
    (hacts : ∀ outside, .cancel outside ∉ acts) (bound start : Nat) :
    (opened name destination acts bound start).Unforced where
  cancelled := fun hc => by
    obtain ⟨outside, hmem⟩ := (Channel.coherent name destination acts).cancelled.mp hc
    exact absurd hmem (hacts outside)
  told := fun ht => by cases ht

theorem Unforced.act {w : WatchedChannel} (h : w.Unforced) {a : Channel.Act}
    (ha : ∀ outside, a ≠ .cancel outside) : (w.act a).Unforced where
  cancelled := fun hc => by
    obtain ⟨outside, hmem⟩ := (Channel.coherent w.name w.destination (w.acts ++ [a])).cancelled.mp hc
    rcases List.mem_append.mp hmem with hmem | hmem
    · exact h.cancelled ((Channel.coherent w.name w.destination w.acts).cancelled.mpr ⟨outside, hmem⟩)
    · exact absurd (List.mem_singleton.mp hmem).symm (ha outside)
  told := h.told

/-- A timer does nothing to the channel itself. -/
theorem channel_look (w : WatchedChannel) (half : Bool) (now : Nat) :
    (w.look half now).channel = w.channel := by
  unfold look
  split
  · rfl
  · split
    · rfl
    · split <;> rfl

/-- What was told to stop stays so. -/
theorem told_of_look {w : WatchedChannel} {half : Bool} {now : Nat} (h : w.told = true) :
    (w.look half now).told = true := by
  unfold look
  split
  · exact h
  · split
    · exact h
    · split
      · exact h
      · rfl

/-- A timer that tells the work to stop shows the timeout. -/
theorem told_look {w : WatchedChannel} {half : Bool} {now : Nat} (h : (w.look half now).told = true) :
    w.told = true ∨ (w.look half now).watch.seen.of half = some w.expiry := by
  unfold look at h ⊢
  split
  · next hseen =>
    rw [if_pos hseen] at h
    exact .inl h
  · next hseen =>
    rw [if_neg hseen] at h
    split
    · next hsignal =>
      rw [hsignal] at h
      exact .inl h
    · next hsignal =>
      rw [hsignal] at h
      split
      · next hnow =>
        dsimp only at h
        rw [if_pos hnow] at h
        exact .inl h
      · exact .inr (Signals.of_put half _ _)

theorem Unforced.look {w : WatchedChannel} (h : w.Unforced) (half : Bool) (now : Nat) :
    (w.look half now).Unforced := by
  have honward := w.onward_look half now
  have hexpiry : (w.look half now).expiry = w.expiry := by
    rw [expiry, expiry, honward.name, honward.bound]
  have kept (ht : w.told = true) : (w.look half now).watch.seen.half = some w.expiry ∨
      (w.look half now).watch.seen.done = some w.expiry :=
    (h.told ht).imp (honward.sink.seen.half _) (honward.sink.seen.done _)
  refine ⟨fun hc => ?_, fun ht => ?_⟩
  · rw [channel_look] at hc
    exact told_of_look (h.cancelled hc)
  · rw [hexpiry]
    rcases told_look ht with ht | hshown
    · exact kept ht
    · cases half with
      | false => exact .inr hshown
      | true => exact .inl hshown

theorem unforced_run {w : WatchedChannel} (h : w.Unforced) {turns : List Turn}
    (hturns : ∀ outside, .does (.cancel outside) ∉ turns) : (w.run turns).Unforced := by
  induction turns generalizing w with
  | nil => exact h
  | cons t turns ih =>
    refine ih (w := w.turn t) ?_ fun outside hmem => hturns outside (List.mem_cons_of_mem _ hmem)
    cases t with
    | timer half now => exact h.look half now
    | does a =>
      rw [turn]
      split
      · exact h
      · exact h.act fun outside ha => hturns outside (ha ▸ List.mem_cons_self ..)
    | stops outside =>
      rw [turn]
      split
      · next htold => exact ⟨fun _ => htold, h.told⟩
      · exact h

/-- If nobody cancels anything and the work has stopped before the timer of being done had its turn, then
the timer of the half-close has stopped it. -/
theorem Unforced.half {w : WatchedChannel} (h : w.Unforced) (hc : w.channel.cancelled = true)
    (hopen : w.watch.seen.done = none) : w.watch.seen.half = some w.expiry := by
  rcases h.told (h.cancelled hc) with hhalf | hdone
  · exact hhalf
  · cases hopen.symm.trans hdone

/-! ## The order in which a channel is settled

`Sink.settle` is the order of a run in which the timers have their turns together and the work stops at
once. It is one of the turns described here, so what holds of all orders holds of it. -/

/-- If the work was told to stop it has done so. -/
def Obeyed (w : WatchedChannel) : Prop := w.told = true → w.channel.cancelled = true

theorem Obeyed.stops {w : WatchedChannel} (outside : Outside) : (w.turn (.stops outside)).Obeyed := by
  intro htold
  rw [turn] at htold ⊢
  split
  · rw [channel, trace_act]
    exact (Channel.cancel_keeps w.channel outside).2.2.1
  · next hnot =>
    rw [if_neg hnot] at htold
    exact absurd htold hnot

/-- Work that was told to stop does so once. -/
theorem Obeyed.sink_stops {w : WatchedChannel} (h : w.Obeyed) (outside : Outside) :
    (w.turn (.stops outside)).sink = w.sink := by
  rw [turn]
  split
  · next htold =>
    have hsame : (w.channel.cancel outside).1 = w.channel := by rw [Channel.cancel, if_pos (h htold)]
    rw [sink, channel, trace_act]
    exact congrArg (fun c => Sink.mk w.bound (.channel c) (some w.watch)) hsame
  · rfl

/-- A turn of a timer after which the work stops at once is a look at the entry. -/
theorem sink_look {w : WatchedChannel} (h : w.Obeyed) (half : Bool) (outside : Outside) (now : Nat) :
    ((w.look half now).turn (.stops outside)).sink = (w.sink.look half outside now).1 := by
  have hlooks := w.sink.looksAt_look half outside now
  -- One case for each thing that a look can come to. In all but the last one the worker's turn finds
  -- nothing to stop.
  generalize w.sink.look half outside now = looked at hlooks
  cases hlooks with
  | unwatched hw => cases hw
  | resolved hw hseen =>
    cases hw
    rw [look, if_pos (by rw [hseen]; rfl)]
    exact h.sink_stops outside
  | waits hw hseen hown hnow =>
    cases hw
    replace hown : w.channel.signals.of half = none := hown
    rw [look, if_neg (by simp [hseen]), hown]
    dsimp only
    rw [if_pos hnow]
    exact h.sink_stops outside
  | @relays w' o hw hseen hown =>
    cases hw
    replace hown : w.channel.signals.of half = some o := hown
    rw [look, if_neg (by simp [hseen]), hown]
    exact Obeyed.sink_stops (w := w.shows half o) h outside
  | expires hw hseen hown hnow =>
    cases hw
    replace hown : w.channel.signals.of half = none := hown
    have htimeout : w.sink.timeout = .closeTimeout w.name w.bound :=
      congrArg (SinkError.closeTimeout · w.bound) channel_name
    rw [look, if_neg (by simp [hseen]), hown]
    dsimp only
    rw [if_neg (Nat.not_lt.mpr hnow), turn, if_pos rfl, sink, channel, trace_act, htimeout]
    rfl

/-- The work of a channel goes on as long as there is something to do at an instant. -/
theorem advance_turns (w : WatchedChannel) (outside : Outside) (now : Nat) :
    ∃ work : List Turn, (∀ t ∈ work, ∃ outside', t = .does (.work outside' now)) ∧
      (w.run work).told = w.told ∧ (w.run work).sink = (w.sink.advance outside now).1 := by
  have hrun (acts : List Channel.Act) (hwork : ∀ a ∈ acts, ∃ outside', a = .work outside' now) :
      ∀ w : WatchedChannel, w.run (acts.map .does) = { w with acts := w.acts ++ acts } := by
    induction acts with
    | nil => simp [run]
    | cons a acts ih =>
      intro w
      obtain ⟨⟨outside', rfl⟩, hrest⟩ := List.forall_mem_cons.mp hwork
      have hact := ih hrest (w.act (.work outside' now))
      simp only [act, List.append_assoc, List.singleton_append] at hact
      exact hact
  obtain ⟨acts, hwork, hchannel, -⟩ :=
    Channel.run_acts (w.channel.patience outside) w.trace outside now
  refine ⟨acts.map .does, by simpa using hwork, ?_, ?_⟩
  · rw [hrun acts hwork]
  · rw [hrun acts hwork, sink, channel, trace, Channel.trace, List.foldl_append]
    exact congrArg (fun c => Sink.mk w.bound (.channel c) (some w.watch)) hchannel

/-- A sink is settled in a row of turns: the worker goes on, and the timer of being done has its turn
before the one of the half-close. What they tell to stop stops at once. -/
def SettledInTurns (w : WatchedChannel) (outside : Outside) (now : Nat) : Prop :=
  ∃ work : List Turn, (∀ t ∈ work, ∃ outside', t = .does (.work outside' now)) ∧
    ∃ outside₁ outside₂, (w.run (work ++ [.timer false now, .stops outside₁,
      .timer true now, .stops outside₂])).sink = (w.sink.settle outside now).1

/-- **The order in which a sink is settled** is one of those in which turns can come. -/
theorem settledInTurns {w : WatchedChannel} (h : w.Obeyed) (outside : Outside) (now : Nat) :
    w.SettledInTurns outside now := by
  obtain ⟨work, hwork, htold, hadvance⟩ := w.advance_turns outside now
  have hobeyed : (w.run work).Obeyed := fun ht =>
    (w.onward_run work).sink.cancelled (h (htold.symm.trans ht))
  refine ⟨work, hwork, (w.sink.advance outside now).2.1,
    ((w.sink.advance outside now).1.watchDone (w.sink.advance outside now).2.1 now).2, ?_⟩
  rw [run_append]
  show (((((w.run work).look false now).turn (.stops _)).look true now).turn (.stops _)).sink = _
  rw [sink_look (.stops _), sink_look hobeyed, hadvance, Sink.settle_fst]
  rfl

end WatchedChannel

end EventUpload
