import EventUpload.Proofs.Lifecycle.CloseWarnings
import EventUpload.Proofs.Sink.TwoTimers

/-!
# Uploads that are overdue

When the uploads of an invocation are published, two timers start for each channel with a bound, and both
wait for the same instant. A channel whose destination has come to nothing by then should time out,
whichever of them has its turn first. It does so unless three things come in this order: the timer of the
half-close tells the work to stop, the work stops, and only then the timer of being done has its turn. That
timer finds a signal that says the channel was cancelled, takes it over, and the timeout is lost
(`Proofs.Sink.TwoTimers`). This is a fault of the lifecycle and not of those who wait: nobody has cancelled
the upload. What is more, a drain keeps quiet about what was cancelled, so that it says nothing at all of
an upload that was never done (`not_times_out_stoppedFirst`).

`Lifecycle.times_out_unless_stopped` says what holds of every order of turns. What follows for the user is
said of the entry alone, in whatever state the lifecycle is by then: `TellsTimeout` if the entry has timed
out, `TellsCancelled` if it was lost.
-/

set_option autoImplicit false

namespace EventUpload

open WatchedChannel (Turn opened)

namespace Lifecycle

/-- An invocation is warned of an error, among other things. -/
def WarnsOf (l m : Lifecycle) (i : Nat) (e : SinkError) : Prop :=
  ∃ texts, m.warningsTo (.invocation i) = l.warningsTo (.invocation i) ++ texts ∧ e.message ∈ texts

/-- What the end of an invocation says of the sink at some place that has failed. -/
structure TellsAtEnd (l : Lifecycle) (i : Nat) (v : Invocation) (k : Nat) (name : String) (e : SinkError) :
    Prop where
  report : ∀ start deadline noticed longest nextWord a,
    (l.check (.finish i start deadline noticed longest nextWord)).2 = .answered a →
    ∃ r : Report, a = .report r ∧ r.outcomes[k]? = some ⟨name, .ofOutcome? (some (.failed e))⟩
  /-- The wait at the end of the invocation warns of it when all uploads are over. -/
  waited : v.allDone = true → ∀ start deadline noticed longest nextWord,
    l.WarnsOf (l.check (.finish i start deadline noticed longest nextWord)).1 i e

/-- What is said of the sink at some place of an invocation that has timed out. -/
structure TellsTimeout (l : Lifecycle) (i : Nat) (v : Invocation) (k : Nat) (name : String) (bound : Nat) :
    Prop extends TellsAtEnd l i v k name (.closeTimeout name bound) where
  /-- The drain warns of it, unless somebody has retired the uploads before. -/
  drained : v.allDone = true → l.isPending i = true →
    l.WarnsOf (l.settleDrain i) i (.closeTimeout name bound)

/-- What is said of the sink at some place of an invocation that counts as cancelled. -/
structure TellsCancelled (l : Lifecycle) (i : Nat) (v : Invocation) (k : Nat) (name : String) : Prop
    extends TellsAtEnd l i v k name (.cancelled name) where
  /-- The drain says what it would say if the sink were not there. -/
  silent : v.allDone = true → l.isPending i = true → (l.settleDrain i).warningsTo (.invocation i) =
    l.warningsTo (.invocation i) ++ (v.withSinks (v.sinks.eraseIdx k)).warnings SinkError.drainWarning?

variable {l : Lifecycle} {i k : Nat} {v : Invocation} {s : Sink} {name : String} {bound : Nat}
  {e : SinkError}

/-- Whoever says something about an error says it about a sink that has failed with it. -/
theorem mem_warnings_of_seen {say : SinkError → Option String} {text : String}
    (hs : v.sinks[k]? = some s) (hdone : s.seen.done = some (.failed e)) (hsay : say e = some text) :
    text ∈ v.warnings say := by
  refine List.mem_filterMap.mpr ⟨s, List.mem_of_getElem? hs, ?_⟩
  rw [hdone]
  exact hsay

/-- Where nothing is said about an error, a sink that has failed with it might as well be missing. -/
theorem warnings_eraseIdx {say : SinkError → Option String} (hs : v.sinks[k]? = some s)
    (hdone : s.seen.done = some (.failed e)) (hsay : say e = none) :
    (v.withSinks (v.sinks.eraseIdx k)).warnings say = v.warnings say := by
  obtain ⟨hlt, hget⟩ := List.getElem?_eq_some_iff.mp hs
  have hsplit : v.sinks = v.sinks.take k ++ s :: v.sinks.drop (k + 1) := by
    rw [← hget, List.getElem_cons_drop, List.take_append_drop]
  have hnone : Signal.warning? say s.seen.done = none := by
    rw [hdone]
    exact hsay
  calc (v.sinks.eraseIdx k).filterMap (fun s => Signal.warning? say s.seen.done)
    _ = (v.sinks.take k ++ s :: v.sinks.drop (k + 1)).filterMap
        (fun s => Signal.warning? say s.seen.done) := by
      rw [List.eraseIdx_eq_take_drop_succ, List.filterMap_append, List.filterMap_append,
        List.filterMap_cons, hnone]
    _ = v.warnings say := by
      rw [← hsplit]
      rfl

/-- What the end of an invocation says of a sink that has failed follows from what is seen of it. -/
theorem tellsAtEnd_of_seen (hv : l.invocation? i = some v) (hs : v.sinks[k]? = some s)
    (hname : s.name = name) (hdone : s.seen.done = some (.failed e)) (hreported : e.isTransmission = false) :
    l.TellsAtEnd i v k name e where
  report := by
    intro start deadline noticed longest nextWord a ha
    refine ⟨.ofOutcomes v.mode v.outcomes, (says_check_finish hv ha).1, ?_⟩
    rw [Report.ofOutcomes, Invocation.outcomes, List.getElem?_map, List.getElem?_map, hs]
    simp only [Option.map_some, hname, hdone]
  waited := by
    intro hall start deadline noticed longest nextWord
    obtain ⟨a, ha⟩ : ∃ a, (l.check (.finish i start deadline noticed longest nextWord)).2 =
        .answered a := by
      simp only [check, hv, hall]
      exact ⟨_, rfl⟩
    rcases (says_check_finish hv ha).2.2 with ⟨-, hsaid⟩ | ⟨hnot, -⟩
    · exact ⟨_, hsaid, mem_warnings_of_seen hs hdone (by simp [SinkError.closeWarning?, hreported])⟩
    · cases hall.symm.trans hnot

/-- What the drain of pending uploads says when all are over. -/
theorem warningsTo_settleDrain (hv : l.invocation? i = some v) (hall : v.allDone = true)
    (hpending : l.isPending i = true) : (l.settleDrain i).warningsTo (.invocation i) =
      l.warningsTo (.invocation i) ++ v.warnings SinkError.drainWarning? := by
  have hdrain : l.settleDrain i = l.endDrain i v := by simp only [settleDrain, hv, hall, if_true]
  obtain ⟨texts, hretires⟩ := retires_endDrain hv hall
  have hsaid := hretires.warnings (.invocation i)
  obtain ⟨v', hv', -, htexts⟩ := hretires.voices
  cases hv.symm.trans hv'
  rw [htexts, Retirer.addressee, if_pos rfl, if_pos hpending] at hsaid
  rw [hdrain, hsaid]

theorem tellsTimeout_of_seen (hv : l.invocation? i = some v) (hs : v.sinks[k]? = some s)
    (hname : s.name = name) (hdone : s.seen.done = some (.failed (.closeTimeout name bound))) :
    l.TellsTimeout i v k name bound where
  toTellsAtEnd := tellsAtEnd_of_seen hv hs hname hdone rfl
  drained := fun hall hpending =>
    ⟨_, warningsTo_settleDrain hv hall hpending, mem_warnings_of_seen hs hdone rfl⟩

theorem tellsCancelled_of_seen (hv : l.invocation? i = some v) (hs : v.sinks[k]? = some s)
    (hname : s.name = name) (hdone : s.seen.done = some (.failed (.cancelled name))) :
    l.TellsCancelled i v k name where
  toTellsAtEnd := tellsAtEnd_of_seen hv hs hname hdone rfl
  silent := fun hall hpending => by
    rw [warningsTo_settleDrain hv hall hpending, warnings_eraseIdx hs hdone rfl]

/-- A published channel with a bound is watched by its two timers. -/
theorem sink_publish {destination : Destination} {acts : List Channel.Act}
    (hv : l.invocation? i = some v) (hsink : v.sinks[k]? =
      some ⟨bound, .channel (Channel.trace name destination acts).channel, none⟩)
    (hbound : bound ≠ 0) (mode : UploadMode) : ∃ v', (l.publish i mode).invocation? i = some v' ∧
      v'.sinks[k]? = some (opened name destination acts bound l.now).sink := by
  refine ⟨{ v with mode := mode }.withSinks (v.sinks.map (Sink.startWatch · l.now)), ?_, ?_⟩
  · rw [invocation?_publish, if_pos rfl, hv]
    rfl
  · rw [WatchedChannel.sink_opened name destination acts hbound l.now]
    simp only [Invocation.sinks, Invocation.withSinks, List.getElem?_map]
    rw [show v.stream.sinks[k]? = _ from hsink]
    rfl

/-- **Overdue uploads.** The uploads of an invocation are published. The two timers of a channel with a
bound, its callers and its worker have turns in any order, up to a turn of the timer of its being done
that comes when the bound has passed; its destination has neither flushed, nor acknowledged, nor failed at
anything. Then it all depends on whether the work has stopped by that turn. If it has not, told to or not,
the entry resolves to the timeout, and every lifecycle in which the sink has gone on from there, in
whatever way, says so. If it has, while the entry was still open, the entry resolves as cancelled; then
the end of the invocation says that, and its drain nothing. Unless somebody has cancelled the channel, it
is the timer of the half-close that has stopped it. Turns like these are what settling a sink consists
of. -/
theorem times_out_unless_stopped {destination : Destination} {acts : List Channel.Act}
    {before : List Turn} {w : WatchedChannel} {time : Nat} (hv : l.invocation? i = some v)
    (hsink : v.sinks[k]? =
      some ⟨bound, .channel (Channel.trace name destination acts).channel, none⟩)
    (hbound : bound ≠ 0) (mode : UploadMode)
    (hw : w = (opened name destination acts bound l.now).run before) (hlate : l.now + bound ≤ time)
    (hrest : w.trace.Unfinished) (hopen : w.channel.cancelled = true → w.watch.seen.done = none)
    (after : List Turn) :
    (∃ v', (l.publish i mode).invocation? i = some v' ∧
      v'.sinks[k]? = some (opened name destination acts bound l.now).sink) ∧
    (w.channel.cancelled = false →
      (w.run (.timer false time :: after)).sink.seen.done = some (.failed (.closeTimeout name bound)) ∧
      ∀ (l' : Lifecycle) (v' : Invocation) s, l'.invocation? i = some v' → v'.sinks[k]? = some s →
        (w.run (.timer false time :: after)).sink.Onward s → l'.TellsTimeout i v' k name bound) ∧
    (w.channel.cancelled = true →
      (w.run (.timer false time :: after)).sink.seen.done = some (.failed (.cancelled name)) ∧
      (∀ (l' : Lifecycle) (v' : Invocation) s, l'.invocation? i = some v' → v'.sinks[k]? = some s →
        (w.run (.timer false time :: after)).sink.Onward s → l'.TellsCancelled i v' k name) ∧
      ((∀ outside, .cancel outside ∉ acts) → (∀ outside, .does (.cancel outside) ∉ before) →
        w.watch.seen.half = some (.failed (.closeTimeout name bound)))) ∧
    (w.Obeyed → ∀ outside now, w.SettledInTurns outside now) := by
  have hresolves := WatchedChannel.resolves hw hlate hrest hopen after
  have hhere : w.name = name ∧ w.bound = bound := by
    rw [hw, (WatchedChannel.onward_run _ before).name, (WatchedChannel.onward_run _ before).bound]
    exact ⟨rfl, rfl⟩
  have named {s : Sink} (hst : (w.run (.timer false time :: after)).sink.Onward s) : s.name = name := by
    have hshape : s.name = _ := congrArg Prod.fst hst.shape
    rw [hshape]
    exact WatchedChannel.channel_name.trans ((w.onward_run _).name.trans hhere.1)
  refine ⟨sink_publish hv hsink hbound mode, fun hc => ?_, fun hc => ?_, WatchedChannel.settledInTurns⟩
  · rw [hc] at hresolves
    exact ⟨hresolves, fun l' v' s hv' hs hst =>
      tellsTimeout_of_seen hv' hs (named hst) (hst.seen.done _ hresolves)⟩
  · rw [hc] at hresolves
    refine ⟨hresolves, fun l' v' s hv' hs hst =>
      tellsCancelled_of_seen hv' hs (named hst) (hst.seen.done _ hresolves), fun hacts hbefore => ?_⟩
    have hunforced : w.Unforced := by
      rw [hw]
      exact WatchedChannel.unforced_run
        (WatchedChannel.unforced_opened name destination hacts bound l.now) hbefore
    have hhalf := hunforced.half hc (hopen hc)
    rwa [WatchedChannel.expiry, hhere.1, hhere.2] at hhalf

/-- A channel that is closed and begins to flush, which never ends. -/
def stuckFlush : WatchedChannel :=
  opened "a" (.model (fun _ _ => (none, .ok)) 0) [.close, .work .fresh 0] 2000 0

theorem unfinished_stuckFlush (turns : List Turn) (hended : (stuckFlush.run turns).trace.ended = []) :
    (stuckFlush.run turns).trace.Unfinished := by
  refine ⟨?_, ?_, fun work reason => ?_⟩ <;> simp [hended]

/-- An invocation over this channel. -/
def stuckInvocation : Lifecycle :=
  { Lifecycle.new .standard .fresh with invocations :=
    [⟨⟨"b", "i"⟩, .new [⟨2000, .channel stuckFlush.channel, none⟩], .blocking⟩] }

/-- The lifecycle in which it was published, and its channel has had some turns. -/
def stuckAfter (mode : UploadMode) (turns : List Turn) : Lifecycle :=
  (stuckInvocation.publish 0 mode).update 0 (·.withSinks [(stuckFlush.run turns).sink])

/-- The timer of the half-close comes first. If the work stops when both have had their turns, the drain
warns of the timeout; if it stops in between, the drain says nothing, although the half-close has timed
out. -/
theorem times_out_unless_stopped_halfFirst :
    let l := stuckAfter .nonBlocking [.timer true 2000, .timer false 2000, .stops .fresh]
    let m := stuckAfter .nonBlocking [.timer true 2000, .stops .fresh, .timer false 2000]
    l.WarnsOf (l.settleDrain 0) 0 (.closeTimeout "a" 2000) ∧
      (m.settleDrain 0).warningsTo (.invocation 0) = [] ∧
      (stuckFlush.run [.timer true 2000, .stops .fresh]).watch.seen.half =
        some (.failed (.closeTimeout "a" 2000)) := by
  intro l m
  obtain ⟨-, htimes, -⟩ := times_out_unless_stopped (l := stuckInvocation) (i := 0) (k := 0) rfl rfl
    (by decide) .nonBlocking rfl (Nat.le_refl 2000)
    (unfinished_stuckFlush [.timer true 2000] rfl) (fun hc => by cases hc) [.stops .fresh]
  obtain ⟨-, -, hcancels, -⟩ := times_out_unless_stopped (l := stuckInvocation) (i := 0) (k := 0) rfl rfl
    (by decide) .nonBlocking rfl (Nat.le_refl 2000)
    (unfinished_stuckFlush [.timer true 2000, .stops .fresh] rfl) (fun _ => rfl) []
  obtain ⟨-, htells, hwho⟩ := hcancels rfl
  exact ⟨((htimes rfl).2 l _ _ rfl rfl (.refl _)).drained rfl rfl,
    (htells m _ _ rfl rfl (.refl _)).silent rfl rfl, hwho (by simp [stuckFlush, opened]) (by simp)⟩

/-- The orders in which the two timers have their turns at an instant, and the work that the first of them
has told to stop stops. -/
def turnOrders (time : Nat) : List (List Turn) :=
  [[.timer false time, .timer true time, .stops .fresh],
    [.timer false time, .stops .fresh, .timer true time],
    [.timer true time, .timer false time, .stops .fresh],
    [.timer true time, .stops .fresh, .timer false time]]

/-- It does matter which timer has its turn first. In the last of the four orders the timeout is lost: the
entry and the report say that the upload was cancelled, and the drain says nothing of it. -/
theorem not_times_out_stoppedFirst :
    let turns : List Turn := [.timer true 2000, .stops .fresh, .timer false 2000]
    ((stuckFlush.run turns).sink.seen.done = some (.failed (.cancelled "a")) ∧
      ((stuckAfter .blocking turns).check (.finish 0 0 60000 [] 2000 60000)).2 =
        .answered (.report ⟨.blocking, [⟨"a", .cancelled⟩]⟩) ∧
      ((stuckAfter .nonBlocking turns).settleDrain 0).warningsTo (.invocation 0) = []) ∧
    ¬∀ (name : String) (destination : Destination) (acts : List Channel.Act) (bound start time : Nat),
      bound ≠ 0 → start + bound ≤ time → (∀ outside, .cancel outside ∉ acts) →
        (Channel.trace name destination acts).Unfinished → ∀ turns ∈ turnOrders time,
          ((opened name destination acts bound start).run turns).sink.seen.done =
            some (.failed (.closeTimeout name bound)) := by
  intro turns
  have hdone : (stuckFlush.run turns).sink.seen.done = some (.failed (.cancelled "a")) := rfl
  refine ⟨⟨hdone, rfl, rfl⟩, fun h => ?_⟩
  have hacts : ∀ outside, Channel.Act.cancel outside ∉ [.close, .work .fresh 0] := by simp
  have hexpiry := h _ _ _ 2000 0 2000 (by decide) (Nat.le_refl 2000) hacts
    (unfinished_stuckFlush [] rfl) turns (by simp [turnOrders, turns])
  cases hdone.symm.trans hexpiry

end Lifecycle

end EventUpload
