import EventUpload.Proofs.Sink.Resolution
import EventUpload.Proofs.Sink.Timeouts

/-!
# Giving up a channel

A channel that is given up is told to stop, and so are the timers of its two entries. Each of them has
one last turn: a timer leaves its entry cancelled if it is still open, and the work leaves the signals
cancelled that it has not resolved. These turns come in any order, and some may come more than once;
they always come to the same (`Sink.foldl_lastTurns`), and this is what `Sink.giveUp` comes to.

What is left is over (`Sink.GivenUp`): everything is resolved, nothing is running, and nothing that
anybody does is heeded any longer, except that a channel may still be closed for the first time.

The argument for the order goes by what is left and not by exchanging turns. `giveUp` undoes the
difference that a last turn makes (`giveUp_lastTurn`), so the result of giving up is the same before and
after any number of them; and when everything has had its turn there is nothing to be given up any more
(`giveUp_of_over`), so that the state itself is that result. `foldl_reaches` is used three times for the
second half: each of the three turns makes something true that no other turn undoes.

Compare the two timers of a channel whose bound passes (`Proofs.Sink.TwoTimers`), where the order does
matter. There a timer that is late still has an outcome of its own, and looks for it at the channel that
the other timer has stopped; here neither of them looks any more, since both were told to end.

Only channels are considered (`OverChannel`). A sink that answers by itself has no work that could go on
behind anybody's back.
-/

set_option autoImplicit false

namespace EventUpload

/-! ## Signals that count as cancelled

Whoever looks at a signal that will never be resolved takes it to be cancelled. A signal that has an
outcome keeps it, and so does one that has just been resolved this way. -/

namespace Signals

/-- One of the signals counts as cancelled unless it is resolved. -/
def orCancelled (half : Bool) (sink : String) (s : Signals) : Signals :=
  s.put half ((s.of half).getD (.failed (.cancelled sink)))

theorem of_put_not (half : Bool) (o : Outcome) (s : Signals) : (s.put half o).of (!half) = s.of !half := by
  cases half <;> rfl

theorem of_cancel (s : Signals) (half : Bool) (sink : String) :
    (s.cancel sink).of half = some ((s.of half).getD (.failed (.cancelled sink))) := by
  obtain ⟨first, last⟩ := s
  cases half with
  | false => cases last <;> rfl
  | true => cases first <;> rfl

theorem cancel_orCancelled (s : Signals) (half : Bool) (sink : String) :
    (s.orCancelled half sink).cancel sink = s.cancel sink := by
  obtain ⟨first, last⟩ := s
  cases half with
  | false => cases last <;> rfl
  | true => cases first <;> rfl

/-- Both of them, one after the other. -/
theorem orCancelled_both (s : Signals) (sink : String) :
    (s.orCancelled false sink).orCancelled true sink = s.cancel sink := by
  obtain ⟨first, last⟩ := s
  cases first <;> cases last <;> rfl

theorem cancel_of_resolved {s : Signals} (h : ∀ half, (s.of half).isSome = true) (sink : String) :
    s.cancel sink = s := by
  obtain ⟨first, last⟩ := s
  obtain ⟨o, ho⟩ := Option.isSome_iff_exists.mp (h true)
  obtain ⟨p, hp⟩ := Option.isSome_iff_exists.mp (h false)
  cases ho
  cases hp
  rfl

end Signals

/-! ## Channels that are over

A channel is over for good, whatever acts come after. The one exception is that it may be closed for the
first time, which is only remembered. -/

namespace Channel

/-- Whether an act closes the channel. -/
def Act.closes : Act → Bool
  | close => true
  | accept _ | cancel _ | work .. => false

/-- A channel was cancelled, and its work has stopped. -/
structure Over (c : Channel) : Prop where
  cancelled : c.cancelled = true
  stopped : c.stage = .stopped

namespace Over

variable {c : Channel}

theorem act (h : c.Over) (ended : List (Work × Verdict)) (errors : List SinkError) (a : Act) :
    Trace.act ⟨c, ended, errors⟩ a = ⟨{ c with closing := c.closing || a.closes }, ended, errors⟩ := by
  have hsame : { c with closing := c.closing || false } = c := by rw [Bool.or_false]
  cases a with
  | close => simp [Trace.act, Channel.close, Act.closes]
  | accept e =>
    have haccept : c.accept e = c := by rw [Channel.accept, if_pos (by simp [h.cancelled])]
    rw [Trace.act, haccept, Act.closes, hsame]
  | cancel outside =>
    have hcancel : c.cancel outside = (c, outside) := by rw [Channel.cancel, if_pos h.cancelled]
    rw [Trace.act, hcancel, Act.closes, hsame]
  | work outside now =>
    have hnone : c.step? outside now = none := by rw [step?, h.stopped]
    rw [Trace.act_work_of_none hnone, Act.closes, hsame]

/-- **Whatever is done to a channel that is over**, it takes nothing, writes nothing and reports nothing
any more. -/
theorem foldl_act (h : c.Over) (ended : List (Work × Verdict)) (errors : List SinkError)
    (acts : List Act) : acts.foldl Trace.act ⟨c, ended, errors⟩ =
      ⟨{ c with closing := c.closing || acts.any Act.closes }, ended, errors⟩ := by
  induction acts generalizing c with
  | nil => simp
  | cons a acts ih =>
    have hnext : Over { c with closing := c.closing || a.closes } := ⟨h.cancelled, h.stopped⟩
    rw [List.foldl_cons, h.act, ih hnext, List.any_cons, Bool.or_assoc]

theorem advance (h : c.Over) (outside : Outside) (now : Nat) : c.advance outside now = (c, outside, []) := by
  have hnone : c.step? outside now = none := by rw [step?, h.stopped]
  unfold Channel.advance
  generalize c.patience outside = steps
  cases steps with
  | zero => rfl
  | succ steps => simp only [run, hnone]

end Over

theorem cancel_of_cancelled {c : Channel} (h : c.cancelled = true) (outside : Outside) :
    c.cancel outside = (c, outside) := by
  rw [Channel.cancel, if_pos h]

/-- What cancelling does to a channel has nothing to do with what is outside. -/
theorem cancel_fst (c : Channel) (outside outside' : Outside) :
    (c.cancel outside).1 = (c.cancel outside').1 := by
  unfold Channel.cancel
  split
  · rfl
  · dsimp only
    split <;> rfl

/-- The work of a channel that is cancelled does not go on. -/
theorem Stands.over_cancel {c : Channel} {accepted : List Event} {course : Course}
    (h : Stands accepted c course) (outside : Outside) : (c.cancel outside).1.Over := by
  refine ⟨(cancel_keeps c outside).2.2.1, ?_⟩
  cases h with
  | ready hstage _ hc => rw [cancel_of_open hc (by simp [hstage])]
  | writing hstage _ hc => rw [cancel_of_open hc (by simp [hstage])]
  | flushing hstage _ hc => rw [cancel_of_open hc (by simp [hstage])]
  | failed hstage _ hc => rw [cancel_of_open hc (by simp [hstage])]
  | acknowledging hstage _ hc => rw [cancel_of_open hc (by simp [hstage])]
  | stopped hstage _ _ _ => rw [cancel_of_stopped hstage]; exact hstage

end Channel

/-! ## Last turns

Each of the three that were told to stop has a last turn in which it does nothing but leave its part of
the sink as cancelled. The lemmas show that such a turn changes nothing in what `giveUp` comes to. -/

namespace Sink

variable {s t : Sink} {half : Bool} {outside : Outside} {now : Nat}

/-- The timer of an entry ends without an outcome of its own. -/
def stopTimer (half : Bool) (s : Sink) : Sink :=
  { s with watch := s.watch.map fun w => { w with seen := w.seen.orCancelled half s.name } }

/-- The last turn of something that was told to stop: of the timer of an entry, or of the work. -/
inductive LastTurn where
  | timer (half : Bool)
  | work (outside : Outside)

def lastTurn (s : Sink) : LastTurn → Sink
  | .timer half => s.stopTimer half
  | .work outside => (s.cancel outside).1

/-- Everything has had its last turn. -/
def LastTurn.All (turns : List LastTurn) : Prop :=
  (∀ half, timer half ∈ turns) ∧ ∃ outside, work outside ∈ turns

@[simp] theorem name_stopTimer (half : Bool) (s : Sink) : (s.stopTimer half).name = s.name := rfl

theorem name_cancel (s : Sink) (outside : Outside) : (s.cancel outside).1.name = s.name :=
  congrArg Prod.fst (s.onward_cancel outside).shape

theorem name_giveUp (s : Sink) (outside : Outside) : (s.giveUp outside).1.name = s.name :=
  congrArg Prod.fst (s.onward_giveUp outside).shape

theorem cancel_fst (s : Sink) (outside outside' : Outside) :
    (s.cancel outside).1 = (s.cancel outside').1 := by
  unfold Sink.cancel
  split
  · rfl
  · next c _ => exact congrArg (fun c => { s with body := .channel c }) (c.cancel_fst _ _)

/-- Being cancelled a second time is nothing new, neither to a sink nor to what is outside. -/
theorem cancel_cancel (s : Sink) (outside outside' : Outside) :
    (s.cancel outside).1.cancel outside' = ((s.cancel outside).1, outside') := by
  obtain ⟨bound, body, watch⟩ := s
  cases body with
  | responder r =>
    have hsame : r.cancel.cancel = r.cancel :=
      congrArg (fun signals => Responder.mk r.name r.halfAfter r.doneAfter r.received r.closedAt r.closes
        true signals) (Signals.cancel_of_resolved
        (fun half => by rw [Responder.cancel, Signals.of_cancel]; rfl) _)
    exact congrArg (fun r => (Sink.mk bound (.responder r) watch, outside')) hsame
  | channel c =>
    exact congrArg (fun p : Channel × Outside => (Sink.mk bound (.channel p.1) watch, p.2))
      (Channel.cancel_of_cancelled (c.cancel_keeps outside).2.2.1 outside')

/-- Whatever the watch has seen, cancelling is the same. -/
theorem cancel_watched (s : Sink) (watch : Option Watch) (outside : Outside) :
    { s with watch := watch }.cancel outside =
      ({ (s.cancel outside).1 with watch := watch }, (s.cancel outside).2) := by
  obtain ⟨bound, body, seen⟩ := s
  cases body <;> rfl

/-- The two timers of a sink, stopped one after the other. -/
theorem stopTimer_stopTimer (s : Sink) : (s.stopTimer false).stopTimer true =
    { s with watch := s.watch.map (·.cancel s.name) } := by
  have hboth : ∀ w : Watch, (⟨w.deadline,
      (w.seen.orCancelled false s.name).orCancelled true s.name⟩ : Watch) = w.cancel s.name :=
    fun w => by rw [Signals.orCancelled_both, Watch.cancel]
  rw [stopTimer, name_stopTimer, stopTimer, Option.map_map]
  exact congrArg (fun f => { s with watch := s.watch.map f }) (funext hboth)

theorem stopTimer_cancel (half : Bool) (s : Sink) (outside : Outside) :
    (s.cancel outside).1.stopTimer half = ((s.stopTimer half).cancel outside).1 := by
  rw [stopTimer, name_cancel, watch_cancel]
  exact (congrArg Prod.fst (s.cancel_watched _ outside)).symm

theorem giveUp_eq (s : Sink) (outside : Outside) : s.giveUp outside =
    ({ (s.cancel outside).1 with watch := s.watch.map (·.cancel s.name) }, (s.cancel outside).2) :=
  s.cancel_watched _ outside

/-- A timer that ends changes nothing in what giving up comes to. -/
theorem giveUp_stopTimer (half : Bool) (s : Sink) (outside : Outside) :
    (s.stopTimer half).giveUp outside = s.giveUp outside := by
  have hwatch : (s.stopTimer half).watch.map (·.cancel s.name) = s.watch.map (·.cancel s.name) := by
    cases hw : s.watch with
    | none => simp [stopTimer, hw]
    | some w => simp [stopTimer, hw, Watch.cancel, Signals.cancel_orCancelled]
  rw [giveUp_eq, giveUp_eq, name_stopTimer, hwatch]
  rw [stopTimer, cancel_watched]

/-- Nor does it matter whether the work has stopped before. -/
theorem giveUp_cancel (s : Sink) (outside outside' : Outside) :
    ((s.cancel outside).1.giveUp outside').1 = (s.giveUp outside').1 := by
  rw [giveUp_eq, giveUp_eq, cancel_cancel, watch_cancel, name_cancel, cancel_fst s outside outside']

theorem giveUp_lastTurn (s : Sink) (turn : LastTurn) (outside : Outside) :
    ((s.lastTurn turn).giveUp outside).1 = (s.giveUp outside).1 := by
  cases turn with
  | timer half => exact congrArg Prod.fst (s.giveUp_stopTimer half outside)
  | work outside' => exact s.giveUp_cancel outside' outside

/-! ### What is over when everything has had its turn

The two timers are over when they have nothing to wait for, and the work when the sink is cancelled. -/

theorem timer?_stopTimer (half : Bool) (s : Sink) : (s.stopTimer half).timer? half = none := by
  cases hw : s.watch with
  | none => simp [timer?, stopTimer, hw]
  | some w => simp [timer?, stopTimer, hw, Signals.orCancelled]

/-- A timer that has ended has ended for good. -/
theorem timer?_lastTurn (h : s.timer? half = none) (turn : LastTurn) :
    (s.lastTurn turn).timer? half = none := by
  cases turn with
  | work outside =>
    have hwatch : (s.lastTurn (.work outside)).watch = s.watch := watch_cancel s
    rw [timer?, hwatch]
    exact h
  | timer other =>
    by_cases heq : other = half
    · rw [heq]
      exact s.timer?_stopTimer half
    · obtain rfl : half = !other := by cases other <;> cases half <;> simp_all
      cases hw : s.watch with
      | none => simp [lastTurn, timer?, stopTimer, hw]
      | some w =>
        simp only [timer?, hw] at h
        simp only [lastTurn, timer?, stopTimer, hw, Option.map_some, Signals.orCancelled,
          Signals.of_put_not, h]

theorem isCancelled_lastTurn (h : s.isCancelled = true) (turn : LastTurn) :
    (s.lastTurn turn).isCancelled = true := by
  cases turn with
  | work outside => exact s.isCancelled_cancel outside
  | timer half => exact h

/-- What the last turn of something makes true, and no last turn undoes, is true in the end. -/
theorem foldl_reaches {P : Sink → Prop} (turn : LastTurn) (hturn : ∀ s : Sink, P (s.lastTurn turn))
    (hkeeps : ∀ {s : Sink}, P s → ∀ turn, P (s.lastTurn turn)) {turns : List LastTurn}
    (hmem : turn ∈ turns) (s : Sink) : P (turns.foldl lastTurn s) := by
  have hstays : ∀ (turns : List LastTurn) (s : Sink), P s → P (turns.foldl lastTurn s) := by
    intro turns
    induction turns with
    | nil => exact fun s h => h
    | cons t turns ih => exact fun s h => ih _ (hkeeps h t)
  induction turns generalizing s with
  | nil => exact absurd hmem (by simp)
  | cons t turns ih =>
    rcases List.mem_cons.mp hmem with rfl | hmem
    · exact hstays turns _ (hturn s)
    · exact ih hmem _

/-- A cancelled sink without timers has nothing to give up. -/
theorem giveUp_of_over {c : Channel} (hb : s.body = .channel c) (hc : c.cancelled = true)
    (htimers : ∀ half, s.timer? half = none) (outside : Outside) : s.giveUp outside = (s, outside) := by
  have hwatch : s.watch.map (·.cancel s.name) = s.watch := by
    cases hw : s.watch with
    | none => rfl
    | some w =>
      have hseen (half : Bool) : (w.seen.of half).isSome = true := by
        have htimer := htimers half
        simp only [timer?, hw] at htimer
        split at htimer
        · cases htimer
        · next hsome => simpa [Option.isSome_iff_ne_none] using hsome
      simp [Watch.cancel, Signals.cancel_of_resolved hseen]
  have hcancel : s.cancel outside = (s, outside) := by
    obtain ⟨bound, body, watch⟩ := s
    cases hb
    exact congrArg (fun p : Channel × Outside => (Sink.mk bound (.channel p.1) watch, p.2))
      (Channel.cancel_of_cancelled hc outside)
  rw [giveUp_eq, hwatch, hcancel]

/-- The order of the last turns does not matter. -/
theorem foldl_lastTurns {c : Channel} (hb : s.body = .channel c) {turns : List LastTurn}
    (hall : LastTurn.All turns) (outside : Outside) :
    turns.foldl lastTurn s = (s.giveUp outside).1 := by
  -- Giving up does not notice turns that were taken before it.
  have hsame : ∀ (turns : List LastTurn) (s : Sink),
      ((turns.foldl lastTurn s).giveUp outside).1 = (s.giveUp outside).1 := by
    intro turns
    induction turns with
    | nil => exact fun s => rfl
    | cons t turns ih => exact fun s => (ih _).trans (s.giveUp_lastTurn t outside)
  have hchannel : ∀ (turns : List LastTurn) (s : Sink), (∃ c, s.body = .channel c) →
      ∃ c, (turns.foldl lastTurn s).body = .channel c := by
    intro turns
    induction turns with
    | nil => exact fun s h => h
    | cons t turns ih =>
      rintro s ⟨c, hc⟩
      refine ih _ ?_
      cases t with
      | timer half => exact ⟨c, hc⟩
      | work outside' => exact ⟨(c.cancel outside').1, by rw [lastTurn, Sink.cancel, hc]⟩
  -- The worker has had its turn and both timers have, in whatever order, and then there is nothing
  -- left to give up.
  obtain ⟨⟨outside', hwork⟩, htimers⟩ := hall.symm
  obtain ⟨d, hd⟩ := hchannel turns s ⟨c, hb⟩
  have hcancelled : (turns.foldl lastTurn s).isCancelled = true :=
    foldl_reaches (P := fun s => s.isCancelled = true) (.work outside')
      (fun s => s.isCancelled_cancel outside') isCancelled_lastTurn hwork s
  rw [isCancelled, hd] at hcancelled
  have hclosed (half : Bool) : (turns.foldl lastTurn s).timer? half = none :=
    foldl_reaches (P := fun s => s.timer? half = none) (.timer half)
      (timer?_stopTimer half) timer?_lastTurn (htimers half) s
  rw [← hsame turns s, giveUp_of_over hd hcancelled hclosed]

/-! ## What is left

`GivenUp` is what anybody can see of the sink from then on, and no more can be done to it than close it. -/

/-- The body of a sink is a channel, at some moment of its life. -/
def OverChannel (s : Sink) : Prop :=
  ∃ name destination acts, s.body = .channel (Channel.trace name destination acts).channel

/-- What has become of a sink that was given up. -/
structure GivenUp (s t : Sink) : Prop where
  name : t.name = s.name
  bound : t.bound = s.bound
  /-- Both entries are resolved: to what they had resolved to, and else as cancelled. -/
  shown : ∀ half, t.shown half = some ((s.shown half).getD (.failed (.cancelled s.name)))
  /-- So are the signals of the channel itself. -/
  own : ∀ half, t.own half = some ((s.own half).getD (.failed (.cancelled s.name)))
  /-- There is no timer any more. -/
  timer : ∀ half, t.timer? half = none
  /-- Nothing holds anything outside, and nothing wakes up. -/
  released : ∀ outside, t.release outside = outside
  due : t.dueInstants = []
  rests : ∀ outside later, t.settle outside later = (t, outside, [])
  /-- Whatever else is done to it, nothing is recorded, written or reported any more. -/
  deaf : ∃ c, t.body = .channel c ∧ c.Over ∧ ∀ acts : List Channel.Act,
    acts.foldl Channel.Trace.act ⟨c, [], []⟩ =
      ⟨{ c with closing := c.closing || acts.any Channel.Act.closes }, [], []⟩
  /-- The timers and the work may stop in any order. -/
  turns : ∀ turns, LastTurn.All turns → turns.foldl lastTurn s = t

theorem shown_giveUp_of_watch {w : Watch} (hw : s.watch = some w) (half : Bool) (outside : Outside) :
    (s.giveUp outside).1.shown half = some ((w.seen.of half).getD (.failed (.cancelled s.name))) := by
  have hwatch : (s.giveUp outside).1.watch = some (w.cancel s.name) := by
    rw [giveUp_eq, hw]
    rfl
  rw [shown_of_watch hwatch]
  exact w.seen.of_cancel half s.name

theorem timer?_giveUp (half : Bool) (s : Sink) (outside : Outside) :
    (s.giveUp outside).1.timer? half = none := by
  rw [giveUp_eq]
  cases hw : s.watch with
  | none => simp [timer?]
  | some w => simp [timer?, Watch.cancel, Signals.of_cancel]

/-- Nothing is left to be done for a channel that is over and has no timers. -/
theorem settle_of_over {c : Channel} (hb : s.body = .channel c) (hc : c.Over)
    (htimers : ∀ half, s.timer? half = none) (outside : Outside) (now : Nat) :
    s.settle outside now = (s, outside, []) := by
  have hadvance : s.advance outside now = (s, outside, []) := by
    obtain ⟨bound, body, watch⟩ := s
    cases hb
    exact congrArg (fun p : Channel × Outside × List SinkError =>
      (Sink.mk bound (.channel p.1) watch, p.2.1, p.2.2)) (hc.advance outside now)
  have hdone : s.watchDone outside now = (s, outside) := look_of_timer (htimers false) outside now
  have hhalf : s.watchHalf outside now = (s, outside) := look_of_timer (htimers true) outside now
  simp only [settle, hadvance, hdone, hhalf]

theorem dueInstants_of_over {c : Channel} (hb : s.body = .channel c) (hc : c.Over)
    (htimers : ∀ half, s.timer? half = none) : s.dueInstants = [] := by
  refine List.eq_nil_iff_forall_not_mem.mpr fun time hmem => ?_
  rcases mem_dueInstants.mp hmem with hwakes | htimer | htimer
  · simp [wakes, hb, Channel.wake?, hc.stopped] at hwakes
  · cases (htimers true).symm.trans htimer
  · cases (htimers false).symm.trans htimer

/-- There is nothing to be given up once more. -/
theorem GivenUp.giveUp {u : Sink} (h : u.GivenUp t) (outside : Outside) : t.giveUp outside = (t, outside) := by
  obtain ⟨c, hbody, hover, -⟩ := h.deaf
  exact giveUp_of_over hbody hover.cancelled h.timer outside

/-- **A channel that is given up**, at whatever moment. -/
theorem givenUp (h : s.OverChannel) (outside : Outside) : s.GivenUp (s.giveUp outside).1 := by
  obtain ⟨name, destination, acts, hb⟩ := h
  set c := (Channel.trace name destination acts).channel
  obtain ⟨course, -, -, hstands⟩ := (Channel.coherent name destination acts).course
  have hbody : (s.giveUp outside).1.body = .channel (c.cancel outside).1 := by
    rw [giveUp_eq, Sink.cancel, hb]
  have hover : (c.cancel outside).1.Over := hstands.over_cancel outside
  have htimers : ∀ half, (s.giveUp outside).1.timer? half = none := fun half =>
    s.timer?_giveUp half outside
  have hsignals : (s.giveUp outside).1.signals = s.signals.cancel s.name := by
    rw [signals, hbody, signals, Sink.name, hb]
    exact hstands.signals_cancel outside
  have hown (half : Bool) : (s.giveUp outside).1.own half =
      some ((s.own half).getD (.failed (.cancelled s.name))) := by
    rw [own, hsignals]
    exact s.signals.of_cancel half s.name
  refine ⟨s.name_giveUp outside, ?_, fun half => ?_, hown, htimers, fun outside' => ?_,
    dueInstants_of_over hbody hover htimers, settle_of_over hbody hover htimers,
    ⟨_, hbody, hover, hover.foldl_act [] []⟩, fun turns hall => foldl_lastTurns hb hall outside⟩
  · exact congrArg (fun p => p.2.1) (s.onward_giveUp outside).shape
  · cases hw : s.watch with
    | some w => rw [shown_giveUp_of_watch hw, shown_of_watch hw]
    | none =>
      have hunwatched : (s.giveUp outside).1.watch = none := by rw [giveUp_eq, hw]; rfl
      rw [shown_of_unwatched hunwatched, shown_of_unwatched hw, hown]
  · simp only [release, hbody, Channel.release, hover.stopped]

end Sink

end EventUpload
