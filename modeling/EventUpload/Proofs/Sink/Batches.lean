import EventUpload.Proofs.Sink.Gathering
import EventUpload.Proofs.Sink.Resolution

/-!
# The batches of a backend

A channel in front of a backend hands its events over in batches. `Channel.Shipping` goes along with
the acts of a channel and notes down what becomes of them, seen from both sides. On this side `sent`
has every batch that is handed over, which is when its request is begun. On the side of the backend
`published` has every batch that it was given together with its answer, and `taken` has what the list of
a service at hand grew by. Neither of these two asks the writer: an answer is what `Service.endDelivery`
or `WebClient.publish` says in that turn (`Channel.publish?`), and growth is read off the service before
and after it (`Outside.acceptedSince`). So a writer that would not publish, that would go on after a
refusal or that would say something else of its batches than it gives away does not fit what is proved.

`Packed` is what holds after any acts: the batches are made of the first events that were accepted, what
was handed over has been published but for what is on its way, nothing comes after a refusal, and how the
batches go together with the stage of the channel is its `Packing`. The acts of callers leave a packing
as it is; a turn of the worker is one of `Uploads`, and each of these leads from one case of the packing
to another (`Packed.turn`). Every turn also brings the channel nearer to having sent everything, which
bounds the number of turns.

What is said is said of one channel. Others may give the same service their batches in between, for
the outside of each turn is whatever it is by then; nothing is assumed of what it answers.
-/

set_option autoImplicit false

namespace EventUpload

open Batch

variable {b : Nat} {sent : List Batch} {w : BackendWriter}

/-! ## What is handed over and refused

`Shipping` observes and decides nothing: each of its lists grows by what is read off the channel, the
backend or the service in a turn, and `shipping` begins with empty ones. -/

/-- The batch that a destination is being given. -/
def Destination.onTheWay? : Destination → Option Batch
  | .backend w => w.onTheWay.map Prod.fst
  | .model .. | .file _ => none

/-- What a service at hand has accepted from one moment to another. -/
def Outside.acceptedSince (before after : Outside) : List Batch :=
  after.service.accepted.drop before.service.accepted.length

namespace Channel

/-- The batch that is handed over between two states of a channel. -/
def handed (c d : Channel) : Option Batch :=
  if c.destination.onTheWay?.isSome then none else d.destination.onTheWay?

/-- A channel with its past, and with what has become of its batches. -/
structure Shipping where
  trace : Trace
  /-- The batches that were handed over, in order. -/
  sent : List Batch
  /-- What the backend was given and what it answered, in order. -/
  published : List Publish
  /-- What a service at hand has accepted in the turns of the worker, in order. -/
  taken : List Batch
  /-- How often the worker had something to do in its turn. -/
  turns : Nat

/-- The batches that the backend has refused. -/
def Shipping.refused (s : Shipping) : List Batch := s.published.filterMap Publish.refused?

/-- What is known after a turn that did something, given the channel with its past after it, what was
published in it, and what a service at hand has accepted in it. -/
def Shipping.turn (s : Shipping) (t : Trace) (p : Option Publish) (taken : List Batch) : Shipping where
  trace := t
  sent := s.sent ++ (s.trace.channel.handed t.channel).toList
  published := s.published ++ p.toList
  taken := s.taken ++ taken
  turns := s.turns + 1

def Shipping.act (s : Shipping) (a : Act) : Shipping :=
  let t := s.trace.act a
  match a with
  | .accept _ | .close | .cancel _ => { s with trace := t }
  | .work outside now =>
    match s.trace.channel.step? outside now with
    | none => s
    | some (_, outside', _) =>
      s.turn t (s.trace.channel.publish? outside) (outside.acceptedSince outside')

/-- A new channel after the acts. -/
def shipping (name : String) (destination : Destination) (acts : List Act) : Shipping :=
  acts.foldl Shipping.act ⟨⟨.new name destination, [], []⟩, [], [], [], 0⟩

theorem shipping_concat (name : String) (destination : Destination) (acts : List Act) (a : Act) :
    shipping name destination (acts ++ [a]) = (shipping name destination acts).act a := by
  simp [shipping]

theorem Shipping.trace_act (s : Shipping) (a : Act) : (s.act a).trace = s.trace.act a := by
  cases a with
  | work outside now =>
    cases hstep : s.trace.channel.step? outside now with
    | none => simp only [act, hstep, Trace.act_work_of_none hstep]
    | some out => simp only [act, hstep, turn]
  | accept e => rfl
  | close => rfl
  | cancel outside => rfl

theorem trace_shipping (name : String) (destination : Destination) (acts : List Act) :
    (shipping name destination acts).trace = trace name destination acts := by
  induction acts using List.reverseRecOn with
  | nil => rfl
  | append_singleton acts a ih => rw [shipping_concat, trace_concat, Shipping.trace_act, ih]

/-! ## How far the batches have got

`Packing` has one case for each stage of a channel, so that what a turn begins with is known from the
stage alone. `Packed` adds to it what does not depend on the stage. -/

/-- How the batches go together with the work of a channel in front of a backend. -/
inductive Packing (b : Nat) (sent refused : List Batch) (c : Channel) (w : BackendWriter) : Prop where
  | ready : c.stage = .ready → c.failure = none → refused = [] → Gathering b sent w c.written →
      Packing b sent refused c w
  | writing {e : Event} {wake : Nat} : c.stage = .working (.write e) (some wake) →
      c.failure = none → refused = [] →
      (Gathering b sent w (c.written ++ [e]) ∨
        Delivering sent w (c.written ++ [e]) ∧ Full b sent) →
      Packing b sent refused c w
  | flushing {wake : Nat} : c.stage = .working .flush (some wake) → refused = [] →
      Delivering sent w c.written → Complete b sent → Packing b sent refused c w
  | flushed {wake : Nat} : c.stage = .working .acknowledge (some wake) → refused = [] →
      w.onTheWay = none → Complete b sent → contents sent = c.written → Packing b sent refused c w
  /-- A batch was refused, and the channel waits for being closed. -/
  | failed {f : SinkError} : c.stage = .ready → c.failure = some f → refused ≠ [] →
      Packing b sent refused c w
  | stopped : c.stage = .stopped →
      (c.signals.half = some .done ∧ refused = [] ∧ w.onTheWay = none ∧ Complete b sent ∧
          contents sent = c.written ∨
        c.signals.half ≠ some .done ∧ (c.cancelled = true ∨ refused ≠ [])) →
      Packing b sent refused c w

/-- How many turns a channel still needs until it has sent everything, if it is given no more
events. -/
def remaining (c : Channel) : Nat :=
  2 * c.queue.length + match c.stage with
    | .ready => 2
    | .working (.write _) _ => 3
    | .working .flush _ => 1
    | .working .acknowledge _ | .stopped => 0

/-- A channel in front of a backend, with its batches, after it has accepted some events. It began with
the writer `origin`. -/
structure Packed (origin : BackendWriter) (accepted : List Event) (s : Shipping) : Prop where
  sent : contents s.sent <+: accepted
  numbered : Numbered s.sent
  /-- What is handed over is published, or on its way. -/
  published : s.sent =
    s.published.map Publish.batch ++ s.trace.channel.destination.onTheWay?.toList
  taken : s.taken = s.published.flatMap origin.connection.recorded
  /-- Whatever is published, nothing was refused before it. -/
  refused : ∀ before p after, s.published = before ++ p :: after →
    before.filterMap Publish.refused? = []
  /-- After a refusal nothing is on its way. -/
  rests : s.refused ≠ [] → s.trace.channel.destination.onTheWay? = none
  /-- A refusal fails the work of the channel, with the reason of the backend. -/
  fails : ∀ p ∈ s.published, ∀ reason, p.answer = .error reason →
    ∃ work, (work, .failed reason) ∈ s.trace.ended
  packing : ∃ w, s.trace.channel.destination = .backend w ∧ w.Alike origin ∧
    Packing origin.batchSize s.sent s.refused s.trace.channel w
  turns : s.trace.channel.signals.half = none →
    s.turns + s.trace.channel.remaining ≤ 2 * accepted.length + 2

variable {c d : Channel} {accepted : List Event} {course : Course} {refused : List Batch}

/-- What a packing is about does not change when events come in or the channel is closed. -/
theorem Packing.of_eq (h : Packing b sent refused c w) (hstage : d.stage = c.stage)
    (hfailure : d.failure = c.failure) (hwritten : d.written = c.written)
    (hsignals : d.signals = c.signals) (hcancelled : d.cancelled = c.cancelled) :
    Packing b sent refused d w := by
  cases h with
  | ready hs hf hrefused h => exact .ready (hstage.trans hs) (hfailure.trans hf) hrefused (hwritten ▸ h)
  | writing hs hf hrefused h =>
    exact .writing (hstage.trans hs) (hfailure.trans hf) hrefused (hwritten ▸ h)
  | flushing hs hrefused h hcomplete =>
    exact .flushing (hstage.trans hs) hrefused (hwritten ▸ h) hcomplete
  | flushed hs hrefused hway hcomplete h =>
    exact .flushed (hstage.trans hs) hrefused hway hcomplete (hwritten ▸ h)
  | failed hs hf hrefused => exact .failed (hstage.trans hs) (hfailure.trans hf) hrefused
  | stopped hs h =>
    refine .stopped (hstage.trans hs) ?_
    rwa [hwritten, hsignals, hcancelled]

theorem Packing.of_ready (h : Packing b sent refused c w) (hs : c.stage = .ready) :
    c.failure = none ∧ refused = [] ∧ Gathering b sent w c.written ∨
      (∃ f, c.failure = some f) ∧ refused ≠ [] := by
  cases h with
  | ready _ hf hrefused h => exact .inl ⟨hf, hrefused, h⟩
  | failed _ hf hrefused => exact .inr ⟨⟨_, hf⟩, hrefused⟩
  | writing hstage => cases hs.symm.trans hstage
  | flushing hstage => cases hs.symm.trans hstage
  | flushed hstage => cases hs.symm.trans hstage
  | stopped hstage => cases hs.symm.trans hstage

/-- Between two events a batch is gathered, as long as nothing was refused. -/
theorem Packing.gathering (h : Packing b sent refused c w) (hs : c.stage = .ready)
    (hf : c.failure = none) : refused = [] ∧ Gathering b sent w c.written := by
  rcases h.of_ready hs with ⟨-, hrefused, hgathering⟩ | ⟨⟨f, hsome⟩, -⟩
  · exact ⟨hrefused, hgathering⟩
  · cases hf.symm.trans hsome

/-- A write has only failed because a batch was refused. -/
theorem Packing.refused_of_failure {f : SinkError} (h : Packing b sent refused c w)
    (hs : c.stage = .ready) (hf : c.failure = some f) : refused ≠ [] := by
  rcases h.of_ready hs with ⟨hnone, -⟩ | ⟨-, hrefused⟩
  · cases hf.symm.trans hnone
  · exact hrefused

theorem Packing.of_write {e : Event} {wake : Option Nat} (h : Packing b sent refused c w)
    (hs : c.stage = .working (.write e) wake) : c.failure = none ∧ refused = [] ∧
      (Gathering b sent w (c.written ++ [e]) ∨
        Delivering sent w (c.written ++ [e]) ∧ Full b sent) := by
  cases h with
  | writing hstage hf hrefused h =>
    cases hs.symm.trans hstage
    exact ⟨hf, hrefused, h⟩
  | ready hstage => cases hs.symm.trans hstage
  | failed hstage => cases hs.symm.trans hstage
  | flushing hstage => cases hs.symm.trans hstage
  | flushed hstage => cases hs.symm.trans hstage
  | stopped hstage => cases hs.symm.trans hstage

theorem Packing.of_flush {wake : Option Nat} (h : Packing b sent refused c w)
    (hs : c.stage = .working .flush wake) :
    refused = [] ∧ Delivering sent w c.written ∧ Complete b sent := by
  cases h with
  | flushing _ hrefused h hcomplete => exact ⟨hrefused, h, hcomplete⟩
  | ready hstage => cases hs.symm.trans hstage
  | failed hstage => cases hs.symm.trans hstage
  | writing hstage => cases hs.symm.trans hstage
  | flushed hstage => cases hs.symm.trans hstage
  | stopped hstage => cases hs.symm.trans hstage

theorem Packing.of_acknowledge {wake : Option Nat} (h : Packing b sent refused c w)
    (hs : c.stage = .working .acknowledge wake) :
    refused = [] ∧ w.onTheWay = none ∧ Complete b sent ∧ contents sent = c.written := by
  cases h with
  | flushed _ hrefused hway hcomplete h => exact ⟨hrefused, hway, hcomplete, h⟩
  | ready hstage => cases hs.symm.trans hstage
  | failed hstage => cases hs.symm.trans hstage
  | writing hstage => cases hs.symm.trans hstage
  | flushing hstage => cases hs.symm.trans hstage
  | stopped hstage => cases hs.symm.trans hstage

/-- A channel that has sent everything has sent complete batches. -/
theorem Packing.of_half (h : Packing b sent refused c w) (hstands : Stands accepted c course)
    (hhalf : c.signals.half = some .done) :
    refused = [] ∧ w.onTheWay = none ∧ Complete b sent ∧ contents sent = c.written := by
  have unresolved (hsig : c.signals = .unresolved) : False := by
    rw [hsig] at hhalf
    cases hhalf
  cases h with
  | ready hs => exact (unresolved (hstands.of_ready hs).2.1).elim
  | failed hs => exact (unresolved (hstands.of_ready hs).2.1).elim
  | writing hs => exact (unresolved (hstands.of_write hs).2.2.1).elim
  | flushing hs => exact (unresolved (hstands.of_flush hs).2.2.1).elim
  | flushed _ hrefused hidle hcomplete h => exact ⟨hrefused, hidle, hcomplete, h⟩
  | stopped _ h => exact (h.resolve_right fun h => h.1 hhalf).2

/-! ## What keeps batches packed

Callers may hand over events, close the channel and cancel it at any time. None of this touches the
writer; but a cancelled channel stops, and a stage that is stopped promises nothing of what was not
sent. -/

variable {s : Shipping} {origin : BackendWriter}

theorem Packed.new (name : String) (connection : Connection) (options : BackendOptions)
    (requestId invocationId : String) :
    Packed (.new connection options requestId invocationId) []
      ⟨⟨.new name (.backend (.new connection options requestId invocationId)), [], []⟩,
        [], [], [], 0⟩ where
  sent := List.nil_prefix
  numbered := fun before batch after h => absurd h (by simp)
  published := rfl
  taken := rfl
  refused := fun before p after h => absurd h (by simp)
  rests := fun h => absurd rfl h
  fails := fun p hp => absurd hp List.not_mem_nil
  packing := ⟨_, rfl, .refl _, .ready rfl rfl rfl ⟨rfl, rfl, by simp [Full],
    Nat.lt_of_lt_of_le Nat.one_pos (Nat.le_max_right _ _), rfl⟩⟩
  turns := fun _ => Nat.le_refl _

/-- What callers do changes nothing about the batches. -/
theorem Packed.of_eq {t : Trace} {more : List Event} (h : Packed origin accepted s)
    (hmore : accepted <+: more)
    (hdestination : t.channel.destination = s.trace.channel.destination)
    (hended : t.ended = s.trace.ended)
    (hpacking : ∀ w, Packing origin.batchSize s.sent s.refused s.trace.channel w →
      Packing origin.batchSize s.sent s.refused t.channel w)
    (hturns : t.channel.signals.half = none →
      s.turns + t.channel.remaining ≤ 2 * more.length + 2) :
    Packed origin more { s with trace := t } where
  sent := h.sent.trans hmore
  numbered := h.numbered
  published := by rw [hdestination]; exact h.published
  taken := h.taken
  refused := h.refused
  rests := fun hrefused => by rw [hdestination]; exact h.rests hrefused
  fails := by rw [hended]; exact h.fails
  packing := by
    obtain ⟨w, hw, halike, hp⟩ := h.packing
    exact ⟨w, hdestination.trans hw, halike, hpacking w hp⟩
  turns := hturns

theorem remaining_accept (c : Channel) (e : Event) : (c.accept e).remaining =
    if c.closing || c.cancelled then c.remaining else c.remaining + 2 := by
  unfold Channel.accept
  split
  · rfl
  · simp only [remaining, List.length_append, List.length_singleton]
    omega

theorem Packed.accept (h : Packed origin accepted s) (e : Event) :
    Packed origin (if s.trace.channel.closing || s.trace.channel.cancelled then accepted
      else accepted ++ [e]) (s.act (.accept e)) := by
  have hkeep : (s.trace.channel.accept e).destination = s.trace.channel.destination ∧
      (s.trace.channel.accept e).signals = s.trace.channel.signals ∧
      ∀ w, Packing origin.batchSize s.sent s.refused s.trace.channel w →
        Packing origin.batchSize s.sent s.refused (s.trace.channel.accept e) w := by
    unfold Channel.accept
    split
    · exact ⟨rfl, rfl, fun _ hp => hp⟩
    · exact ⟨rfl, rfl, fun _ hp => hp.of_eq rfl rfl rfl rfl rfl⟩
  refine h.of_eq ?_ hkeep.1 rfl hkeep.2.2 fun hhalf => ?_
  · split
    · exact List.prefix_rfl
    · exact List.prefix_append _ _
  · have hturns := h.turns (hkeep.2.1 ▸ hhalf)
    simp only [Trace.act, remaining_accept]
    split
    · exact hturns
    · rw [List.length_append, List.length_singleton]
      omega

theorem Packed.close (h : Packed origin accepted s) : Packed origin accepted (s.act .close) :=
  h.of_eq List.prefix_rfl rfl rfl (fun _ hp => hp.of_eq rfl rfl rfl rfl rfl) h.turns

theorem cancel_destination (c : Channel) (outside : Outside) :
    (c.cancel outside).1.destination = c.destination := by
  unfold Channel.cancel
  split
  · rfl
  · dsimp only
    split <;> rfl

theorem Stands.stage_cancel (h : Stands accepted c course) (outside : Outside) :
    (c.cancel outside).1.stage = .stopped := by
  cases h with
  | ready hstage _ hc => rw [cancel_of_open hc (by simp [hstage])]
  | writing hstage _ hc => rw [cancel_of_open hc (by simp [hstage])]
  | flushing hstage _ hc => rw [cancel_of_open hc (by simp [hstage])]
  | failed hstage _ hc => rw [cancel_of_open hc (by simp [hstage])]
  | acknowledging hstage _ hc => rw [cancel_of_open hc (by simp [hstage])]
  | stopped hstage => rw [cancel_of_stopped hstage, hstage]

theorem Packed.cancel (h : Packed origin accepted s)
    (hstands : Stands accepted s.trace.channel course) (outside : Outside) :
    Packed origin accepted (s.act (.cancel outside)) := by
  obtain ⟨-, -, hcancelled, hwritten⟩ := cancel_keeps s.trace.channel outside
  have hsignals := hstands.signals_cancel outside
  refine h.of_eq List.prefix_rfl (cancel_destination _ outside) rfl
    (fun _ hpacking => .stopped (hstands.stage_cancel outside) ?_) fun hhalf => ?_
  · simp only [Trace.act, hsignals, hwritten, hcancelled, Signals.cancel]
    cases hhalf : s.trace.channel.signals.half with
    | none => exact .inr ⟨by simp, .inl trivial⟩
    | some o =>
      rw [Signal.resolve_some]
      by_cases ho : o = .done
      · subst ho
        exact .inl ⟨rfl, hpacking.of_half hstands hhalf⟩
      · exact .inr ⟨by simpa using ho, .inl trivial⟩
  · simp only [Trace.act, hsignals, Signals.cancel] at hhalf
    have := Signal.isSome_resolve s.trace.channel.signals.half
      (.failed (.cancelled s.trace.channel.name))
    rw [hhalf] at this
    cases this

/-! ### Turns

In its turn the worker hands a batch over, or learns what has become of one, or does neither. `Repacks`
is what remains of `Uploads` when only the batches are looked at, in these three cases. -/

theorem handed_of_eq (h : d.destination = c.destination) : handed c d = none := by
  unfold handed
  split
  · rfl
  · next hnone => simpa [h] using hnone

theorem handed_of_idle {v : BackendWriter} (hd : d.destination = .backend v)
    (h : v.onTheWay = none) : handed c d = none := by
  unfold handed
  split
  · rfl
  · rw [hd, Destination.onTheWay?, h, Option.map_none]

theorem handed_handedOver {v : BackendWriter} {last : Bool} {n : Nat}
    (hw : c.destination = .backend w) (hidle : w.onTheWay = none)
    (hd : d.destination = .backend (v.handedOver last n)) : handed c d = some (v.batch last) := by
  rw [handed, hw, hd]
  simp [Destination.onTheWay?, hidle, BackendWriter.handedOver]

/-- A backend that takes a batch refuses nothing. -/
theorem refused?_answered (w : BackendWriter) :
    (w.answered (.ok ())).toList.filterMap Publish.refused? = [] := by
  unfold BackendWriter.answered
  cases w.onTheWay <;> rfl

/-- What was on its way and what is handed over is published or on its way. -/
theorem Uploads.accounts {ended : List (Work × Verdict)} {p : Option Publish}
    (h : c.Uploads w d ended p) (hw : c.destination = .backend w)
    (hpacking : Packing b sent refused c w) :
    c.destination.onTheWay?.toList ++ (handed c d).toList =
      p.toList.map Publish.batch ++ d.destination.onTheWay?.toList := by
  -- What the backend has taken is what was on its way, if anything was.
  have arrives : w.delivered.onTheWay = none ∧
      (w.answered (.ok ())).toList.map Publish.batch = (w.onTheWay.map Prod.fst).toList := by
    unfold BackendWriter.delivered BackendWriter.answered
    cases hway : w.onTheWay with
    | none => exact ⟨hway, rfl⟩
    | some sent => exact ⟨rfl, rfl⟩
  -- A turn that leaves the writer as it is moves no batch and asks the backend nothing.
  have kept (hd : d.destination = c.destination) :
      c.destination.onTheWay?.toList ++ (handed c d).toList =
        (none : Option Publish).toList.map Publish.batch ++ d.destination.onTheWay?.toList := by
    rw [handed_of_eq hd, hd]
    simp
  -- A batch is handed over only when nothing else is on its way.
  have handsOver {v : BackendWriter} {last : Bool} {n : Nat} (hidle : w.onTheWay = none)
      (hd : d.destination = .backend (v.handedOver last n)) :
      c.destination.onTheWay?.toList ++ (handed c d).toList =
        (none : Option Publish).toList.map Publish.batch ++ d.destination.onTheWay?.toList := by
    rw [handed_handedOver hw hidle hd, hw, hd]
    simp [Destination.onTheWay?, hidle, BackendWriter.handedOver]
  cases h with
  | leftOut => exact kept rfl
  | gaveUp => exact kept rfl
  | gathers wake hs _ hf =>
    have hidle := (hpacking.gathering hs hf).2.idle
    rw [handed_of_idle (v := w.gathering _) rfl hidle]
    simp [hw, hidle, Destination.onTheWay?, BackendWriter.gathering]
  | fills n wake hs _ hf => exact handsOver (hpacking.gathering hs hf).2.idle rfl
  | flushes n wake hs _ _ hf => exact handsOver (hpacking.gathering hs hf).2.idle rfl
  | wrote =>
    rw [handed_of_idle rfl arrives.1, arrives.2]
    simp [hw, arrives.1, Destination.onTheWay?]
  | writeFailed reason _ hway =>
    rw [handed_of_idle rfl rfl]
    simp [hw, hway, Destination.onTheWay?, BackendWriter.abandon]
  | flushed =>
    rw [handed_of_idle rfl arrives.1, arrives.2]
    simp [hw, arrives.1, Destination.onTheWay?]
  | flushFailed reason _ hway =>
    rw [handed_of_idle rfl rfl]
    simp [hw, hway, Destination.onTheWay?, BackendWriter.abandon]
  | again => exact kept rfl
  | acknowledged => exact kept rfl
  | acknowledgeFailed => exact kept rfl

/-- Until everything is sent, every turn brings the channel nearer to that. -/
theorem Uploads.remaining_lt {ended : List (Work × Verdict)} {p : Option Publish}
    (h : c.Uploads w d ended p)
    (hstands : Stands accepted c course) (hhalf : d.signals.half = none) :
    d.remaining < c.remaining := by
  have sent {wake : Option Nat} (hs : c.stage = .working .acknowledge wake)
      (hnone : c.signals.half = none) : False := by
    rw [(hstands.of_acknowledge hs).2.2.1] at hnone
    cases hnone
  cases h with
  | leftOut hs hq hf => simp [remaining, hs, hq]
  | gaveUp hs hc hf => simp [remaining, hs]
  | gathers wake hs hq hf hlt =>
    simp only [remaining, hs, hq, List.length_cons]
    omega
  | fills n wake hs hq hf hle =>
    simp only [remaining, hs, hq, List.length_cons]
    omega
  | flushes n wake hs hq hc hf => simp [remaining, hs, hq]
  | wrote hs => simp [remaining, hs]
  | writeFailed reason hs hway => simp [remaining, hs]
  | flushed later hs => simp [remaining, hs]
  | flushFailed reason hs hway => simp [remaining, hs]
  | again later hs => exact (sent hs hhalf).elim
  | acknowledged hs => exact (sent hs hhalf).elim
  | acknowledgeFailed reason hs =>
    cases hc : c.signals.half with
    | none => exact (sent hs hc).elim
    | some o => simp [Signals.fail, hc] at hhalf

/-- What is published by a turn comes after batches that were all taken. -/
theorem Uploads.unrefused {ended : List (Work × Verdict)} {p : Option Publish}
    (h : c.Uploads w d ended p) (hpacking : Packing b sent refused c w) (hp : p ≠ none) :
    refused = [] := by
  cases h with
  | wrote hs => exact (hpacking.of_write hs).2.1
  | writeFailed reason hs => exact (hpacking.of_write hs).2.1
  | flushed later hs => exact (hpacking.of_flush hs).1
  | flushFailed reason hs => exact (hpacking.of_flush hs).1
  | _ => exact absurd rfl hp

section

variable {t : Trace} {ended : List (Work × Verdict)} {p : Option Publish}

theorem Shipping.refused_turn (s : Shipping) (t : Trace) (p : Option Publish) (taken : List Batch) :
    (s.turn t p taken).refused = s.refused ++ p.toList.filterMap Publish.refused? :=
  List.filterMap_append

/-- **A turn of the worker** has one of three effects on how the batches are packed: they stay as they
are, or a batch is handed over, or the one on the way is refused. -/
inductive Shipping.Repacks (s : Shipping) (b : Nat) (accepted : List Event) (t : Trace)
    (v : BackendWriter) : Option Publish → Prop where
  | keeps {p : Option Publish} : handed s.trace.channel t.channel = none →
      p.toList.filterMap Publish.refused? = [] → Packing b s.sent s.refused t.channel v →
      Repacks s b accepted t v p
  | handsOver {batch : Batch} : handed s.trace.channel t.channel = some batch → s.refused = [] →
      contents (s.sent ++ [batch]) <+: accepted → Numbered (s.sent ++ [batch]) →
      Packing b (s.sent ++ [batch]) [] t.channel v → Repacks s b accepted t v none
  | refuses {batch : Batch} {reason : String} : handed s.trace.channel t.channel = none →
      t.channel.destination.onTheWay? = none → s.refused = [] →
      Packing b s.sent [batch] t.channel v →
      Repacks s b accepted t v (some ⟨batch, .error reason⟩)

/-- What one turn of the backend's worker does to the batches, by the kind of turn. The invariant says
enough of the writer to know, in each of them, what was on its way before. -/
theorem Packed.repacks (h : Packed origin accepted s) (hpos : 0 < origin.batchSize)
    (hstands : Stands accepted s.trace.channel course)
    (hw : s.trace.channel.destination = .backend w) (hb : w.batchSize = origin.batchSize)
    (hpacking : Packing origin.batchSize s.sent s.refused s.trace.channel w)
    (hu : s.trace.channel.Uploads w t.channel ended p) :
    ∃ v, t.channel.destination = .backend v ∧ s.Repacks origin.batchSize accepted t v p := by
  obtain ⟨d, past, errors⟩ := t
  change s.trace.channel.Uploads w d ended p at hu
  cases hu with
  | leftOut hs hq hf =>
    have hrefused := hpacking.refused_of_failure hs hf
    exact ⟨w, hw, .keeps (handed_of_eq rfl) rfl (.failed rfl hf hrefused)⟩
  | gaveUp hs hc hf =>
    have hrefused := hpacking.refused_of_failure hs hf
    refine ⟨w, hw, .keeps (handed_of_eq rfl) rfl (.stopped rfl (.inr ⟨?_, .inr hrefused⟩))⟩
    simp [(hstands.of_ready hs).2.1, Signals.fail, Signals.unresolved]
  | gathers wake hs hq hf hlt =>
    obtain ⟨hrefused, hgathering⟩ := hpacking.gathering hs hf
    exact ⟨_, rfl, .keeps (handed_of_idle rfl hgathering.idle) rfl
      (.writing rfl hf hrefused (.inl (hgathering.gathers _ (hb ▸ hlt))))⟩
  | @fills e queue n wake hs hq hf hle =>
    obtain ⟨hrefused, hgathering⟩ := hpacking.gathering hs hf
    obtain ⟨hdelivering, hnumbered⟩ :=
      hgathering.handsOver h.numbered (v := w.gathering e) rfl rfl false n
    have hfull := hgathering.fills e (hb ▸ hle)
    refine ⟨_, rfl, .handsOver (handed_handedOver hw hgathering.idle rfl) hrefused ?_ hnumbered
      (.writing rfl hf rfl (.inr ⟨hdelivering, hfull⟩))⟩
    obtain ⟨-, -, -, hacc⟩ := hstands.of_ready_unfailed hs hf
    rw [hdelivering.events, hacc, hq]
    exact ⟨queue, (List.append_cons _ _ _).symm⟩
  | flushes n wake hs hq hc hf =>
    -- What is left in the end is handed over as well, even if it is nothing.
    obtain ⟨hrefused, hgathering⟩ := hpacking.gathering hs hf
    obtain ⟨hdelivering, hnumbered⟩ :=
      hgathering.handsOver h.numbered (v := w) rfl (List.append_nil _).symm true n
    rw [List.append_nil] at hdelivering
    refine ⟨_, rfl, .handsOver (handed_handedOver hw hgathering.idle rfl) hrefused ?_ hnumbered
      (.flushing rfl rfl hdelivering hgathering.completes)⟩
    obtain ⟨-, -, -, hacc⟩ := hstands.of_ready_unfailed hs hf
    rw [hdelivering.events, hacc]
    exact List.prefix_append _ _
  | @wrote e wake hs =>
    obtain ⟨hf, hrefused, hpacked⟩ := hpacking.of_write hs
    -- The batch of which the event was the last one has arrived, or it was not full yet.
    have hgathering : Gathering origin.batchSize s.sent w.delivered
        (s.trace.channel.written ++ [e]) := by
      rcases hpacked with hgathering | ⟨hdelivering, hfull⟩
      · exact hgathering.delivered_eq.symm ▸ hgathering
      · exact hdelivering.gathering hfull hpos
    exact ⟨_, rfl, .keeps (handed_of_idle rfl hgathering.idle) (refused?_answered w)
      (.ready rfl hf hrefused hgathering)⟩
  | writeFailed reason hs hway =>
    exact ⟨_, rfl, .refuses (handed_of_idle rfl rfl) rfl (hpacking.of_write hs).2.1
      (.failed rfl rfl (List.cons_ne_nil _ _))⟩
  | flushed later hs =>
    obtain ⟨hrefused, hdelivering, hcomplete⟩ := hpacking.of_flush hs
    have hidle := hdelivering.delivered.1
    exact ⟨_, rfl, .keeps (handed_of_idle rfl hidle) (refused?_answered w)
      (.flushed rfl hrefused hidle hcomplete hdelivering.events)⟩
  | flushFailed reason hs hway =>
    refine ⟨_, rfl, .refuses (handed_of_idle rfl rfl) rfl (hpacking.of_flush hs).1
      (.stopped rfl (.inr ⟨?_, .inr (List.cons_ne_nil _ _)⟩))⟩
    simp [(hstands.of_flush hs).2.2.1, Signals.fail, Signals.unresolved]
  | again later hs =>
    obtain ⟨hrefused, hidle, hcomplete, hevents⟩ := hpacking.of_acknowledge hs
    exact ⟨w, hw, .keeps (handed_of_eq rfl) rfl (.flushed rfl hrefused hidle hcomplete hevents)⟩
  | acknowledged hs =>
    obtain ⟨hrefused, hidle, hcomplete, hevents⟩ := hpacking.of_acknowledge hs
    have hsignals := (hstands.of_acknowledge hs).2.2.1
    refine ⟨w, hw, .keeps (handed_of_eq rfl) rfl
      (.stopped rfl (.inl ⟨?_, hrefused, hidle, hcomplete, hevents⟩))⟩
    rw [hsignals]
  | acknowledgeFailed reason hs =>
    obtain ⟨hrefused, hidle, hcomplete, hevents⟩ := hpacking.of_acknowledge hs
    have hsignals := (hstands.of_acknowledge hs).2.2.1
    refine ⟨w, hw, .keeps (handed_of_eq rfl) rfl
      (.stopped rfl (.inl ⟨?_, hrefused, hidle, hcomplete, hevents⟩))⟩
    rw [hsignals]
    rfl

/-- What is handed over goes on to be published. -/
theorem Packed.published_turn (h : Packed origin accepted s) (taken : List Batch)
    (haccounts : s.trace.channel.destination.onTheWay?.toList ++
        (handed s.trace.channel t.channel).toList =
      p.toList.map Publish.batch ++ t.channel.destination.onTheWay?.toList) :
    (s.turn t p taken).sent = (s.turn t p taken).published.map Publish.batch ++
      t.channel.destination.onTheWay?.toList := by
  calc s.sent ++ (handed s.trace.channel t.channel).toList
    _ = s.published.map Publish.batch ++ (s.trace.channel.destination.onTheWay?.toList ++
        (handed s.trace.channel t.channel).toList) := by
      rw [h.published, List.append_assoc]
    _ = (s.published ++ p.toList).map Publish.batch ++
        t.channel.destination.onTheWay?.toList := by
      rw [haccounts, List.map_append, List.append_assoc]

/-- Nothing is published after a refusal. -/
theorem Packed.last_turn (h : Packed origin accepted s) (t : Trace) (taken : List Batch)
    (hp : p ≠ none → s.refused = []) :
    ∀ before q after, (s.turn t p taken).published = before ++ q :: after →
      before.filterMap Publish.refused? = [] := by
  cases p with
  | none =>
    simp only [Shipping.turn, Option.toList_none, List.append_nil]
    exact h.refused
  | some q => exact forall_cut_concat h.refused (hp (by simp))

theorem Packed.fails_turn (h : Packed origin accepted s) (taken : List Batch)
    (hu : s.trace.channel.Uploads w t.channel ended p) (hended : t.ended = s.trace.ended ++ ended) :
    ∀ q ∈ (s.turn t p taken).published, ∀ reason, q.answer = .error reason →
      ∃ work, (work, .failed reason) ∈ t.ended := by
  intro q hq reason hreason
  rw [hended]
  rcases List.mem_append.mp hq with hq | hq
  · obtain ⟨work, hmem⟩ := h.fails q hq reason hreason
    exact ⟨work, List.mem_append_left _ hmem⟩
  · obtain ⟨batch, answer⟩ := q
    cases hreason
    obtain ⟨work, hmem⟩ := hu.fails (Option.mem_toList.mp hq)
    exact ⟨work, List.mem_append_right _ hmem⟩

/-- **A turn of the worker** keeps the batches in order. -/
theorem Packed.turn {taken : List Batch} (h : Packed origin accepted s) (hpos : 0 < origin.batchSize)
    (hstands : Stands accepted s.trace.channel course)
    (huploads : ∀ w, s.trace.channel.destination = .backend w →
      s.trace.channel.Uploads w t.channel ended p ∧
        taken = p.toList.flatMap w.connection.recorded)
    (hended : t.ended = s.trace.ended ++ ended)
    (honward : t.channel.signals.half = none → s.trace.channel.signals.half = none) :
    Packed origin accepted (s.turn t p taken) := by
  obtain ⟨w, hw, halike, hpacking⟩ := h.packing
  obtain ⟨hu, htaken⟩ := huploads w hw
  obtain ⟨v, hv, hrepacks⟩ := h.repacks hpos hstands hw halike.batchSize hpacking hu
  have hsame : v.Alike w := by
    obtain ⟨v', hv', hsame⟩ := hu.alike hw
    cases hv.symm.trans hv'
    exact hsame
  have haccounts := hu.accounts hw hpacking
  have hpublished := h.published_turn taken haccounts
  have hlast := h.last_turn t taken (hu.unrefused hpacking)
  have hfails := h.fails_turn taken hu hended
  have hrecorded : (s.turn t p taken).taken =
      (s.turn t p taken).published.flatMap origin.connection.recorded := by
    simp only [Shipping.turn, h.taken, htaken, halike.connection, List.flatMap_append]
  -- Every turn brings the end nearer by at least one.
  have hturns : t.channel.signals.half = none →
      s.turns + 1 + t.channel.remaining ≤ 2 * accepted.length + 2 := fun hhalf => by
    have hbefore := h.turns (honward hhalf)
    have hless := hu.remaining_lt hstands hhalf
    omega
  cases hrepacks with
  | keeps hhanded hrefusal hkeeps =>
    have hsent : (s.turn t p taken).sent = s.sent := by
      simp only [Shipping.turn, hhanded, Option.toList_none, List.append_nil]
    have hrefused : (s.turn t p taken).refused = s.refused := by
      rw [Shipping.refused_turn, hrefusal, List.append_nil]
    refine ⟨hsent ▸ h.sent, hsent ▸ h.numbered, hpublished, hrecorded, hlast, fun hne => ?_, hfails,
      ⟨v, hv, hsame.trans halike, hsent ▸ hrefused ▸ hkeeps⟩, hturns⟩
    -- Nothing was on its way, and nothing is handed over.
    rw [h.rests (hrefused ▸ hne), hhanded] at haccounts
    exact Option.toList_eq_nil_iff.mp (List.append_eq_nil_iff.mp haccounts.symm).2
  | @handsOver batch hhanded hnone hprefix hnumbered hpacks =>
    have hsent : (s.turn t none taken).sent = s.sent ++ [batch] := by
      simp only [Shipping.turn, hhanded, Option.toList_some]
    have hrefused : (s.turn t none taken).refused = [] := by
      rw [Shipping.refused_turn, hnone]
      rfl
    exact ⟨hsent ▸ hprefix, hsent ▸ hnumbered, hpublished, hrecorded, hlast,
      fun hne => absurd hrefused hne, hfails,
      ⟨v, hv, hsame.trans halike, hsent ▸ hrefused ▸ hpacks⟩, hturns⟩
  | @refuses batch reason hhanded hidle hnone hpacks =>
    have hsent : (s.turn t (some ⟨batch, .error reason⟩) taken).sent = s.sent := by
      simp only [Shipping.turn, hhanded, Option.toList_none, List.append_nil]
    have hrefused : (s.turn t (some ⟨batch, .error reason⟩) taken).refused = [batch] := by
      rw [Shipping.refused_turn, hnone]
      rfl
    exact ⟨hsent ▸ h.sent, hsent ▸ h.numbered, hpublished, hrecorded, hlast, fun _ => hidle, hfails,
      ⟨v, hv, hsame.trans halike, hsent ▸ hrefused ▸ hpacks⟩, hturns⟩

end

theorem Packed.work (h : Packed origin accepted s) (hpos : 0 < origin.batchSize)
    (hstands : Stands accepted s.trace.channel course) (outside : Outside) (now : Nat) :
    Packed origin accepted (s.act (.work outside now)) := by
  cases hstep : s.trace.channel.step? outside now with
  | none =>
    rw [Shipping.act, hstep]
    exact h
  | some out =>
    obtain ⟨d, outside', errors⟩ := out
    have hact := Trace.act_work_of_some hstep
    simp only [Shipping.act, hstep]
    refine h.turn hpos hstands (fun w hw => ?_) (by rw [hact]) fun hhalf => ?_
    · rw [hact]
      obtain ⟨hu, haccepted⟩ := uploads_step? hw hstep
      refine ⟨hu, ?_⟩
      rw [Outside.acceptedSince, haccepted, List.drop_left]
    · cases hbefore : s.trace.channel.signals.half with
      | none => rfl
      | some o =>
        have := (s.trace.onward_act (.work outside now)).signals.half o hbefore
        rw [hhalf] at this
        cases this

/-- Whatever happens to a channel in front of a backend, its batches are in order. -/
theorem packed (name : String) (connection : Connection) (options : BackendOptions)
    (requestId invocationId : String) (acts : List Act) :
    Packed (.new connection options requestId invocationId) (admitted acts) (shipping name
      (.backend (.new connection options requestId invocationId)) acts) := by
  have hpos : 0 < max options.batchSize 1 := Nat.lt_of_lt_of_le Nat.one_pos (Nat.le_max_right _ _)
  induction acts using List.reverseRecOn with
  | nil => exact .new name connection options requestId invocationId
  | append_singleton acts a ih =>
    have hcoherent := coherent name (.backend (.new connection options requestId invocationId)) acts
    rw [← trace_shipping] at hcoherent
    obtain ⟨course, -, -, hstands⟩ := hcoherent.course
    rw [shipping_concat, hcoherent.admitted_concat]
    cases a with
    | accept e => exact ih.accept e
    | close => simpa [Act.event?] using ih.close
    | cancel outside => simpa [Act.event?] using ih.cancel hstands outside
    | work outside now => simpa [Act.event?] using ih.work hpos hstands outside now

/-! ## The theorem

`Batched` is about the lists in `Shipping`, the signals of the channel and what is on its way; of the
writer it says nothing else. The bound is on the number of turns, because how long a delivery takes is
up to the backend. -/

/-- What becomes of the events of a channel in front of a backend that takes batches of `b` events,
after an interleaving. -/
structure Batched (b : Nat) (connection : Connection) (acts : List Act) (s : Shipping) : Prop where
  /-- The batches that are handed over are made of the first of the events that were accepted, in their
  order, each of them once. -/
  sent : contents s.sent <+: admitted acts
  /-- The backend is given these batches, in this order, and nothing else. At most the last one it has
  not been given yet, or has not answered to when the channel was cancelled. -/
  published : s.sent =
    s.published.map Publish.batch ++ s.trace.channel.destination.onTheWay?.toList
  /-- A service at hand has accepted in the turns of the worker what it was given and has not refused. -/
  taken : s.taken = s.published.flatMap connection.recorded
  /-- A batch that the backend refuses is the last that is handed over to it, and the work of the channel
  fails with the reason that the backend gives. -/
  refused : ∀ before p after, s.published = before ++ p :: after →
    ∀ reason, p.answer = .error reason →
      after = [] ∧ s.sent = s.published.map Publish.batch ∧
        ∃ work, (work, .failed reason) ∈ s.trace.ended
  /-- In a stream that is numbered from one, a batch says how many events came before it. -/
  numbered : (admitted acts).map (·.sequence) = List.range' 1 (admitted acts).length →
    ∀ before batch after, s.sent = before ++ batch :: after →
      batch.firstSequence = 1 + (contents before).length
  /-- A closed channel that has not tried to send everything has something to do, now or at some
  instant. -/
  goes : .close ∈ acts → s.trace.channel.signals.half = none →
    ∃ wake, ∀ outside now, wake ≤ now → (s.trace.channel.step? outside now).isSome = true
  /-- And it has not that many turns left. -/
  ends : 2 * (admitted acts).length + 2 ≤ s.turns → s.trace.channel.signals.half.isSome = true
  /-- When it has tried to send everything and the backend has refused nothing, the backend was given all
  events, in full batches and one last batch with what was left over. -/
  all : s.trace.channel.signals.half.isSome = true → (∀ outside, .cancel outside ∉ acts) →
    (∀ p ∈ s.published, p.answer = .ok ()) →
      s.sent = s.published.map Publish.batch ∧ contents s.sent = admitted acts ∧
      ∃ full final, s.sent = full ++ [final] ∧ full.length = (admitted acts).length / b ∧
        (∀ batch ∈ full, batch.last = false ∧ batch.events.length = b) ∧
        final.last = true ∧ final.events.length = (admitted acts).length % b

theorem Stands.half_ne_none (h : Stands accepted c course) (hs : c.stage = .stopped) :
    c.signals.half ≠ none := by
  cases h with
  | stopped _ _ hsig => simp [hsig]
  | ready hstage => cases hs.symm.trans hstage
  | failed hstage => cases hs.symm.trans hstage
  | writing hstage => cases hs.symm.trans hstage
  | flushing hstage => cases hs.symm.trans hstage
  | acknowledging hstage => cases hs.symm.trans hstage

theorem Stands.remaining_pos (h : Stands accepted c course) (hhalf : c.signals.half = none) :
    0 < c.remaining := by
  cases h with
  | ready hs => simp [remaining, hs]
  | failed hs => simp [remaining, hs]
  | writing hs => simp [remaining, hs]
  | flushing hs => simp [remaining, hs]
  | acknowledging _ _ _ hsig => simp [hsig] at hhalf
  | stopped _ _ hsig => simp [hsig] at hhalf

/-- A channel that has not tried to send everything has something to do, once it is closed. -/
theorem Packing.goes_on (h : Packing b sent refused c w) (hstands : Stands accepted c course)
    (hclosing : c.closing = true) (hhalf : c.signals.half = none) :
    ∃ wake, ∀ outside now, wake ≤ now → (c.step? outside now).isSome = true := by
  have due {work : Work} {wake : Nat} (hs : c.stage = .working work (some wake)) :
      ∃ wake, ∀ outside now, wake ≤ now → (c.step? outside now).isSome = true :=
    ⟨wake, fun outside now hnow => by simp [step?, hs, isDue, hnow]⟩
  have begins (hs : c.stage = .ready) :
      ∃ wake, ∀ outside now, wake ≤ now → (c.step? outside now).isSome = true := by
    refine ⟨0, fun outside now _ => ?_⟩
    simp only [step?, hs, hclosing, if_true]
    split
    · rfl
    · rfl
    · split <;> rfl
  cases h with
  | ready hs => exact begins hs
  | failed hs => exact begins hs
  | writing hs => exact due hs
  | flushing hs => exact due hs
  | flushed hs => exact due hs
  | stopped hs => exact absurd hhalf (hstands.half_ne_none hs)

/-- What ends the attempt to send everything other than success is a cancellation or a refusal. -/
theorem Packing.half_eq_done (h : Packing b sent refused c w) (hstands : Stands accepted c course)
    (hhalf : c.signals.half.isSome = true) (hcancelled : c.cancelled ≠ true)
    (hrefused : refused = []) : c.signals.half = some .done := by
  have unresolved (hsig : c.signals = .unresolved) : False := by
    rw [hsig] at hhalf
    cases hhalf
  cases h with
  | ready hs => exact (unresolved (hstands.of_ready hs).2.1).elim
  | failed hs => exact (unresolved (hstands.of_ready hs).2.1).elim
  | writing hs => exact (unresolved (hstands.of_write hs).2.2.1).elim
  | flushing hs => exact (unresolved (hstands.of_flush hs).2.2.1).elim
  | flushed hs => rw [(hstands.of_acknowledge hs).2.2.1]
  | stopped _ h =>
    rcases h with ⟨hdone, -⟩ | ⟨-, hwhy | hwhy⟩
    · exact hdone
    · exact absurd hwhy hcancelled
    · exact absurd hrefused hwhy

/-- A list of answers without a refusal. -/
theorem Shipping.refused_eq_nil {s : Shipping} (h : ∀ p ∈ s.published, p.answer = .ok ()) :
    s.refused = [] := by
  refine List.filterMap_eq_nil_iff.mpr fun p hp => ?_
  rw [Publish.refused?, h p hp]

/-- **The batches that a backend is given** are the first of the accepted events, in order and each of
them once, whatever callers do to the channel in front of it and whatever the backend answers; what it
refuses is the last that it is given, and if it refuses nothing it is given everything. -/
theorem batched (name : String) (connection : Connection) (options : BackendOptions)
    (requestId invocationId : String) (acts : List Act) :
    Batched (max options.batchSize 1) connection acts (shipping name
      (.backend (.new connection options requestId invocationId)) acts) := by
  have hpacked := packed name connection options requestId invocationId acts
  have hcoherent := coherent name (.backend (.new connection options requestId invocationId)) acts
  rw [← trace_shipping] at hcoherent
  generalize hs : shipping name _ acts = s at hpacked hcoherent ⊢
  obtain ⟨course, -, -, hstands⟩ := hcoherent.course
  obtain ⟨w, hw, -, hpacking⟩ := hpacked.packing
  have hopen (h : ∀ outside, .cancel outside ∉ acts) (hcancelled : _ = true) : False :=
    let ⟨outside, hmem⟩ := hcoherent.cancelled.mp hcancelled
    h outside hmem
  refine ⟨hpacked.sent, hpacked.published, hpacked.taken, fun before p after heq reason hreason => ?_,
    fun hstream before batch after heq => hpacked.numbered.first heq hpacked.sent hstream,
    fun hclose hhalf => hpacking.goes_on hstands (hcoherent.closing.mpr hclose) hhalf,
    fun hturns => ?_, fun hhalf hcancel hanswers => ?_⟩
  · have hp : p.refused? = some p.batch := by rw [Publish.refused?, hreason]
    have hne : s.refused ≠ [] := fun hnil => by
      have hnone := List.filterMap_eq_nil_iff.mp hnil p (heq ▸ by simp)
      cases hnone.symm.trans hp
    refine ⟨?_, ?_, hpacked.fails p (heq ▸ by simp) reason hreason⟩
    · -- Were there another one, this one would be refused before it.
      rcases List.eq_nil_or_concat after with hnil | ⟨rest, q, rfl⟩
      · exact hnil
      · have hnone := List.filterMap_eq_nil_iff.mp
          (hpacked.refused (before ++ p :: rest) q [] (by simp [heq])) p (by simp)
        cases hnone.symm.trans hp
    · rw [hpacked.published, hpacked.rests hne, Option.toList_none, List.append_nil]
  · -- A turn that did not end the work would be one too many.
    rw [Option.isSome_iff_ne_none]
    intro hhalf
    have hle := hpacked.turns hhalf
    have hpos := hstands.remaining_pos hhalf
    omega
  · -- Nothing was refused and nobody has cancelled, so the signal says that everything was sent.
    have hrefused := Shipping.refused_eq_nil hanswers
    have hdone := hpacking.half_eq_done hstands hhalf (hopen hcancel) hrefused
    obtain ⟨-, hidle, hcomplete, hevents⟩ := hpacking.of_half hstands hdone
    have hall := hevents.trans (hstands.accepted_of_half hdone).symm
    obtain ⟨full, final, hsent, hfull, hlast, hdiv, hmod⟩ := hcomplete.exact
    rw [hall] at hdiv hmod
    refine ⟨?_, hall, full, final, hsent, hdiv, hfull, hlast, hmod⟩
    rw [hpacked.published, hw, Destination.onTheWay?, hidle, Option.map_none, Option.toList_none,
      List.append_nil]

/-- Three events in batches of two, for a service that refuses what is left over. -/
example :
    let event (n : Nat) : Event := (Event.ofPayload "progress" .null).numbered n
    let writer : BackendWriter := .new .service { BackendOptions.at "" with batchSize := 2 } "" ""
    let full := { Outside.fresh with service := { Service.willing with deliveries := [some "full"] } }
    let acts := [1, 2, 3].map (fun n => .accept (event n)) ++
      .close :: List.replicate 6 (.work .fresh 0) ++ List.replicate 2 (.work full 0)
    let s := shipping "" (.backend writer) acts
    s.published.map (fun p => (p.batch.firstSequence, p.batch.events.map (·.sequence), p.batch.last)) =
        [(1, [1, 2], false), (3, [3], true)] ∧
      s.taken.map (·.firstSequence) = [1] ∧ s.refused.map (·.firstSequence) = [3] := by
  decide

end Channel

end EventUpload
