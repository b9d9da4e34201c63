import EventUpload.Proofs.Sink.Turn

/-!
# Turns in front of a backend

`Channel.Does` leaves open what becomes of the destination. In front of a backend there is more to
say: an event is gathered or completes a batch, a batch is on its way or has arrived, and every piece
of work ends at a known instant. `Channel.Uploads` lists the turns with that, and `uploads_step?` reads
them off the definition.

The backend itself is the other party here, and what a writer believes of a batch says nothing about
it. So what the backend is given and what it answers is noted apart, as a `Publish`: the answer is that
of `Service.endDelivery` or of `WebClient.publish`, whichever the writer is connected to, and not the
verdict that the worker makes of it. `Delivers` ties the two together. A delivery succeeds exactly if
the backend takes the batch, or if there is none; it fails with the reason that the backend gives; and a
service at hand has then accepted that batch more, or nothing. Every turn comes with its `Publish`, and
all turns but those that end a write or a flush come without one.

What a backend on the web does with a batch that it has taken cannot be seen from here: `recorded` is
empty for it.
-/

set_option autoImplicit false

namespace EventUpload

/-! ## What a backend is given

The functions here repeat no decision of the writer: they look up what the service or the web answers to
the batch that is on its way, and `delivers_endDelivery` compares this with what the writer does. -/

/-- A batch that a backend was given, with what it answered. -/
structure Publish where
  batch : Batch
  answer : Except String Unit

namespace Publish

/-- The batch, if the backend has taken it. -/
def accepted? (p : Publish) : Option Batch :=
  match p.answer with
  | .ok () => some p.batch
  | .error _ => none

/-- The batch, if the backend has refused it. -/
def refused? (p : Publish) : Option Batch :=
  match p.answer with
  | .ok () => none
  | .error _ => some p.batch

end Publish

/-- A service takes a batch, or refuses it and stays as it was. -/
theorem Service.endDelivery_cases (s : Service) (n : Nat) (b : Batch) :
    s.endDelivery n b = ({ s with accepted := s.accepted ++ [b] }, .ok ()) ∨
      ∃ reason, s.endDelivery n b = (s, .error reason) := by
  unfold Service.endDelivery
  cases s.refusal? n with
  | none => exact .inl rfl
  | some reason => exact .inr ⟨reason, rfl⟩

/-- The batches that a service at hand has more after a publish. -/
def Connection.recorded (p : Publish) : Connection → List Batch
  | .service => p.accepted?.toList
  | .web _ => []

namespace BackendWriter

variable (w : BackendWriter)

/-- What the backend answers to a batch: a service at hand as to its n-th delivery, one on the web as to
the request with the batch. -/
def answerTo (service : Service) (web : Web) (batch : Batch) (n : Nat) : Except String Unit :=
  match w.connection with
  | .service => (service.endDelivery n batch).2
  | .web client => inOneLine (client.publish web batch)

/-- What is published when the delivery on the way comes to its end. -/
def publish? (service : Service) (web : Web) : Option Publish :=
  match w.onTheWay with
  | none => none
  | some (batch, n) => some ⟨batch, w.answerTo service web batch n⟩

/-- The batch on the way, if there is one, with an answer. -/
def answered (answer : Except String Unit) : Option Publish :=
  w.onTheWay.map fun sent => ⟨sent.1, answer⟩

/-- A writer whose batch on the way, if there is one, has arrived. -/
def delivered : BackendWriter :=
  match w.onTheWay with
  | none => w
  | some (batch, _) => { w with onTheWay := none, lastSent := batch.lastNumber?.getD w.lastSent }

/-- A writer that has handed over everything that it had gathered. -/
def handedOver (last : Bool) (n : Nat) : BackendWriter :=
  { w with gathered := [], onTheWay := some (w.batch last, n) }

def gathering (e : Event) : BackendWriter := { w with gathered := w.gathered ++ [e] }

theorem exists_startDelivery (service : Service) (last : Bool) :
    ∃ n service' time, service'.accepted = service.accepted ∧
      w.startDelivery service last = (w.handedOver last n, service', time) := by
  unfold startDelivery
  dsimp only
  split
  · refine ⟨_, _, _, ?_, rfl⟩
    rfl
  · refine ⟨_, _, _, ?_, rfl⟩
    rfl

/-- Two writers to the same place, with the same batches and the same pauses. -/
structure Alike (v w : BackendWriter) : Prop where
  connection : v.connection = w.connection
  invocationId : v.invocationId = w.invocationId
  batchSize : v.batchSize = w.batchSize
  pollInterval : v.pollInterval = w.pollInterval

theorem Alike.refl : w.Alike w := ⟨rfl, rfl, rfl, rfl⟩

theorem Alike.trans {u v w : BackendWriter} (h : u.Alike v) (k : v.Alike w) : u.Alike w where
  connection := h.connection.trans k.connection
  invocationId := h.invocationId.trans k.invocationId
  batchSize := h.batchSize.trans k.batchSize
  pollInterval := h.pollInterval.trans k.pollInterval

theorem alike_delivered : w.delivered.Alike w := by
  unfold delivered
  split <;> exact ⟨rfl, rfl, rfl, rfl⟩

/-- How a delivery ends, given what is published with it. -/
inductive Delivers (service : Service) :
    Option Publish → BackendWriter × Service × Except String Unit → Prop where
  /-- The backend has taken the batch, or there was none. -/
  | accepted (service' : Service) :
      service'.accepted =
        service.accepted ++ (w.answered (.ok ())).toList.flatMap w.connection.recorded →
      Delivers service (w.answered (.ok ())) (w.delivered, service', .ok ())
  /-- The backend has refused it, and the writer says why. -/
  | refused {batch : Batch} {n : Nat} (reason : String) : w.onTheWay = some (batch, n) →
      Delivers service (some ⟨batch, .error reason⟩) (w.abandon, service, .error reason)

variable {w}

theorem Delivers.arrives {service service' : Service} {batch : Batch} {n : Nat}
    (hway : w.onTheWay = some (batch, n))
    (h : service'.accepted = service.accepted ++ w.connection.recorded ⟨batch, .ok ()⟩) :
    w.Delivers service (some ⟨batch, .ok ()⟩) (w.delivered, service', .ok ()) := by
  have hanswered : w.answered (.ok ()) = some ⟨batch, .ok ()⟩ := by
    rw [answered, hway]
    rfl
  rw [← hanswered]
  refine .accepted service' ?_
  rw [h, hanswered]
  simp

variable (w)

/-- **A delivery ends as the backend answers.** -/
theorem delivers_endDelivery (service : Service) (web : Web) :
    w.Delivers service (w.publish? service web) (w.endDelivery service web) := by
  obtain ⟨connection, requestId, invocationId, projectId, keywords, batchSize, pollInterval, gathered,
    lastSent, onTheWay⟩ := w
  rcases onTheWay with _ | ⟨batch, n⟩
  · exact .accepted service (by simp [answered])
  · cases connection with
    | service =>
      simp only [publish?, endDelivery, answerTo]
      rcases service.endDelivery_cases n batch with hok | ⟨reason, herror⟩
      · rw [hok]
        exact .arrives rfl rfl
      · rw [herror]
        exact .refused reason rfl
    | web client =>
      simp only [publish?, endDelivery, answerTo]
      cases inOneLine (client.publish web batch) with
      | ok u => exact .arrives rfl (List.append_nil _).symm
      | error reason => exact .refused reason rfl

end BackendWriter

namespace Channel

/-! ## Turns in front of a backend

The constructors are those of `Does`, with the cases of a writer in them. A turn in which a delivery
ends is found in two of them, as the answer may be a success or a refusal. -/

/-- What is published in a turn: in one that ends a write or a flush, the batch on the way. -/
def publish? (c : Channel) (outside : Outside) : Option Publish :=
  match c.stage, c.destination with
  | .working (.write _) _, .backend w | .working .flush _, .backend w =>
    w.publish? outside.service outside.web
  | _, _ => none

/-- What a turn of the worker can do in front of a backend: the channel afterwards, the piece of
work that came to an end, and what was published. Where a piece of work is begun, the instant is known
at which it ends. -/
inductive Uploads (c : Channel) (w : BackendWriter) :
    Channel → List (Work × Verdict) → Option Publish → Prop where
  | leftOut {e : Event} {queue : List Event} {f : SinkError} :
      c.stage = .ready → c.queue = e :: queue → c.failure = some f →
      Uploads c w { c with queue := queue, stage := .ready } [] none
  | gaveUp {f : SinkError} : c.stage = .ready → c.closing = true → c.failure = some f →
      Uploads c w { c with stage := .stopped, signals := c.signals.fail f } [] none
  /-- The event does not complete a batch. -/
  | gathers {e : Event} {queue : List Event} (wake : Nat) :
      c.stage = .ready → c.queue = e :: queue → c.failure = none →
      w.gathered.length + 1 < w.batchSize →
      Uploads c w { c with
          queue := queue
          destination := .backend (w.gathering e)
          stage := .working (.write e) (some wake) } [] none
  | fills {e : Event} {queue : List Event} (n wake : Nat) :
      c.stage = .ready → c.queue = e :: queue → c.failure = none →
      w.batchSize ≤ w.gathered.length + 1 →
      Uploads c w { c with
          queue := queue
          destination := .backend ((w.gathering e).handedOver false n)
          stage := .working (.write e) (some wake) } [] none
  | flushes (n wake : Nat) : c.stage = .ready → c.queue = [] → c.closing = true → c.failure = none →
      Uploads c w { c with
          destination := .backend (w.handedOver true n)
          stage := .working .flush (some wake) } [] none
  /-- The backend has taken what was on the way. -/
  | wrote {e : Event} {wake : Option Nat} : c.stage = .working (.write e) wake →
      Uploads c w { c with
          destination := .backend w.delivered
          written := c.written ++ [e]
          stage := .ready } [(.write e, .ok)] (w.answered (.ok ()))
  /-- The backend has refused it, and the write fails with its reason. -/
  | writeFailed {e : Event} {wake : Option Nat} {batch : Batch} {n : Nat} (reason : String) :
      c.stage = .working (.write e) wake → w.onTheWay = some (batch, n) →
      Uploads c w { c with
          destination := .backend w.abandon
          failure := some (.transmission c.name reason)
          stage := .ready } [(.write e, .failed reason)] (some ⟨batch, .error reason⟩)
  | flushed {wake : Option Nat} (later : Nat) : c.stage = .working .flush wake →
      Uploads c w { c with
          destination := .backend w.delivered
          signals := { c.signals with half := c.signals.half.resolve .done }
          stage := .working .acknowledge (some later) } [(.flush, .ok)] (w.answered (.ok ()))
  | flushFailed {wake : Option Nat} {batch : Batch} {n : Nat} (reason : String) :
      c.stage = .working .flush wake → w.onTheWay = some (batch, n) →
      Uploads c w { c with
          destination := .backend w.abandon
          signals := c.signals.fail (.transmission c.name reason)
          stage := .stopped } [(.flush, .failed reason)] (some ⟨batch, .error reason⟩)
  | again {wake : Option Nat} (later : Nat) : c.stage = .working .acknowledge wake →
      Uploads c w { c with stage := .working .acknowledge (some later) } [] none
  | acknowledged {wake : Option Nat} : c.stage = .working .acknowledge wake →
      Uploads c w { c with
          signals := { c.signals with done := c.signals.done.resolve .done }
          stage := .stopped } [(.acknowledge, .ok)] none
  | acknowledgeFailed {wake : Option Nat} (reason : String) : c.stage = .working .acknowledge wake →
      Uploads c w { c with
          signals := c.signals.fail (.transmission c.name reason)
          stage := .stopped } [(.acknowledge, .failed reason)] none

variable {c d : Channel} {w : BackendWriter} {outside outside' : Outside} {now : Nat}
  {errors : List SinkError}

theorem publish?_of_ready (hs : c.stage = .ready) (outside : Outside) :
    c.publish? outside = none := by
  simp only [publish?, hs]

theorem publish?_of_acknowledge {wake : Option Nat} (hs : c.stage = .working .acknowledge wake)
    (outside : Outside) : c.publish? outside = none := by
  simp only [publish?, hs]

theorem publish?_of_delivery {work : Work} {wake : Option Nat} (hw : c.destination = .backend w)
    (hs : c.stage = .working work wake) (hwork : work ≠ .acknowledge) (outside : Outside) :
    c.publish? outside = w.publish? outside.service outside.web := by
  cases work with
  | write e => simp only [publish?, hs, hw]
  | flush => simp only [publish?, hs, hw]
  | acknowledge => exact absurd rfl hwork

/-- Nothing is published when work is begun, and a service at hand accepts nothing by it. -/
theorem accepted_begin {d : Destination} {time : Option Nat} (work : Work)
    (h : (Destination.backend w).begin outside work = (d, outside', time)) :
    outside'.service.accepted = outside.service.accepted := by
  have started (v : BackendWriter) (last : Bool) :
      (v.startDelivery outside.service last).2.1.accepted = outside.service.accepted := by
    obtain ⟨n, service, time, haccepted, hstart⟩ := v.exists_startDelivery outside.service last
    rw [hstart]
    exact haccepted
  cases work with
  | write e =>
    simp only [Destination.begin, BackendWriter.startWrite] at h
    split at h
    · cases h
      exact started _ _
    · cases h
      rfl
  | flush =>
    cases h
    exact started _ _
  | acknowledge =>
    cases h
    rfl

/-- Giving a backend up changes nothing outside. -/
theorem stop_outside (hw : c.destination = .backend w) (outside : Outside) (signals : Signals) :
    (c.stop outside signals).2 = outside := by
  simp only [stop, hw, Destination.release]

/-- The worker begins something, or leaves something out. -/
theorem uploads_of_ready (hw : c.destination = .backend w) (hs : c.stage = .ready)
    (h : c.step? outside now = some (d, outside', errors)) :
    c.Uploads w d [] none ∧ outside'.service.accepted = outside.service.accepted := by
  simp only [step?, hs] at h
  split at h
  · next hq hf =>
    cases h
    exact ⟨.leftOut hs hq hf, rfl⟩
  · next e queue hq hf =>
    simp only [begin, hw] at h
    generalize hbegin : (Destination.backend w).begin outside (.write e) = begun at h
    obtain ⟨destination, outside₁, time⟩ := begun
    cases h
    refine ⟨?_, accepted_begin _ hbegin⟩
    -- The event completes the batch, and this is handed over, or there is still room in it.
    simp only [Destination.begin, BackendWriter.startWrite] at hbegin
    split at hbegin
    · next hle =>
      obtain ⟨n, service, time, -, hstart⟩ :=
        (w.gathering e).exists_startDelivery outside.service false
      rw [BackendWriter.gathering] at hstart
      simp only [hstart] at hbegin
      cases hbegin
      exact .fills n (now + time) hs hq hf (by simpa using hle)
    · next hlt =>
      cases hbegin
      exact .gathers (now + 0) hs hq hf (by simpa using hlt)
  · next hq =>
    split at h
    · next hc =>
      split at h
      · next hf =>
        cases h
        exact ⟨.gaveUp hs hc hf, by rw [stopFailed, stop_outside hw]⟩
      -- The last batch is handed over with whatever is left.
      · next hf =>
        simp only [begin, hw] at h
        generalize hbegin : (Destination.backend w).begin outside .flush = begun at h
        obtain ⟨destination, outside₁, time⟩ := begun
        cases h
        refine ⟨?_, accepted_begin _ hbegin⟩
        obtain ⟨n, service, time, -, hstart⟩ := w.exists_startDelivery outside.service true
        simp only [Destination.begin, hstart] at hbegin
        cases hbegin
        exact .flushes n (now + time) hs hq hc hf
    · exact absurd h (by simp)

/-- A delivery ends, if there is one on the way. -/
theorem uploads_of_delivery {work : Work} {wake : Option Nat} (hw : c.destination = .backend w)
    (hs : c.stage = .working work wake) (hwork : work ≠ .acknowledge)
    (h : c.step? outside now = some (d, outside', errors)) :
    c.Uploads w d (c.ending outside now) (c.publish? outside) ∧
      outside'.service.accepted = outside.service.accepted ++
        (c.publish? outside).toList.flatMap w.connection.recorded := by
  rw [publish?_of_delivery hw hs hwork]
  have hdelivers := w.delivers_endDelivery outside.service outside.web
  simp only [step?, ending, hs, hw, Destination.finish, Destination.finishBackend] at h ⊢
  split at h
  · next hdue =>
    rw [if_pos hdue]
    generalize w.publish? outside.service outside.web = p at hdelivers ⊢
    generalize hend : w.endDelivery outside.service outside.web = result at hdelivers
    cases hdelivers with
    | accepted service' haccepted =>
      cases work with
      -- What a delivery ends is a write or the final flush, and the same answer leads to different
      -- turns.
      | write e =>
        simp only [hend, Destination.verdictOf, conclude] at h ⊢
        cases h
        exact ⟨.wrote hs, haccepted⟩
      | flush =>
        simp only [hend, Destination.verdictOf, conclude, begin, Destination.begin] at h ⊢
        cases h
        exact ⟨.flushed (now + 0) hs, haccepted⟩
      | acknowledge => exact absurd rfl hwork
    | @refused batch n reason hway =>
      have hnothing : w.connection.recorded ⟨batch, .error reason⟩ = [] := by
        unfold Connection.recorded
        cases w.connection <;> rfl
      cases work with
      | write e =>
        simp only [hend, Destination.verdictOf, conclude] at h ⊢
        cases h
        exact ⟨.writeFailed reason hs hway, by simp [hnothing]⟩
      | flush =>
        simp only [hend, Destination.verdictOf, conclude, stopFailed, stop] at h ⊢
        cases h
        exact ⟨.flushFailed reason hs hway, by simp [hnothing, Destination.release]⟩
      | acknowledge => exact absurd rfl hwork
  · exact absurd h (by simp)

/-- An answer comes in. -/
theorem uploads_of_acknowledge {wake : Option Nat} (hw : c.destination = .backend w)
    (hs : c.stage = .working .acknowledge wake)
    (h : c.step? outside now = some (d, outside', errors)) :
    c.Uploads w d (c.ending outside now) none ∧
      outside'.service.accepted = outside.service.accepted := by
  -- A question does not deliver anything, whatever the answer.
  have hasked : (w.ask outside.service outside.web).1.accepted = outside.service.accepted := by
    unfold BackendWriter.ask
    dsimp only
    split <;> rfl
  simp only [step?, ending, hs, hw, Destination.finish, Destination.finishBackend] at h ⊢
  split at h
  · next hdue =>
    rw [if_pos hdue]
    generalize (w.ask outside.service outside.web).2 = answer at h ⊢
    cases answer with
    | error reason =>
      simp only [conclude, stopFailed, stop] at h ⊢
      cases h
      exact ⟨hw ▸ .acknowledgeFailed reason hs, hasked⟩
    | ok reached =>
      cases reached with
      | true =>
        simp only [conclude, stop] at h ⊢
        cases h
        exact ⟨hw ▸ .acknowledged hs, hasked⟩
      | false =>
        simp only [conclude] at h ⊢
        cases h
        exact ⟨hw ▸ .again (now + w.pollInterval) hs, hasked⟩
  · exact absurd h (by simp)

/-- **Whatever the worker does in front of a backend**, it is one of these things, and a service at
hand has accepted by it just what was published and taken. -/
theorem uploads_step? (hw : c.destination = .backend w)
    (h : c.step? outside now = some (d, outside', errors)) :
    c.Uploads w d (c.ending outside now) (c.publish? outside) ∧
      outside'.service.accepted = outside.service.accepted ++
        (c.publish? outside).toList.flatMap w.connection.recorded := by
  cases hs : c.stage with
  | stopped =>
    simp only [step?, hs] at h
    exact absurd h (by simp)
  | ready =>
    simp only [ending, hs, publish?_of_ready hs, Option.toList_none, List.flatMap_nil, List.append_nil]
    exact uploads_of_ready hw hs h
  | working work wake =>
    cases work with
    | write e => exact uploads_of_delivery hw hs (by simp) h
    | flush => exact uploads_of_delivery hw hs (by simp) h
    | acknowledge =>
      simp only [publish?_of_acknowledge hs, Option.toList_none, List.flatMap_nil, List.append_nil]
      exact uploads_of_acknowledge hw hs h

variable {ended : List (Work × Verdict)} {p : Option Publish}

theorem Uploads.alike (h : c.Uploads w d ended p) (hw : c.destination = .backend w) :
    ∃ v, d.destination = .backend v ∧ v.Alike w := by
  cases h with
  | leftOut => exact ⟨w, hw, .refl w⟩
  | gaveUp => exact ⟨w, hw, .refl w⟩
  | gathers => exact ⟨_, rfl, rfl, rfl, rfl, rfl⟩
  | fills => exact ⟨_, rfl, rfl, rfl, rfl, rfl⟩
  | flushes => exact ⟨_, rfl, rfl, rfl, rfl, rfl⟩
  | wrote => exact ⟨_, rfl, w.alike_delivered⟩
  | writeFailed => exact ⟨_, rfl, rfl, rfl, rfl, rfl⟩
  | flushed => exact ⟨_, rfl, w.alike_delivered⟩
  | flushFailed => exact ⟨_, rfl, rfl, rfl, rfl, rfl⟩
  | again => exact ⟨w, hw, .refl w⟩
  | acknowledged => exact ⟨w, hw, .refl w⟩
  | acknowledgeFailed => exact ⟨w, hw, .refl w⟩

/-- A refusal fails the piece of work that it ends, with the reason of the backend. -/
theorem Uploads.fails (h : c.Uploads w d ended p) {batch : Batch} {reason : String}
    (hp : p = some ⟨batch, .error reason⟩) : ∃ work, (work, .failed reason) ∈ ended := by
  have taken (hanswered : w.answered (.ok ()) = some ⟨batch, .error reason⟩) : False := by
    obtain ⟨sent, -, heq⟩ := Option.map_eq_some_iff.mp hanswered
    cases heq
  cases h with
  | wrote => exact (taken hp).elim
  | flushed => exact (taken hp).elim
  | writeFailed _ =>
    cases hp
    exact ⟨_, List.mem_singleton.mpr rfl⟩
  | flushFailed _ =>
    cases hp
    exact ⟨_, List.mem_singleton.mpr rfl⟩
  | _ => cases hp

end Channel

end EventUpload
