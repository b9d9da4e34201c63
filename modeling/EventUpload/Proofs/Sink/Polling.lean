import EventUpload.Proofs.Sink.Batches

/-!
# Asking how far the backend has got

When the last batch is accepted, a channel in front of a backend has sent everything, and it begins to
ask how far the backend has got. `Channel.Survey` goes along with the acts of such a channel and notes
down the batches that were accepted and the queries that came to an end, with their instants and with
what the backend reported. A query is made a pause after the one before it was answered, and it comes to
an end in the turn in which its own answer is read.

Both notes are the backend's own words. A batch counts as accepted because the service or the web has
answered so (`arrived_survey` says that these are the batches of the `Shipping` that were published and
not refused), and a query has the number that it reported (`BackendWriter.reported`). What the worker makes
of these words, a verdict and a comparison with the last number that it has sent, is what is proved here
and not what is noted.

As long as nothing is refused and nobody cancels, a channel is sending, or asking with only undecided
answers behind it, or stopped by its last query: this is `Asking`, which the acts of callers leave as it
is, and of which a turn of the worker leads from one case to the next. How the signals resolve is read
off it in `polled`. Whether the backend ever reports a number that is high enough is not up to the
channel: without one it goes on asking, which `Polled.asks` says of every moment.
-/

set_option autoImplicit false

namespace EventUpload

open Batch

/-! ## Queries

A query is noted when it is answered, with the instant at which it was made. That is the one for which
the channel has been waiting, so it is read off the stage; the answer is read off the backend. -/

/-- How far the backend reports to have got, or why it does not say. -/
def BackendWriter.reported (w : BackendWriter) (service : Service) (web : Web) :
    Except String Nat :=
  match w.connection with
  | .service => (service.ask w.invocationId).2
  | .web client => inOneLine (client.acknowledged web w.invocationId)

theorem BackendWriter.ask_reported (w : BackendWriter) (service : Service) (web : Web) :
    (w.ask service web).2 = (w.reported service web).map fun n => decide (w.lastSent ≤ n) := by
  unfold ask reported
  cases w.connection <;> rfl

theorem BackendWriter.Alike.reported {v w : BackendWriter} (h : v.Alike w)
    (service : Service) (web : Web) : v.reported service web = w.reported service web := by
  rw [BackendWriter.reported, BackendWriter.reported, h.connection, h.invocationId]

/-- A query, with the instants at which it was made and came to an end. -/
structure Query where
  made : Nat
  ended : Nat
  answer : Except String Nat

/-- What a query makes of a sink that has sent the events up to a number. -/
def Query.outcome? (q : Query) (name : String) (number : Nat) : Option Outcome :=
  match q.answer with
  | .error reason => some (.failed (.transmission name reason))
  | .ok reached => if number ≤ reached then some .done else none

theorem Query.outcome?_eq_done (q : Query) {name : String} {number : Nat} :
    q.outcome? name number = some .done ↔ ∃ reached, q.answer = .ok reached ∧ number ≤ reached := by
  unfold outcome?
  cases q.answer with
  | error reason => simp
  | ok reached => simp

/-- The instant of the query after some others: a pause after the last one has ended, or at once when
the last batch is accepted. -/
def nextQuery? (pause : Nat) (arrived : List (Batch × Nat)) (queries : List Query) : Option Nat :=
  match queries.getLast? with
  | some q => some (q.ended + pause)
  | none => arrived.getLast?.map Prod.snd

/-- Every query was made at its instant. -/
def Timely (pause : Nat) (arrived : List (Batch × Nat)) (queries : List Query) : Prop :=
  ∀ before q after, queries = before ++ q :: after → nextQuery? pause arrived before = some q.made

theorem nextQuery?_concat (pause : Nat) (arrived : List (Batch × Nat)) (queries : List Query)
    (q : Query) : nextQuery? pause arrived (queries ++ [q]) = some (q.ended + pause) := by
  simp [nextQuery?]

theorem Timely.nil (pause : Nat) (arrived : List (Batch × Nat)) : Timely pause arrived [] :=
  fun before q after h => absurd h (by simp)

theorem Timely.concat {pause : Nat} {arrived : List (Batch × Nat)} {queries : List Query} {q : Query}
    (h : Timely pause arrived queries) (hq : nextQuery? pause arrived queries = some q.made) :
    Timely pause arrived (queries ++ [q]) := forall_cut_concat h hq

namespace Channel

/-- The query that is answered in a turn at some instant. -/
def query? (c : Channel) (outside : Outside) (now : Nat) : Option Query :=
  match c.stage, c.destination with
  | .working .acknowledge (some made), .backend w =>
    some ⟨made, now, w.reported outside.service outside.web⟩
  | _, _ => none

/-- A channel with its past, with what has become of its batches and with its queries. -/
structure Survey extends Shipping where
  /-- The batches that the backend has accepted, each with the instant. -/
  arrived : List (Batch × Nat)
  /-- The queries that were answered. -/
  queries : List Query

/-- The channel as it is by now. -/
abbrev Survey.channel (s : Survey) : Channel := s.trace.channel

/-- What is known after a turn at some instant, given the channel after it, the piece of work that came
to an end in it, the error that was met, what was published and accepted, and the query that was
answered. -/
def Survey.turn (s : Survey) (d : Channel) (ended : List (Work × Verdict)) (errors : List SinkError)
    (p : Option Publish) (taken : List Batch) (query : Option Query) (now : Nat) : Survey where
  toShipping := s.toShipping.turn ⟨d, s.trace.ended ++ ended, s.trace.errors ++ errors⟩ p taken
  arrived := s.arrived ++ (p.toList.filterMap Publish.accepted?).map (·, now)
  queries := s.queries ++ query.toList

def Survey.act (s : Survey) : Act → Survey
  | .work outside now =>
    match s.channel.step? outside now with
    | none => s
    | some (d, outside', errors) =>
      s.turn d (s.channel.ending outside now) errors (s.channel.publish? outside)
        (outside.acceptedSince outside') (s.channel.query? outside now) now
  | a => { s with toShipping := s.toShipping.act a }

/-- A new channel after the acts. -/
def survey (name : String) (destination : Destination) (acts : List Act) : Survey :=
  acts.foldl Survey.act ⟨⟨⟨.new name destination, [], []⟩, [], [], [], 0⟩, [], []⟩

theorem survey_concat (name : String) (destination : Destination) (acts : List Act) (a : Act) :
    survey name destination (acts ++ [a]) = (survey name destination acts).act a := by
  simp [survey]

theorem Survey.act_of_none {s : Survey} {outside : Outside} {now : Nat}
    (h : s.channel.step? outside now = none) : s.act (.work outside now) = s := by
  simp only [Survey.act, h]

theorem Survey.act_of_some {s : Survey} {d : Channel} {outside outside' : Outside} {now : Nat}
    {errors : List SinkError} (h : s.channel.step? outside now = some (d, outside', errors)) :
    s.act (.work outside now) =
      s.turn d (s.channel.ending outside now) errors (s.channel.publish? outside)
        (outside.acceptedSince outside') (s.channel.query? outside now) now := by
  simp only [Survey.act, h]

theorem Survey.toShipping_act (s : Survey) (a : Act) :
    (s.act a).toShipping = s.toShipping.act a := by
  cases a with
  | work outside now =>
    cases hstep : s.channel.step? outside now with
    | none => simp only [act_of_none hstep, Shipping.act, hstep]
    | some out =>
      obtain ⟨d, outside', errors⟩ := out
      rw [act_of_some hstep]
      simp only [Survey.turn, Shipping.act, hstep, Trace.act_work_of_some hstep]
  | accept e => rfl
  | close => rfl
  | cancel outside => rfl

theorem toShipping_survey (name : String) (destination : Destination) (acts : List Act) :
    (survey name destination acts).toShipping = shipping name destination acts := by
  induction acts using List.reverseRecOn with
  | nil => rfl
  | append_singleton acts a ih => rw [survey_concat, shipping_concat, Survey.toShipping_act, ih]

/-- **What counts as accepted** is what the backend was given and has answered to with success. -/
theorem arrived_survey (name : String) (destination : Destination) (acts : List Act) :
    (survey name destination acts).arrived.map Prod.fst =
      (survey name destination acts).published.filterMap Publish.accepted? := by
  induction acts using List.reverseRecOn with
  | nil => rfl
  | append_singleton acts a ih =>
    rw [survey_concat]
    cases a with
    | work outside now =>
      cases hstep : (survey name destination acts).channel.step? outside now with
      | none => rwa [Survey.act_of_none hstep]
      | some out =>
        rw [Survey.act_of_some hstep]
        simp only [Survey.turn, Shipping.turn, List.map_append, List.filterMap_append, ih, List.map_map,
          Function.comp_def, List.map_id']
    | accept e => exact ih
    | close => exact ih
    | cancel outside => exact ih

/-! ## Turns with an answer

Only the turn in which a query is answered needs the number of the last event. All other turns are those
of `Uploads`, and change nothing that a query has said. -/

variable {b : Nat} {sent : List Batch} {refused : List Batch} {w origin : BackendWriter}
  {c d : Channel} {accepted : List Event} {course : Course} {outside outside' : Outside} {now : Nat}
  {errors : List SinkError} {ended : List (Work × Verdict)}

/-- A channel after a query. -/
def answered (c : Channel) (pause now : Nat) : Option Outcome → Channel
  | none => { c with stage := .working .acknowledge (some (now + pause)) }
  | some o => { c with stage := .stopped, signals := ⟨some .done, some o⟩ }

theorem destination_answered (c : Channel) (pause now : Nat) (o : Option Outcome) :
    (c.answered pause now o).destination = c.destination := by
  cases o <;> rfl

/-- **A query** decides about the channel, or is made again after a pause. -/
theorem step?_of_acknowledge {wake : Nat} (hw : c.destination = .backend w)
    (hs : c.stage = .working .acknowledge (some wake)) (hsignals : c.signals = ⟨some .done, none⟩)
    (hdue : wake ≤ now) (outside : Outside) :
    ∃ outside' errors, c.step? outside now = some (c.answered w.pollInterval now
      (Query.outcome? ⟨wake, now, w.reported outside.service outside.web⟩ c.name w.lastSent),
      outside', errors) := by
  simp only [step?, hs, isDue, Option.any_some, hdue, decide_true, if_true, hw, Destination.finish,
    Destination.finishBackend, w.ask_reported, Query.outcome?]
  cases w.reported outside.service outside.web with
  | error reason =>
    simp only [Except.map, conclude, stopFailed, stop, hsignals, Signals.fail, answered, hw]
    exact ⟨_, _, rfl⟩
  | ok reached =>
    by_cases hle : w.lastSent ≤ reached
    · simp only [Except.map, hle, decide_true, if_true, conclude, stop, hsignals, answered, hw]
      exact ⟨_, _, rfl⟩
    · simp only [Except.map, hle, decide_false, if_false, conclude, answered, hw]
      exact ⟨_, _, rfl⟩

theorem step?_of_early {wake : Nat} {work : Work} (hs : c.stage = .working work (some wake))
    (hearly : ¬wake ≤ now) : c.step? outside now = none := by
  simp [step?, hs, isDue, hearly]

/-- The first query is made when the last delivery has come to its end. -/
theorem wake_of_flush {wake : Option Nat} {later : Nat} (hw : c.destination = .backend w)
    (hs : c.stage = .working .flush wake) (h : c.step? outside now = some (d, outside', errors))
    (hlater : d.stage = .working .acknowledge (some later)) : later = now := by
  simp only [step?, hs, hw, Destination.finish, Destination.finishBackend] at h
  split at h
  · cases hresult : (w.endDelivery outside.service outside.web).2.2 with
    | error reason =>
      simp only [hresult, Destination.verdictOf, conclude, stopFailed, stop] at h
      cases h
      cases hlater
    | ok u =>
      simp only [hresult, Destination.verdictOf, conclude, begin, Destination.begin,
        Option.map_some] at h
      cases h
      cases hlater
      rfl
  · exact absurd h (by simp)

/-! ## What is accepted

Acceptance is noted from what was published. The worker goes on after a success and gives up after a
refusal, but that is not how it is known here. -/

/-- Where nothing is refused, everything that is published is accepted. -/
theorem accepted_of_unrefused {published : List Publish}
    (h : published.filterMap Publish.refused? = []) :
    published.filterMap Publish.accepted? = published.map Publish.batch := by
  rw [← List.filterMap_eq_map]
  refine List.filterMap_congr fun p hp => ?_
  have hnot := List.filterMap_eq_nil_iff.mp h p hp
  obtain ⟨batch, answer⟩ := p
  cases answer with
  | ok u => rfl
  | error reason => cases hnot

/-! ## How far the queries have got

The three cases follow each other and none comes back. The number that is waited for does not change
once there are queries, as nothing is handed over after the last batch. -/

/-- How far the queries of a channel have got that has neither refused anything nor been cancelled. -/
inductive Asking (pause : Nat) (s : Survey) : Prop where
  | sending : s.channel.signals = .unresolved → s.queries = [] → Asking pause s
  /-- No query has decided anything. -/
  | asking {w : BackendWriter} {wake : Nat} : s.channel.stage = .working .acknowledge (some wake) →
      s.channel.destination = .backend w → w.lastSent = lastNumber (contents s.sent) →
      nextQuery? pause s.arrived s.queries = some wake → Timely pause s.arrived s.queries →
      (∀ q ∈ s.queries, q.outcome? s.channel.name (lastNumber (contents s.sent)) = none) →
      Asking pause s
  /-- The last query has decided. -/
  | answered {before : List Query} {q : Query} {o : Outcome} : s.channel.stage = .stopped →
      s.channel.destination.onTheWay? = none → s.channel.signals = ⟨some .done, some o⟩ →
      s.queries = before ++ [q] → Timely pause s.arrived s.queries →
      q.outcome? s.channel.name (lastNumber (contents s.sent)) = some o →
      (∀ q ∈ before, q.outcome? s.channel.name (lastNumber (contents s.sent)) = none) →
      Asking pause s

variable {s t : Survey} {pause : Nat}

/-- What callers do does not change how far the queries have got. -/
theorem Asking.of_eq (h : Asking pause s) (hqueries : t.queries = s.queries)
    (harrived : t.arrived = s.arrived) (hsent : t.sent = s.sent)
    (hstage : t.channel.stage = s.channel.stage) (hname : t.channel.name = s.channel.name)
    (hsignals : t.channel.signals = s.channel.signals)
    (hdestination : t.channel.destination = s.channel.destination) : Asking pause t := by
  cases h with
  | sending hnone hq => exact .sending (hsignals.trans hnone) (hqueries.trans hq)
  | asking hs hw hlast hnext htimely hopen =>
    rw [← hsent] at hlast hopen
    rw [← harrived, ← hqueries] at hnext htimely
    rw [← hqueries, ← hname] at hopen
    exact .asking (hstage.trans hs) (hdestination.trans hw) hlast hnext htimely hopen
  | answered hs hway hsig hq htimely hdecides hopen =>
    rw [← hsent, ← hname] at hdecides hopen
    rw [← harrived, ← hqueries] at htimely
    exact .answered (hstage.trans hs) (hdestination ▸ hway) (hsignals.trans hsig)
      (hqueries.trans hq) htimely hdecides hopen

theorem query?_of_ne (h : ∀ wake, c.stage ≠ .working .acknowledge wake) :
    c.query? outside now = none := by
  unfold query?
  split
  · next made _ hs _ => exact absurd hs (h _)
  · rfl

theorem query?_of_acknowledge {wake : Nat} (hw : c.destination = .backend w)
    (hs : c.stage = .working .acknowledge (some wake)) :
    c.query? outside now = some ⟨wake, now, w.reported outside.service outside.web⟩ := by
  simp only [query?, hs, hw]

theorem Survey.sent_turn {p : Option Publish} {taken : List Batch} {query : Option Query}
    (h : handed s.channel d = none) :
    (s.turn d ended errors p taken query now).sent = s.sent := by
  simp only [Survey.turn, Shipping.turn, h, Option.toList_none, List.append_nil]

theorem Survey.arrived_turn {taken : List Batch} {query : Option Query} :
    (s.turn d ended errors none taken query now).arrived = s.arrived := by
  simp only [Survey.turn, Option.toList_none, List.filterMap_nil, List.map_nil, List.append_nil]

/-- A channel asks only after it has sent everything. -/
theorem Stands.stage_ne_acknowledge (h : Stands accepted c course) (hsignals : c.signals = .unresolved)
    (wake : Option Nat) : c.stage ≠ .working .acknowledge wake := by
  intro hs
  have hsent := (h.of_acknowledge hs).2.2.1
  rw [hsignals] at hsent
  cases hsent

/-- **A turn** of a channel that has not sent everything: it goes on with that, or begins to ask. -/
theorem Asking.turn_sending (hsignals : s.channel.signals = .unresolved) (hq : s.queries = [])
    (hpacking : Packing b s.sent [] s.channel w) (hstands : Stands accepted s.channel course)
    {p : Option Publish} {taken : List Batch}
    (hu : s.channel.Uploads w d ended p) (hrefusal : p.toList.filterMap Publish.refused? = [])
    (hwake : ∀ wake later, s.channel.stage = .working .flush wake →
      d.stage = .working .acknowledge (some later) → later = now) :
    Asking pause (s.turn d ended errors p taken none now) := by
  have hqueries : (s.turn d ended errors p taken none now).queries = [] := by simp [Survey.turn, hq]
  cases hu with
  | leftOut => exact .sending hsignals hqueries
  | gaveUp hs _ hf =>
    exact absurd rfl (hpacking.refused_of_failure hs hf)
  | gathers => exact .sending hsignals hqueries
  | fills => exact .sending hsignals hqueries
  | flushes => exact .sending hsignals hqueries
  | wrote => exact .sending hsignals hqueries
  | writeFailed => exact .sending hsignals hqueries
  | flushed later hs =>
    obtain rfl := hwake _ later hs rfl
    obtain ⟨-, hdelivering, -⟩ := hpacking.of_flush hs
    obtain ⟨hidle, hlast, -⟩ := hdelivering.delivered
    obtain ⟨_, batch, n, -, hway, -⟩ := hdelivering.batch
    refine .asking rfl rfl ?_ ?_ (hqueries ▸ .nil _ _) (by simp [hqueries])
    · rw [Survey.sent_turn (handed_of_idle rfl hidle)]
      exact hlast
    · rw [hqueries]
      simp [nextQuery?, Survey.turn, BackendWriter.answered, hway, Publish.accepted?]
  | flushFailed reason hs hway => cases hrefusal
  | again later hs => exact absurd hs (hstands.stage_ne_acknowledge hsignals _)
  | acknowledged hs => exact absurd hs (hstands.stage_ne_acknowledge hsignals _)
  | acknowledgeFailed reason hs => exact absurd hs (hstands.stage_ne_acknowledge hsignals _)

/-- **A turn** of a channel that asks: the query before which nothing was decided is answered. -/
theorem Asking.turn_asking {wake : Nat} (hs : s.channel.stage = .working .acknowledge (some wake))
    (hw : s.channel.destination = .backend w) (hidle : w.onTheWay = none)
    (hlast : w.lastSent = lastNumber (contents s.sent))
    (hnext : nextQuery? w.pollInterval s.arrived s.queries = some wake)
    (htimely : Timely w.pollInterval s.arrived s.queries)
    (hopen : ∀ q ∈ s.queries, q.outcome? s.channel.name (lastNumber (contents s.sent)) = none)
    (hsignals : s.channel.signals = ⟨some .done, none⟩)
    (hstep : s.channel.step? outside now = some (d, outside', errors)) :
    Asking w.pollInterval (s.act (.work outside now)) := by
  -- A turn before the question is due would have found nothing to do.
  have hdue : wake ≤ now := by
    by_contra hearly
    rw [step?_of_early hs hearly] at hstep
    cases hstep
  obtain ⟨outside₁, errors₁, heq⟩ := step?_of_acknowledge hw hs hsignals hdue outside
  rw [Survey.act_of_some heq, query?_of_acknowledge hw hs, publish?_of_acknowledge hs]
  -- The question that is asked now is the one that was due next.
  generalize hq : (⟨wake, now, w.reported outside.service outside.web⟩ : Query) = q
  have hmade : nextQuery? w.pollInterval s.arrived s.queries = some q.made := hq ▸ hnext
  have hended : q.ended = now := by rw [← hq]
  generalize s.channel.ending outside now = ended
  have hway : s.channel.destination.onTheWay? = none := by
    rw [hw, Destination.onTheWay?, hidle, Option.map_none]
  have hhanded (o : Option Outcome) :
      handed s.channel (s.channel.answered w.pollInterval now o) = none :=
    handed_of_eq (destination_answered _ _ _ _)
  rw [hlast]
  -- Either it leaves the matter open, and the next one is due after the pause, or the answer ends the
  -- work and is the first to do so.
  cases hdecides : q.outcome? s.channel.name (lastNumber (contents s.sent)) with
  | none =>
    refine .asking rfl hw ?_ ?_ ?_ ?_
    · rwa [Survey.sent_turn (hhanded _)]
    · rw [Survey.arrived_turn, Survey.turn, Option.toList_some, nextQuery?_concat, hended]
    · rw [Survey.arrived_turn]
      exact htimely.concat hmade
    · rw [Survey.sent_turn (hhanded _)]
      intro p hp
      rcases List.mem_append.mp hp with hp | hp
      · exact hopen p hp
      · rwa [List.mem_singleton.mp hp]
  | some o =>
    refine .answered rfl hway rfl rfl ?_ ?_ ?_
    · rw [Survey.arrived_turn]
      exact htimely.concat hmade
    · rwa [Survey.sent_turn (hhanded _)]
    · rwa [Survey.sent_turn (hhanded _)]

/-! ## Every interleaving

A refusal is part of the past as soon as it happens (`Survey.refused_of_act`), so an interleaving
without one has none in any of its beginnings, and the induction may assume it. -/

/-- A turn of the worker either leaves the questions alone or asks the one that is due, unless a batch
has been refused. -/
theorem Asking.work (h : Asking origin.pollInterval s)
    (hpacked : Packed origin accepted s.toShipping) (hstands : Stands accepted s.channel course)
    (hrefused : (s.act (.work outside now)).refused = []) :
    Asking origin.pollInterval (s.act (.work outside now)) := by
  cases hstep : s.channel.step? outside now with
  | none =>
    rw [Survey.act_of_none hstep]
    exact h
  | some out =>
    obtain ⟨d, outside', errors⟩ := out
    obtain ⟨w, hw, hlike, hpacking⟩ := hpacked.packing
    have hact := Survey.act_of_some hstep
    rw [hact] at hrefused
    obtain ⟨hbefore, hrefusal⟩ := List.append_eq_nil_iff.mp (Shipping.refused_turn .. ▸ hrefused)
    rw [← hlike.pollInterval] at h ⊢
    cases h with
    | sending hsignals hq =>
      rw [hact, query?_of_ne (hstands.stage_ne_acknowledge hsignals)]
      exact .turn_sending hsignals hq (hbefore ▸ hpacking) hstands (uploads_step? hw hstep).1 hrefusal
        fun wake later hs hlater => wake_of_flush hw hs hstep hlater
    | asking hs hw' hlast hnext htimely hopen =>
      cases hw.symm.trans hw'
      exact .turn_asking hs hw (hpacking.of_acknowledge hs).2.1 hlast hnext htimely hopen
        (hstands.of_acknowledge hs).2.2.1 hstep
    | answered hs => simp [step?, hs] at hstep

/-- Nothing that is refused is taken back. -/
theorem Survey.refused_of_act {a : Act} (h : (s.act a).refused = []) : s.refused = [] := by
  cases a with
  | work outside now =>
    cases hstep : s.channel.step? outside now with
    | none => rwa [act_of_none hstep] at h
    | some out =>
      rw [act_of_some hstep] at h
      exact (List.append_eq_nil_iff.mp (Shipping.refused_turn .. ▸ h)).1
  | accept e => exact h
  | close => exact h
  | cancel outside => exact h

theorem asking_survey (name : String) (connection : Connection) (options : BackendOptions)
    (requestId invocationId : String) (acts : List Act)
    (hopen : ∀ outside, .cancel outside ∉ acts) :
    let origin := BackendWriter.new connection options requestId invocationId
    (survey name (.backend origin) acts).refused = [] →
      Asking origin.pollInterval (survey name (.backend origin) acts) := by
  intro origin
  -- An event that is accepted and closing change nothing that is looked at here; only a turn does.
  induction acts using List.reverseRecOn with
  | nil => exact fun _ => .sending rfl rfl
  | append_singleton acts a ih =>
    intro hrefused
    rw [survey_concat] at hrefused ⊢
    have hbefore := ih (fun outside hmem => hopen outside (List.mem_append_left _ hmem))
      (Survey.refused_of_act hrefused)
    cases a with
    | accept e =>
      have hkeep (c : Channel) : (c.accept e).stage = c.stage ∧ (c.accept e).signals = c.signals ∧
          (c.accept e).destination = c.destination := by
        unfold Channel.accept
        split <;> exact ⟨rfl, rfl, rfl⟩
      obtain ⟨hstage, hsignals, hdestination⟩ := hkeep (survey name (.backend origin) acts).channel
      exact hbefore.of_eq rfl rfl rfl hstage (accept_keeps _ e).1 hsignals hdestination
    | close => exact hbefore.of_eq rfl rfl rfl rfl rfl rfl rfl
    | cancel outside => exact absurd (by simp) (hopen outside)
    | work outside now =>
      have hpacked := packed name connection options requestId invocationId acts
      have hcoherent := coherent name (.backend origin) acts
      rw [← trace_shipping] at hcoherent
      obtain ⟨course, -, -, hstands⟩ := hcoherent.course
      rw [← toShipping_survey] at hpacked hstands
      exact hbefore.work hpacked hstands hrefused

/-! ## The theorem

`Polled` says of every moment how the two signals stand, and of every query when it was made. That the
sending comes to an end is a bound on turns; that the asking does is not said, as it is up to the
backend. -/

/-- How a channel in front of a backend ends that refuses nothing, after an interleaving in which
nobody cancels. A query decides if it fails or if the backend reports the number of the last event. -/
structure Polled (origin : BackendWriter) (name : String) (acts : List Act) (s : Survey) : Prop where
  /-- Everything counts as sent once the last batch is accepted. -/
  half : s.channel.signals.half = if s.arrived.any (·.1.last) then some .done else none
  /-- By then every event is accepted, and no batch comes after the last one. -/
  all : s.channel.signals.half = some .done → contents (s.arrived.map Prod.fst) = admitted acts ∧
    ∃ before final instant, s.arrived = before ++ [(final, instant)] ∧ final.last = true
  /-- The channel is done with what the first query says that decides. -/
  done : s.channel.signals.done = s.queries.findSome? (·.outcome? name (admitted acts).length)
  /-- That is the last query. -/
  last : ∀ before q after, s.queries = before ++ q :: after →
    (q.outcome? name (admitted acts).length).isSome = true → after = []
  /-- The first query is made when the last batch is accepted, and every other one a pause after the
  one before it has ended. -/
  made : Timely origin.pollInterval s.arrived s.queries
  /-- As long as nothing is decided, there is another query at its instant, and none before. -/
  asks : s.channel.signals = ⟨some .done, none⟩ →
    ∃ instant, nextQuery? origin.pollInterval s.arrived s.queries = some instant ∧
      ∀ outside now, (s.act (.work outside now)).queries = if instant ≤ now then
        s.queries ++ [⟨instant, now, origin.reported outside.service outside.web⟩] else s.queries
  /-- Success means that the backend has reported the number of the last event. -/
  never_early : s.channel.signals.done = some .done →
    ∃ q ∈ s.queries, ∃ reached, q.answer = .ok reached ∧ (admitted acts).length ≤ reached
  /-- Cancelling ends the questions. -/
  cancelled : ∀ outside, (s.act (.cancel outside)).channel.signals = s.channel.signals.cancel name
  /-- A closed channel that has not sent everything has something to do, now or at some instant. -/
  goes : .close ∈ acts → s.channel.signals.half = none →
    ∃ wake, ∀ outside now, wake ≤ now → (s.channel.step? outside now).isSome = true
  /-- And it has not that many turns left. -/
  sends : 2 * (admitted acts).length + 2 ≤ s.turns → s.channel.signals.half = some .done

/-- In a stream that is numbered from one, the last number is the number of events. -/
theorem lastNumber_eq_length {events : List Event}
    (hstream : events.map (·.sequence) = List.range' 1 events.length) :
    lastNumber events = events.length := by
  rw [lastNumber]
  cases hlast : events.getLast? with
  | none =>
    rw [List.getLast?_eq_none_iff.mp hlast]
    rfl
  | some e =>
    have hpos : 0 < events.length := List.length_pos_iff.mpr fun hnil => by simp [hnil] at hlast
    have hi : events[events.length - 1]? = some e := by rw [← List.getLast?_eq_getElem?, hlast]
    rw [Option.map_some, Option.getD_some, sequence_of_getElem? (List.prefix_refl _) hstream hi]
    omega

/-- Until everything is sent, the last batch is not accepted. -/
theorem Packing.unfinished (h : Packing b sent [] c w) (hstands : Stands accepted c course)
    (hw : c.destination = .backend w) (hhalf : c.signals.half = none) {arrived : List Batch}
    (harrived : sent = arrived ++ c.destination.onTheWay?.toList) :
    ∀ batch ∈ arrived, batch.last = false := by
  have of_full (hfull : Full b sent) : ∀ batch ∈ arrived, batch.last = false := fun batch hbatch =>
    (hfull batch (harrived ▸ List.mem_append_left _ hbatch)).1
  cases h with
  | ready _ _ _ hgathering => exact of_full hgathering.full
  | writing _ _ _ h =>
    rcases h with hgathering | ⟨-, hfull⟩
    · exact of_full hgathering.full
    · exact of_full hfull
  | flushing _ _ hdelivering hcomplete =>
    obtain ⟨-, batch, n, -, hway, -⟩ := hdelivering.batch
    obtain ⟨full, final, hsent, hfull, -⟩ := hcomplete.batches
    rw [hw, Destination.onTheWay?, hway, Option.map_some, Option.toList_some, hsent] at harrived
    obtain ⟨rfl, -⟩ := List.append_inj' harrived rfl
    exact fun other hother => (hfull other hother).1
  | flushed hs => simp [(hstands.of_acknowledge hs).2.2.1] at hhalf
  | failed _ _ hrefused => exact absurd rfl hrefused
  | stopped hs => exact absurd hhalf (hstands.half_ne_none hs)

/-- When everything is sent, the last batch was the last one that was accepted. -/
theorem arrived_of_complete {arrived : List (Batch × Nat)} (h : Complete b (arrived.map Prod.fst)) :
    ∃ before final instant, arrived = before ++ [(final, instant)] ∧ final.last = true := by
  obtain ⟨full, final, hsent, -, hlast, -⟩ := h.batches
  obtain ⟨before, rest, rfl, -, hrest⟩ := List.map_eq_append_iff.mp hsent
  obtain ⟨⟨batch, instant⟩, rfl, rfl⟩ := List.map_eq_singleton_iff.mp hrest
  exact ⟨before, batch, instant, rfl, hlast⟩

variable {n : Nat}

theorem Asking.done (h : Asking pause s) (hstands : Stands accepted s.channel course)
    (hn : s.channel.signals.half = some .done → lastNumber (contents s.sent) = n) :
    s.channel.signals.done = s.queries.findSome? (·.outcome? s.channel.name n) := by
  cases h with
  | sending hsignals hq =>
    rw [hsignals, hq]
    rfl
  | asking hs _ _ _ _ hopen =>
    have hsignals := (hstands.of_acknowledge hs).2.2.1
    rw [hn (by rw [hsignals])] at hopen
    rw [hsignals, List.findSome?_eq_none_iff.mpr hopen]
  | answered _ _ hsignals hq _ hdecides hopen =>
    rw [hn (by rw [hsignals])] at hdecides hopen
    rw [hsignals, hq, List.findSome?_append, List.findSome?_eq_none_iff.mpr hopen,
      List.findSome?_singleton, hdecides, Option.none_or]

/-- After a query that decides there is no other. -/
theorem Asking.last (h : Asking pause s) (hstands : Stands accepted s.channel course)
    (hn : s.channel.signals.half = some .done → lastNumber (contents s.sent) = n)
    {before after : List Query} {q : Query} (hqueries : s.queries = before ++ q :: after)
    (hq : (q.outcome? s.channel.name n).isSome = true) : after = [] := by
  have hmem : q ∈ s.queries := hqueries ▸ by simp
  cases h with
  | sending _ hnone => simp [hnone] at hmem
  | asking hs _ _ _ _ hopen =>
    rw [hn (by rw [(hstands.of_acknowledge hs).2.2.1])] at hopen
    simp [hopen q hmem] at hq
  | answered _ _ hsignals hlast _ _ hopen =>
    rw [hn (by rw [hsignals])] at hopen
    rcases concat_eq_append_cons (hlast.symm.trans hqueries) with ⟨-, -, hnil⟩ | ⟨rest, -, rfl⟩
    · exact hnil
    · simp [hopen q (by simp)] at hq

theorem Asking.timely (h : Asking pause s) : Timely pause s.arrived s.queries := by
  cases h with
  | sending _ hq => exact hq ▸ .nil _ _
  | asking _ _ _ _ htimely _ => exact htimely
  | answered _ _ _ _ htimely _ _ => exact htimely

/-- A channel that waits for an answer makes the next query at its instant. -/
theorem Asking.asks (h : Asking origin.pollInterval s) (hw : s.channel.destination = .backend w)
    (hlike : w.Alike origin) (hsignals : s.channel.signals = ⟨some .done, none⟩) :
    ∃ instant, nextQuery? origin.pollInterval s.arrived s.queries = some instant ∧
      ∀ outside now, (s.act (.work outside now)).queries = if instant ≤ now then
        s.queries ++ [⟨instant, now, origin.reported outside.service outside.web⟩]
        else s.queries := by
  cases h with
  | sending hnone => cases hnone.symm.trans hsignals
  | answered _ _ hsome => cases hsome.symm.trans hsignals
  | @asking _ wake hs _ _ hnext _ _ =>
    refine ⟨wake, hnext, fun outside now => ?_⟩
    split
    · next hdue =>
      obtain ⟨outside', errors, hstep⟩ :=
        step?_of_acknowledge hw hs hsignals hdue outside
      rw [Survey.act_of_some hstep, query?_of_acknowledge hw hs, hlike.reported]
      rfl
    · next hearly => rw [Survey.act_of_none (step?_of_early hs hearly)]

/-- Where nothing is refused, what was handed over is accepted or on its way. -/
theorem Packed.sent_eq (h : Packed origin accepted s.toShipping)
    (harrived : s.arrived.map Prod.fst = s.published.filterMap Publish.accepted?)
    (hrefused : s.refused = []) :
    s.sent = s.arrived.map Prod.fst ++ s.channel.destination.onTheWay?.toList := by
  rw [harrived, accepted_of_unrefused hrefused]
  exact h.published

theorem Asking.half_cases (h : Asking pause s) (hstands : Stands accepted s.channel course) :
    s.channel.signals.half = none ∨ s.channel.signals.half = some .done := by
  cases h with
  | sending hnone =>
    rw [hnone]
    exact .inl rfl
  | asking hs =>
    rw [(hstands.of_acknowledge hs).2.2.1]
    exact .inr rfl
  | answered _ _ hsignals =>
    rw [hsignals]
    exact .inr rfl

/-- **A sink succeeds once the backend has reported the number of its last event**, and not before,
however often it has to be asked; a query that fails ends the sink with that failure. -/
theorem polled (name : String) (connection : Connection) (options : BackendOptions)
    (requestId invocationId : String) (acts : List Act)
    (hopen : ∀ outside, .cancel outside ∉ acts)
    (hrefused : (survey name (.backend (.new connection options requestId invocationId)) acts).refused
      = [])
    (hstream : (admitted acts).map (·.sequence) = List.range' 1 (admitted acts).length) :
    Polled (.new connection options requestId invocationId) name acts
      (survey name (.backend (.new connection options requestId invocationId)) acts) := by
  have hasking := asking_survey name connection options requestId invocationId acts hopen hrefused
  have harrived := arrived_survey name (.backend (.new connection options requestId invocationId)) acts
  have hpacked := packed name connection options requestId invocationId acts
  have hcoherent := coherent name (.backend (.new connection options requestId invocationId)) acts
  rw [← trace_shipping, ← toShipping_survey] at hcoherent
  rw [← toShipping_survey] at hpacked
  generalize BackendWriter.new connection options requestId invocationId = origin at *
  generalize survey name (.backend origin) acts = s at *
  obtain ⟨course, -, -, hstands⟩ := hcoherent.course
  obtain ⟨w, hw, hlike, hpacking⟩ := hpacked.packing
  have hsent := hpacked.sent_eq harrived hrefused
  rw [hrefused] at hpacking
  -- When everything is sent nothing is on its way any more.
  have hall (hhalf : s.channel.signals.half = some .done) :
      Complete origin.batchSize s.sent ∧ contents s.sent = admitted acts ∧
        s.sent = s.arrived.map Prod.fst := by
    obtain ⟨-, hidle, hcomplete, hevents⟩ := hpacking.of_half hstands hhalf
    refine ⟨hcomplete, hevents.trans (hstands.accepted_of_half hhalf).symm, ?_⟩
    rw [hsent, hw, Destination.onTheWay?, hidle, Option.map_none, Option.toList_none, List.append_nil]
  have hnumber (hhalf : s.channel.signals.half = some .done) :
      lastNumber (contents s.sent) = (admitted acts).length := by
    rw [(hall hhalf).2.1, lastNumber_eq_length hstream]
  have hname : s.channel.name = name := hcoherent.name
  have hdone := hasking.done hstands hnumber
  rw [hname] at hdone
  refine ⟨?_, fun hhalf => ?_, hdone, fun before q after hqueries hq => ?_, hasking.timely,
    hasking.asks hw hlike, fun hsuccess => ?_, fun outside => ?_,
    fun hclose hhalf => hpacking.goes_on hstands (hcoherent.closing.mpr hclose) hhalf,
    fun hturns => ?_⟩
  -- Before the signal the batch that arrives last is none that is marked as the last one.
  · rcases hasking.half_cases hstands with hhalf | hhalf
    · have hlast := hpacking.unfinished hstands hw hhalf hsent
      rw [hhalf, if_neg]
      simpa using hlast
    · obtain ⟨hcomplete, -, heq⟩ := hall hhalf
      obtain ⟨before, final, instant, harrived, hlast⟩ := arrived_of_complete (heq ▸ hcomplete)
      rw [hhalf, harrived, if_pos (by simp [hlast])]
  · obtain ⟨hcomplete, hevents, heq⟩ := hall hhalf
    rw [heq] at hcomplete hevents
    exact ⟨hevents, arrived_of_complete hcomplete⟩
  · exact hasking.last hstands hnumber hqueries (hname ▸ hq)
  -- Only an answer with the number that was waited for, or a higher one, counts as success.
  · obtain ⟨q, hq, houtcome⟩ := List.exists_of_findSome?_eq_some (hdone.symm.trans hsuccess)
    exact ⟨q, hq, q.outcome?_eq_done.mp houtcome⟩
  · rw [Survey.channel, Survey.toShipping_act, Shipping.trace_act]
    exact (hstands.signals_cancel outside).trans (congrArg _ hname)
  -- A turn that did not end sending would be one too many.
  · rcases hasking.half_cases hstands with hhalf | hhalf
    · have hle := hpacked.turns hhalf
      have hpos := hstands.remaining_pos hhalf
      omega
    · exact hhalf

/-- A turn in front of a service that reports a number. -/
def reporting (reached now : Nat) : Act :=
  .work { Outside.fresh with service := { Service.willing with answers := [.upTo reached] } } now

/-- Three events; two queries, of which the first one is answered too early. -/
def twoQueries : List Act :=
  [1, 2, 3].map (fun n => .accept ((Event.ofPayload "progress" .null).numbered n)) ++
    .close :: List.replicate 7 (.work .fresh 0) ++ [.work .fresh 10, reporting 2 12, reporting 3 20]

def pairsEveryFive : BackendOptions :=
  { BackendOptions.at "" with batchSize := 2, pollInterval := 5 }

theorem polled_twoQueries :
    let s := survey "" (.backend (.new .service pairsEveryFive "" "")) twoQueries
    s.queries.map (fun q => (q.made, q.ended)) = [(10, 12), (17, 20)] ∧
      s.channel.signals = ⟨some .done, some .done⟩ ∧
      ∃ q ∈ s.queries, ∃ reached, q.answer = .ok reached ∧ 3 ≤ reached := by
  have hrefused :
      (survey "" (.backend (.new .service pairsEveryFive "" "")) twoQueries).refused = [] := rfl
  have hpolled := polled "" .service pairsEveryFive "" "" twoQueries
    (by simp [twoQueries, reporting]) hrefused (by decide)
  exact ⟨by decide, by decide, hpolled.never_early (by decide)⟩

end Channel

end EventUpload
