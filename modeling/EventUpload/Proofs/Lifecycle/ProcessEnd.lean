import EventUpload.Proofs.Lifecycle.Closing
import EventUpload.Proofs.Lifecycle.Reconcile
import EventUpload.Proofs.Lifecycle.Waits

/-!
# The end of the process

A crash and the end of the process differ in the phase in which they leave the lifecycle and in how long
they wait. Both close the stream of the active invocation, if there is one, with a last event that says
why; both wait for whatever is outstanding, give it up when it is over or the grace has passed, and
return. `Run.winds_up` says so of every run, whatever its sinks do and whoever else is waiting. `Ending`
stands for the two, and its small functions (`Ending.call`, `Ending.grace`, `Ending.during`,
`Ending.final`) have all that differs.

What is waited for is the invocation that was active, or else what was pending before (`lastOf`). It is
found by its place among the invocations. The sinks at that place are those of the stream that was
closed, and `Stream.Dismissed` says what they were asked for: all captured output, one event that is the
last one, to be closed, and nothing afterwards. Of a stream that was closed already they are asked for
nothing.

The instant of the reply is a number `d` with three conditions: it is within the grace, at no instant
before are the uploads over, and if it is not the whole grace they are over now. The last one
(`WindsUp.early`) needs that nobody else is waiting: another call that is cut at the same instant may
give the same uploads up, and then they are over without having ended by themselves.

A process that has crashed before takes no notice of either call (`make_ending_crashed`), which is why
the theorem asks for a phase other than that. Nothing else is asked: not that the sinks are genuine, nor
that the run was reached by calls of a host.
-/

set_option autoImplicit false

namespace EventUpload

open List (Forall₂)
open Relation (ReflTransGen)

/-! ## The two endings -/

namespace Ending

/-- The call that the host makes. -/
def call : Ending → HostCall
  | crash => .crash
  | shutdown => .shutdown

/-- How long it may wait. -/
def grace (limits : Limits) : Ending → Nat
  | crash => limits.crash
  | shutdown => limits.shutdown

/-- The phase while it waits. -/
def during (phase : Phase) : Ending → Phase
  | crash => .crashed
  | shutdown => phase

/-- The phase when it has returned. -/
def final : Ending → Phase
  | crash => .crashed
  | shutdown => .idle

/-- A phase in which it may be waiting. -/
def Fits (ending : Ending) (phase : Phase) : Prop := ending = .crash ↔ phase = .crashed

theorem fits_during (ending : Ending) {phase : Phase} (h : phase ≠ .crashed) :
    ending.Fits (ending.during phase) := by
  cases ending <;> simp [Fits, during, h]

theorem phaseAfter_of_fits {ending : Ending} {phase : Phase} (h : ending.Fits phase) :
    ending.phaseAfter phase = ending.final := by
  cases ending with
  | crash => simp [phaseAfter, final, h.mp rfl]
  | shutdown =>
    have hne : phase ≠ .crashed := fun hc => absurd (h.mpr hc) (by simp)
    simp [phaseAfter, final, hne]

end Ending

/-! ## The last that sinks are asked for

The stream is closed with a reason, which gives a last event if it was open and nothing if it was not.
From then on its sinks are not asked for anything. -/

theorem numberedFrom_concat (n : Nat) (es : List Event) (e : Event) :
    numberedFrom n (es ++ [e]) = numberedFrom n es ++ [e.numbered (n + es.length)] := by
  induction es generalizing n with
  | nil => rfl
  | cons a es ih =>
    rw [List.cons_append, numberedFrom, ih, numberedFrom, List.cons_append, List.length_cons,
      Nat.add_assoc, Nat.add_comm 1]

namespace Stream

variable {s t : Stream}

/-- What a stream asks of its sinks when its process ends. -/
def farewell (s : Stream) (now : Nat) : List SinkCall :=
  StreamDeed.calls s now (.close (some .internal))

theorem sinks_close (s : Stream) (now : Nat) : (s.close now (some .internal)).sinks =
    s.sinks.map (·.obeyAll (s.farewell now)) :=
  congrArg Stream.sinks (StreamDeed.apply_eq s now (.close (some .internal)))

/-- What has become of a stream whose process has ended. -/
structure Dismissed (s : Stream) (now : Nat) (t : Stream) : Prop where
  closed : t.closed = true
  reason : s.closed = false → t.abort = some .internal
  /-- Each sink was asked for this, and for nothing afterwards. -/
  sinks : Forall₂ (fun k k' => ReflTransGen Sink.Unasked ((k.obeyAll (s.farewell now)).startWatch now) k')
    s.sinks t.sinks
  /-- Sinks of a closed stream are asked for nothing. -/
  silent : s.closed = true → s.farewell now = []
  /-- Others get all captured output, then one event that is the last one, and are closed. -/
  parting : s.closed = false → ∃ output final, s.farewell now = (output ++ [final]).map .accept ++
      [.close now] ∧ output = numberedFrom s.next s.outputEvents ∧ (∀ e ∈ output, e.last = false) ∧
    final = AbortReason.internal.event.numbered (s.next + s.outputEvents.length) ∧
    final.last = true ∧ final.kind = "aborted"

theorem not_last_of_output (s : Stream) : ∀ e ∈ numberedFrom s.next s.outputEvents, e.last = false := by
  intro e he
  have hmem := List.mem_map_of_mem (f := (·.last)) he
  rw [last_numberedFrom] at hmem
  obtain ⟨f, hf, hlast⟩ := List.mem_map.mp hmem
  obtain ⟨chunk, -, rfl⟩ := List.mem_map.mp hf
  exact hlast.symm

/-- A stream is dismissed when it is closed and its sinks are asked for nothing any more. -/
theorem dismissed_of_sinks (s : Stream) (now : Nat) {sinks : List Sink}
    (h : Forall₂ (ReflTransGen Sink.Unasked)
      ((s.close now (some .internal)).sinks.map (Sink.startWatch · now)) sinks) :
    s.Dismissed now { s.close now (some .internal) with sinks := sinks } where
  closed := s.closed_close now (some .internal)
  reason := fun hopen => by
    have hclosed := congrArg Stream.abort (StreamDeed.apply_eq s now (.close (some .internal)))
    simpa [StreamDeed.apply, StreamDeed.abort, hopen] using hclosed
  sinks := by
    rw [sinks_close, List.map_map] at h
    exact List.forall₂_map_left_iff.mp h
  silent := fun hclosed => by
    rw [farewell, StreamDeed.calls, StreamDeed.events_of_closed hclosed,
      StreamDeed.closes_of_closed hclosed]
    rfl
  parting := fun hopen => by
    refine ⟨_, _, ?_, rfl, s.not_last_of_output, rfl, rfl, rfl⟩
    rw [farewell, StreamDeed.calls]
    simp [StreamDeed.events, StreamDeed.closes, hopen, numberedFrom_concat]

end Stream

namespace Lifecycle

variable {l m : Lifecycle} {i grace deadline : Nat} {v : Invocation} {ending : Ending}

/-- The lifecycle with its active invocation closed and published, before its uploads are looked at. -/
def aborted (l : Lifecycle) (ending : Ending) : Lifecycle :=
  ({ l with phase := ending.during l.phase } : Lifecycle).abortActive ending

/-- Whose uploads the process waits for in the end. -/
def lastOf (l : Lifecycle) : Option Nat := l.active <|> l.pending

theorem aborted_of_inactive (ha : l.active = none) :
    l.aborted ending = { l with phase := ending.during l.phase } :=
  Orderly.abortActive_of_none (l := { l with phase := ending.during l.phase }) ha

theorem aborted_of_active (ha : l.active = some i) : l.aborted ending =
    ({ l with phase := ending.during l.phase, active := none } : Lifecycle).closeAndPublish i .blocking
      (some ending) :=
  Orderly.abortActive_of_some (l := { l with phase := ending.during l.phase }) ha

theorem quiet_closed (l : Lifecycle) (i : Nat) (ending : Ending) :
    ({ l with phase := ending.during l.phase, active := none } : Lifecycle).Quiet
      ((({ l with phase := ending.during l.phase, active := none } : Lifecycle).noteOpen i
        (some ending)).updateStream i (·.close l.now (some .internal))) :=
  quiet_closeStream { l with phase := ending.during l.phase, active := none } i (some ending)

/-- Nobody is active then, and whoever was is the one to be waited for. -/
theorem aborted_aside (l : Lifecycle) (ending : Ending) :
    (l.aborted ending).now = l.now ∧ (l.aborted ending).limits = l.limits ∧
      (l.aborted ending).phase = ending.during l.phase ∧ (l.aborted ending).active = none ∧
      (l.aborted ending).pending = l.lastOf := by
  rcases Option.eq_none_or_eq_some l.active with ha | ⟨i, ha⟩
  · rw [aborted_of_inactive ha, lastOf, ha]
    exact ⟨rfl, rfl, rfl, rfl, rfl⟩
  · have hclosed := quiet_closed l i ending
    rw [aborted_of_active ha, lastOf, ha]
    exact ⟨hclosed.now, hclosed.limits, hclosed.phase, hclosed.active, rfl⟩

/-- The stream of the active invocation has been closed, and its sinks are watched. -/
theorem invocation?_aborted (ha : l.active = some i) (hv : l.invocation? i = some v) :
    (l.aborted ending).invocation? i = some ({ v with
      stream := v.stream.close l.now (some .internal)
      mode := .blocking }.withSinks
        ((v.stream.close l.now (some .internal)).sinks.map (Sink.startWatch · l.now))) := by
  rw [aborted_of_active ha]
  exact invocation?_closeAndPublish (l := { l with phase := ending.during l.phase, active := none })
    hv .blocking (some ending)

theorem exists_invocation_aborted (hv : l.invocation? i = some v) (ending : Ending) :
    ∃ w, (l.aborted ending).invocation? i = some w := by
  rcases Option.eq_none_or_eq_some l.active with ha | ⟨j, ha⟩
  · rw [aborted_of_inactive ha]
    exact ⟨v, hv⟩
  · obtain ⟨w, hw, -⟩ := (quiet_closed l j ending).invocation? (i := i) hv
    rw [aborted_of_active ha, closeAndPublish, invocation?_publish]
    split
    · exact ⟨_, congrArg (Option.map _) hw⟩
    · exact ⟨w, hw⟩

theorem make_ending (h : l.phase ≠ .crashed) (ending : Ending) : ending.call.make l =
    (l.aborted ending).settleWithin (ending.grace l.limits) ending := by
  obtain ⟨-, hlimits, -⟩ := aborted_aside l ending
  cases ending with
  | crash =>
    show l.crash = (l.aborted .crash).settleWithin l.limits.crash .crash
    rw [crash, if_neg h, ← congrArg Limits.crash hlimits]
    rfl
  | shutdown =>
    show l.shutdown = (l.aborted .shutdown).settleWithin l.limits.shutdown .shutdown
    rw [shutdown, if_neg h, ← congrArg Limits.shutdown hlimits]
    rfl

/-- A process that has crashed takes no notice. -/
theorem make_ending_crashed (h : l.phase = .crashed) (ending : Ending) :
    ending.call.make l = (l, .answered .ok) := by
  cases ending <;> exact if_pos h

/-! ## What the wait leaves behind

The call is answered at once, or waits for the uploads within its grace. In both cases the state
afterwards is described by `WoundUp`, and the theorem is put together for the two. -/

/-- The wait at the end of the process is over, and so are the uploads that it was for. -/
structure WoundUp (l : Lifecycle) (ending : Ending) (last : Option Nat) : Prop where
  phase : l.phase = ending.final
  outstanding : l.outstanding? = none
  givenUp : ∀ i v, last = some i → l.invocation? i = some v → l.GivenUp i

theorem Passes.fits (h : l.Passes m) (hl : ending.Fits l.phase) : ending.Fits m.phase :=
  ⟨fun he => h.crashed (hl.mp he), fun hm => hl.mpr (by
    by_contra hne
    exact h.not_crashed hne hm)⟩

theorem WoundUp.passes {last : Option Nat} (h : l.WoundUp ending last) (hp : l.Passes m) :
    m.WoundUp ending last where
  phase := by
    cases ending with
    | crash => exact hp.crashed h.phase
    | shutdown => exact hp.idle h.phase
  outstanding := hp.outstanding?_eq_none h.outstanding
  givenUp := fun i w hi hw => by
    obtain ⟨v, hv, -⟩ := hp.of_invocation? hw
    obtain ⟨v, hv, hgiven⟩ := h.givenUp i v hi hv
    obtain ⟨w, hw, hvw⟩ := hp.invocation? hv
    refine ⟨w, hw, fun t ht => ?_⟩
    obtain ⟨s, hs, hst⟩ := forall₂_exists_left hvw.onward.sinks ht
    exact hst.cancelled (hgiven s hs)

theorem woundUp_endSettle (hphase : ending.Fits l.phase)
    (hpending : l.pending = some i ∨ l.pending = none) :
    (l.endSettle i ending).WoundUp ending (some i) := by
  have hretired := quiet_retire l i .ending true
  rw [endSettle_eq]
  refine ⟨?_, outstanding?_eq_none.mpr fun j hj => ?_, fun j v hj hv => ?_⟩
  · show ending.phaseAfter (l.retire i .ending true).phase = ending.final
    rw [hretired.phase]
    exact Ending.phaseAfter_of_fits hphase
  · -- Nothing is pending any more.
    have hnone : (l.retire i .ending true).pending = none := by
      rw [hretired.pending, retire_pending]
      rcases hpending with hp | hp <;> simp [hp]
    exact absurd (hnone.symm.trans hj) (by simp)
  · obtain rfl := Option.some.inj hj
    obtain ⟨w, hw, -⟩ := hretired.of_invocation? hv
    exact givenUp_giveUp (l := l.retire i .ending false) hw

theorem woundUp_check (hphase : ending.Fits l.phase)
    (hpending : l.pending = some i ∨ l.pending = none)
    (hover : ¬ l.HasToWait (.settle i grace deadline ending)) :
    (l.check (.settle i grace deadline ending)).1.WoundUp ending (some i) := by
  rcases check_settle_cases l i grace deadline ending with hwait | ⟨hok, -⟩
  · exact absurd (hasToWait_of_check (congrArg Prod.snd hwait)).1 hover
  · simp only [check] at hok ⊢
    split at hok
    · exact woundUp_endSettle hphase hpending
    · next v _ =>
      split at hok
      · next hdue =>
        rw [if_pos hdue]
        have hnote := quiet_noteSettled l i v grace ending
        exact woundUp_endSettle (hnote.phase ▸ hphase) (hnote.pending ▸ hpending)
      · exact absurd hok (by simp)

theorem allDone_of_not_hasToWait (h : ¬ l.HasToWait (.settle i grace deadline ending))
    (hv : l.invocation? i = some v) (hlt : l.now < deadline) : v.allDone = true := by
  by_contra hdone
  exact h ⟨v, hv, by simpa using hdone, hlt⟩

/-- The call is answered at once, or waits for the uploads that are outstanding. -/
theorem settleWithin_cases (grace : Nat) (hphase : ending.Fits l.phase) :
    (∃ m, l.settleWithin grace ending = (m, .answered .ok) ∧ l.Passes m ∧ m.now = l.now ∧
        m.WoundUp ending l.pending ∧ ∀ i v, l.pending = some i → l.invocation? i = some v →
          0 < grace → v.allDone = true) ∨
      -- The first disjunct is an answer at once, which leaves nothing outstanding; the second one
      -- waits.
      ∃ i v, l.outstanding? = some (i, v) ∧ l.settleWithin grace ending =
        (l, .waiting (.settle i grace (l.now + grace) ending)) := by
  unfold settleWithin
  cases ho : l.outstanding? with
  | none =>
    refine .inl ⟨_, rfl, ?_⟩
    have hafter : (if ending = .shutdown && l.phase ≠ .crashed then
        ({ l with phase := .idle } : Lifecycle) else l) =
          { l with phase := ending.phaseAfter l.phase } := by
      unfold Ending.phaseAfter
      split <;> rfl
    rw [hafter]
    have hhollow (i : Nat) (v : Invocation) (hi : l.pending = some i)
        (hv : l.invocation? i = some v) : v.sinks = [] := outstanding?_eq_none.mp ho i hi v hv
    refine ⟨⟨rfl, .inl rfl, ?_, (Passes.refl l).invocations⟩, rfl, ⟨?_, ho, fun i v hi hv => ?_⟩,
      fun i v hi hv _ => ?_⟩
    · show ending.phaseAfter l.phase = l.phase ∨ _
      unfold Ending.phaseAfter
      split
      · next hshutdown => exact .inr ⟨by simpa using (Bool.and_eq_true_iff.mp hshutdown).2, rfl⟩
      · exact .inl rfl
    · exact Ending.phaseAfter_of_fits hphase
    · -- Without sinks there is nothing to be given up.
      refine ⟨v, hv, fun s hs => ?_⟩
      rw [hhollow i v hi hv] at hs
      exact absurd hs (by simp)
    · rw [Invocation.allDone, hhollow i v hi hv]
      rfl
  | some p =>
    obtain ⟨i, v⟩ := p
    obtain ⟨hpending, -, -⟩ := outstanding?_eq_some.mp ho
    rcases check_settle_cases l i grace (l.now + grace) ending with hwait | ⟨hok, hover⟩
    · exact .inr ⟨i, v, rfl, hwait⟩
    · refine .inl ⟨_, Prod.ext rfl hok, passes_check l _, check_now l _, ?_, fun j w hj hw hpos => ?_⟩
      · rw [hpending]
        exact woundUp_check hphase (.inl hpending) hover
      · obtain rfl := Option.some.inj (hpending.symm.trans hj)
        exact allDone_of_not_hasToWait hover hw (Nat.lt_add_of_pos_right hpos)

end Lifecycle

namespace Run

open Lifecycle

variable {r : Run} {ending : Ending} {d : Nat}

/-- The host has asked for the end of the process. -/
def asked (r : Run) (ending : Ending) : Run := r.call ending.call.make none

/-- The run when the host has its reply. -/
def woundUp (r : Run) (ending : Ending) : Run :=
  (r.asked ending).reach (r.lifecycle.now + ending.grace r.lifecycle.limits) fun s =>
    (s.calls[r.calls.length]?.bind Pending.reply?).isSome

/-- **The end of the process** that the host has asked for, `d` milliseconds later. -/
structure WindsUp (r : Run) (ending : Ending) (d : Nat) : Prop where
  within : d ≤ ending.grace r.lifecycle.limits
  reply : (r.woundUp ending).calls[r.calls.length]? =
    some (.finished (.answer .ok (r.lifecycle.now + d)))
  instant : r.woundUp ending = ((r.asked ending).arrival d).settle
  /-- At no instant before are the uploads over that are waited for. -/
  before : ∀ e < d, ∃ i v, r.lifecycle.lastOf = some i ∧
    ((r.asked ending).arrival e).settle.lifecycle.invocation? i = some v ∧ v.allDone = false
  /-- If nobody else is waiting and the grace is not over they have been over when the call was made, or,
  if it has not been answered at once, as the sinks have settled at the last instant. -/
  early : (∀ p ∈ r.calls, p.isWaiting = false) → d < ending.grace r.lifecycle.limits →
    ∀ i v w, r.lifecycle.lastOf = some i → (r.lifecycle.aborted ending).invocation? i = some v →
      ((r.asked ending).arrival d).lifecycle.settle.invocation? i = some w →
        v.allDone = true ∨
          (r.asked ending).calls[r.calls.length]?.bind Pending.reply? = none ∧ w.allDone = true
  outstanding : (r.woundUp ending).lifecycle.outstanding? = none
  /-- What was outstanding has been cancelled. -/
  givenUp : ∀ i v, r.lifecycle.lastOf = some i → r.lifecycle.invocation? i = some v →
    (r.woundUp ending).lifecycle.GivenUp i
  stream : ∀ i v, r.lifecycle.active = some i → r.lifecycle.invocation? i = some v →
    ∃ w, (r.woundUp ending).lifecycle.invocation? i = some w ∧
      v.stream.Dismissed r.lifecycle.now w.stream
  inactive : (r.woundUp ending).lifecycle.active = none
  phase : (r.woundUp ending).lifecycle.phase = ending.final
  /-- After the end of the process another invocation may be asked for. -/
  accepted : ending = .shutdown →
    ∀ f, (HostCall.before.make (r.woundUp ending).lifecycle).2 ≠ .answered (.refused f)

/-- What the reply finds, given the instant at which it comes. -/
theorem WindsUp.of_settled (hnow : (r.asked ending).lifecycle.now = r.lifecycle.now)
    (hwithin : d ≤ ending.grace r.lifecycle.limits)
    (hreply : ((r.asked ending).arrival d).settle.calls[r.calls.length]? =
      some (.finished (.answer .ok (r.lifecycle.now + d))))
    (hpasses : (r.lifecycle.aborted ending).Passes ((r.asked ending).arrival d).settle.lifecycle)
    (hwound : ((r.asked ending).arrival d).settle.lifecycle.WoundUp ending r.lifecycle.lastOf)
    (hbefore : ∀ e < d, ∃ i grace deadline,
      ((r.asked ending).arrival e).settle.calls[r.calls.length]? =
          some (.waiting (.settle i grace deadline ending) none) ∧
        r.lifecycle.lastOf = some i ∧ ((r.asked ending).arrival e).settle.lifecycle.HasToWait
          (.settle i grace deadline ending))
    (hearly : (∀ p ∈ r.calls, p.isWaiting = false) → d < ending.grace r.lifecycle.limits →
      ∀ i v w, r.lifecycle.lastOf = some i → (r.lifecycle.aborted ending).invocation? i = some v →
        ((r.asked ending).arrival d).lifecycle.settle.invocation? i = some w →
          v.allDone = true ∨ (r.asked ending).calls[r.calls.length]?.bind Pending.reply? = none ∧
            w.allDone = true) : r.WindsUp ending d := by
  -- The instant is found by a search for the first one without a waiting call, so it is the one at
  -- which the call is answered.
  have hinstant : r.woundUp ending = ((r.asked ending).arrival d).settle := by
    refine reach_eq (r.asked ending) _ _ d ?_ (fun e he => ?_) ?_
    · rw [hreply]
      rfl
    · obtain ⟨i, grace, deadline, hwait, -, -⟩ := hbefore e he
      rw [hwait]
      rfl
    · rw [hnow]
      exact Nat.add_le_add_left hwithin _
  exact {
    within := hwithin
    reply := hinstant ▸ hreply
    instant := hinstant
    before := fun e he => by
      obtain ⟨i, grace, deadline, -, hlast, v, hv, hdone, -⟩ := hbefore e he
      exact ⟨i, v, hlast, hv, hdone⟩
    early := hearly
    outstanding := hinstant ▸ hwound.outstanding
    givenUp := fun i v hi hv => by
      obtain ⟨w, hw⟩ := exists_invocation_aborted hv ending
      obtain ⟨w', hw', -⟩ := hpasses.invocation? hw
      rw [hinstant]
      exact hwound.givenUp i w' hi hw'
    stream := fun i v hi hv => by
      obtain ⟨w, hw, sinks, rfl, hsinks⟩ := hpasses.invocation? (invocation?_aborted hi hv)
      rw [hinstant]
      exact ⟨_, hw, v.stream.dismissed_of_sinks r.lifecycle.now hsinks⟩
    inactive := by
      rw [hinstant]
      exact hpasses.active.trans (aborted_aside r.lifecycle ending).2.2.2.1
    phase := hinstant ▸ hwound.phase
    accepted := fun hshutdown f => by
      have hbound : HostCall.operation? .before = some .before := rfl
      refine HostCall.not_refused_of_phase_eq hbound ?_ f
      rw [hinstant, hwound.phase, hshutdown]
      rfl }

/-- The call is answered at once. -/
theorem WindsUp.at_once {m : Lifecycle} (hmake : ending.call.make r.lifecycle = (m, .answered .ok))
    (hpasses : (r.lifecycle.aborted ending).Passes m) (hnow : m.now = r.lifecycle.now)
    (hwound : m.WoundUp ending r.lifecycle.lastOf)
    (hover : ∀ i v, r.lifecycle.lastOf = some i →
      (r.lifecycle.aborted ending).invocation? i = some v →
        0 < ending.grace r.lifecycle.limits → v.allDone = true) : r.WindsUp ending 0 := by
  have hasked : r.asked ending = ⟨m, r.calls ++ [.finished (.answer .ok m.now)]⟩ := by
    rw [asked, call, hmake]
    rfl
  have hlifecycle : (r.asked ending).lifecycle = m := by rw [hasked]
  have hreply : (r.asked ending).calls[r.calls.length]? =
      some (.finished (.answer .ok (r.lifecycle.now + 0))) := by
    rw [hasked, hnow]
    simp
  have hsettled := passes_settleRounds ((r.asked ending).waitingCount + 1) (r.asked ending)
  rw [hlifecycle] at hsettled
  refine .of_settled ?_ (Nat.zero_le _) (finished_settleRounds _ hreply) (hpasses.trans hsettled)
    (hwound.passes hsettled) (fun e he => absurd he (Nat.not_lt_zero e)) ?_
  · rw [hlifecycle, hnow]
  · intro _ hpos i v w hi hv _
    exact .inl (hover i v hi hv hpos)

/-- The call waits until the uploads are over or its grace is. -/
theorem exists_windsUp_of_waiting {i : Nat} (hmake : ending.call.make r.lifecycle =
      (r.lifecycle.aborted ending, .waiting (.settle i (ending.grace r.lifecycle.limits)
        (r.lifecycle.now + ending.grace r.lifecycle.limits) ending)))
    (hfits : ending.Fits (r.lifecycle.aborted ending).phase)
    (hlast : r.lifecycle.lastOf = some i) : ∃ d, r.WindsUp ending d := by
  obtain ⟨hstart, -, -, -, hpending⟩ := aborted_aside r.lifecycle ending
  rw [hlast] at hpending
  have hasked : r.asked ending = ⟨r.lifecycle.aborted ending, r.calls ++ [.waiting (.settle i
      (ending.grace r.lifecycle.limits)
      (r.lifecycle.now + ending.grace r.lifecycle.limits) ending) none]⟩ := by
    rw [asked, call, hmake]
    rfl
  have hlifecycle : (r.asked ending).lifecycle = r.lifecycle.aborted ending := by rw [hasked]
  have hnow : (r.asked ending).lifecycle.now = r.lifecycle.now := by rw [hlifecycle, hstart]
  have hcalls := congrArg Run.calls hasked
  have hwaiting : (r.asked ending).calls[r.calls.length]? = some (.waiting (.settle i
      (ending.grace r.lifecycle.limits)
      (r.lifecycle.now + ending.grace r.lifecycle.limits) ending) none) := by
    rw [hcalls]
    simp
  obtain ⟨d, hle, hat, ⟨m, hm, hover, hlater, hreply⟩, hbefore⟩ :=
    exists_settledFrom hwaiting (hnow ▸ Nat.le_add_right _ _)
  rw [hnow] at hle hat
  -- Between the call and the look that ends it only time has passed.
  have hpasses : (r.lifecycle.aborted ending).Passes m := by
    rw [← hlifecycle]
    exact (passes_arrival _ d).trans hm
  have hwound := woundUp_check (hpasses.fits hfits) (hpending ▸ hpasses.pending) hover
  refine ⟨d, .of_settled hnow (Nat.le_of_add_le_add_left hle) (hat ▸ hreply)
    ((hpasses.trans (passes_check m _)).trans hlater) ?_ (fun e he => ?_) ?_⟩
  · rw [hlast]
    exact hwound.passes hlater
  · exact ⟨i, _, _, (hbefore e he).1, hlast, (hbefore e he).2⟩
  · intro hnobody hd j v w hj _ hw
    obtain rfl := Option.some.inj (hlast.symm.trans hj)
    have hsame := calls_arrival_alone hnobody hcalls fun e he => (hbefore e he).1
    rcases settle_alone hnobody (hsame.trans hcalls) with ⟨hsettle, -⟩ | ⟨hover, -⟩
    · -- It has been answered, so it is not as it was.
      rw [hsettle, hsame, hwaiting] at hreply
      exact absurd hreply (by simp)
    · refine .inr ⟨by rw [hwaiting]; rfl, allDone_of_not_hasToWait hover hw ?_⟩
      rw [settle_now, hat]
      exact Nat.add_lt_add_left hd _

/-- The call is answered at once, or has to wait. -/
theorem exists_windsUp (r : Run) (ending : Ending) (h : r.lifecycle.phase ≠ .crashed) :
    ∃ d, r.WindsUp ending d := by
  obtain ⟨hstart, -, hphase, -, hlast⟩ := aborted_aside r.lifecycle ending
  have hfits : ending.Fits (r.lifecycle.aborted ending).phase := by
    rw [hphase]
    exact ending.fits_during h
  have hmake := make_ending h ending
  rcases settleWithin_cases (ending.grace r.lifecycle.limits) hfits with
    ⟨m, hm, hpasses, hnow, hwound, hover⟩ | ⟨i, v, ho, hm⟩
  · rw [hlast] at hwound hover
    exact ⟨0, .at_once (hmake.trans hm) hpasses (hnow.trans hstart) hwound hover⟩
  · rw [hstart] at hm
    exact exists_windsUp_of_waiting (hmake.trans hm) hfits (hlast.symm.trans (outstanding?_eq_some.mp ho).1)

/-- **The end of the process.** Whatever state the lifecycle is in, unless it has crashed before, and
whoever else is waiting: a crash or the end of the process is answered within its grace, and as soon as
the outstanding uploads are over. Nothing is outstanding then; what was is cancelled; the active
invocation's stream is closed, its sinks have been told why if it was open, and are asked for nothing any
more; and the lifecycle has crashed, or is idle and accepts another invocation. -/
theorem winds_up (r : Run) (ending : Ending) (h : r.lifecycle.phase ≠ .crashed) :
    ∃ d, r.WindsUp ending d := exists_windsUp r ending h

/-- An invocation is active, and its sink is done some time after its stream has been closed. -/
def busyUpload : Run :=
  let sink := Sink.new 0 (.responder (.new "s" none (some (50, .done))))
  let r := ofLifecycle (.new ⟨0, 100, 100, 0⟩ .fresh)
  let r := r.call (HostCall.before).make none
  r.call (HostCall.start ⟨"b", "i"⟩ [sink]).make none

theorem winds_up_busyUpload : busyUpload.lifecycle.phase = .active ∧
    busyUpload.lifecycle.lastOf = some 0 ∧ busyUpload.WindsUp .shutdown 50 := by
  obtain ⟨d, hd⟩ := busyUpload.winds_up .shutdown (by decide)
  have hreply : (busyUpload.woundUp .shutdown).calls[2]? = some (.finished (.answer .ok 50)) := rfl
  have hnow : busyUpload.lifecycle.now = 0 := rfl
  have hsame := hreply.symm.trans hd.reply
  obtain rfl : d = 50 := by simpa [hnow] using hsame.symm
  exact ⟨rfl, rfl, hd⟩

end Run

end EventUpload
