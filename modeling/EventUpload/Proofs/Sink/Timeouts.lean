import Mathlib.Logic.Relation
import EventUpload.Proofs.Sink.Watch

/-!
# Maps of signals with timeouts

The signals of some sinks, all of the half-close or all of being done, make up a map. Wrapping it sets a
timer for every entry whose sink has a bound and whose outcome is not known yet (`withTimeouts`). What
happens to the map from then on is a row of steps (`Timed`): a sink does whatever it likes, somebody
looks at an entry, which its timer does when it is due, or time passes, which it never does while a
timer has something to do.

What is shown of an entry is noted, and so is what its sink itself came to (`Entry`). A look has five
outcomes (`LooksAt`), and from these follows what a step keeps of an entry (`Phase`). It holds of every
entry by itself, whatever the other sinks do, so all of them are described together (`timed_entries`).
The only assumption is that the outcome of an entry that is still open does not come at the very instant
at which its bound passes.

That assumption cannot be left out. At such an instant it depends on who has his turn first whether the
entry relays the outcome or times out, and both are right: the outcome has come, and the bound has
passed. `Timed.goes` therefore asks it of sinks that go on by themselves, and of nobody else.

In a lifecycle a map is wrapped when a stream is closed, and the sinks are settled from then on. That
neither is anything but what is described here is part of `timed_entries`: `withTimeouts_of_unresolved`
says it of closing, and `timed_settle` says it of settling, which is a row of steps of the map of what
is done. For the map of the half-closes the same would be false. At the instant at which its bound
passes, a sink is cancelled by the timer of being done before the other timer looks, so that its
half-close is resolved in that instant after all, and the entry shows the cancellation. What can be said
of both timers of a sink, and of their order, is said in `Proofs.Sink.TwoTimers`.
-/

set_option autoImplicit false

namespace EventUpload

open List (Forall₂)
open Relation (ReflTransGen)

/-! ## One of two signals

A map has either the half-closes or the ends of its sinks, and everything here is said of both kinds at
once. `half` tells which, and `own` and `shown` are the two sides of an entry. -/

namespace Signals

/-- The signal of the half-close, or the one of being done. -/
def of (half : Bool) (s : Signals) : Signal := if half then s.half else s.done

/-- The signals with an outcome for one of them. -/
def put (half : Bool) (o : Outcome) (s : Signals) : Signals :=
  if half then { s with half := some o } else { s with done := some o }

@[simp] theorem of_put (half : Bool) (o : Outcome) (s : Signals) : (s.put half o).of half = some o := by
  cases half <;> rfl

@[simp] theorem of_unresolved (half : Bool) : unresolved.of half = none := by cases half <;> rfl

theorem upto_put {s : Signals} {half : Bool} (h : s.of half = none) (o : Outcome) :
    s.Upto (s.put half o) := by
  cases half with
  | false => exact ⟨fun _ ho => ho, fun _ ho => absurd (h.symm.trans ho) (by simp)⟩
  | true => exact ⟨fun _ ho => absurd (h.symm.trans ho) (by simp), fun _ ho => ho⟩

theorem Upto.of {s t : Signals} (h : s.Upto t) {half : Bool} {o : Outcome} (ho : s.of half = some o) :
    t.of half = some o := by
  cases half with
  | false => exact h.done o ho
  | true => exact h.half o ho

end Signals

namespace Sink

variable {half : Bool} {now : Nat} {outside : Outside} {s t : Sink} {w : Watch}

/-- What a sink itself came to. -/
def own (half : Bool) (s : Sink) : Signal := s.signals.of half

/-- What is shown of it. -/
def shown (half : Bool) (s : Sink) : Signal := s.seen.of half

/-- Looks after one of the signals. -/
def look (half : Bool) (s : Sink) (outside : Outside) (now : Nat) : Sink × Outside :=
  if half then s.watchHalf outside now else s.watchDone outside now

/-- The instant that the timer of a signal waits for. -/
def timer? (half : Bool) (s : Sink) : Option Nat :=
  match s.watch with
  | some w => if (w.seen.of half).isNone then some w.deadline else none
  | none => none

theorem shown_of_watch (hw : s.watch = some w) : s.shown half = w.seen.of half := by
  rw [shown, seen_of_watch hw]

theorem shown_of_unwatched (hw : s.watch = none) : s.shown half = s.own half := by
  rw [shown, own, seen_of_unwatched hw]

/-- A sink is due when it wakes up, and when one of its timers is. -/
theorem mem_dueInstants {time : Nat} : time ∈ s.dueInstants ↔
    time ∈ s.wakes ∨ s.timer? true = some time ∨ s.timer? false = some time := by
  simp only [dueInstants, timer?, Signals.of, List.mem_append, if_true, Bool.false_eq_true, if_false]
  cases s.watch with
  | none => simp
  | some w => simp [or_and_right, @eq_comm _ w.deadline time]

/-! ## Looking at an entry

An outcome that has come is relayed even if the bound has passed by now, and only an entry whose sink
has come to nothing expires. So which of the two it is does not depend on when the look comes. -/

/-- Everything that a look at an entry can come to. -/
inductive LooksAt (half : Bool) (now : Nat) (outside : Outside) (s : Sink) : Sink × Outside → Prop where
  | unwatched (hw : s.watch = none) : LooksAt half now outside s (s, outside)
  | resolved {w : Watch} {o : Outcome} (hw : s.watch = some w) (hseen : w.seen.of half = some o) :
      LooksAt half now outside s (s, outside)
  | waits {w : Watch} (hw : s.watch = some w) (hseen : w.seen.of half = none)
      (hown : s.own half = none) (hnow : now < w.deadline) : LooksAt half now outside s (s, outside)
  | relays {w : Watch} {o : Outcome} (hw : s.watch = some w) (hseen : w.seen.of half = none)
      (hown : s.own half = some o) : LooksAt half now outside s
        ({ s with watch := some { w with seen := w.seen.put half o } }, outside)
  | expires {w : Watch} (hw : s.watch = some w) (hseen : w.seen.of half = none)
      (hown : s.own half = none) (hnow : w.deadline ≤ now) : LooksAt half now outside s
        ({ s with watch := some { w with seen := w.seen.put half (.failed s.timeout) } }.cancel outside)

theorem look_eq (half : Bool) (s : Sink) (outside : Outside) (now : Nat) : s.look half outside now =
    match s.watch with
    | none => (s, outside)
    | some w =>
      if (w.seen.of half).isSome then (s, outside)
      else match s.own half with
        | some o => ({ s with watch := some { w with seen := w.seen.put half o } }, outside)
        | none =>
          if now < w.deadline then (s, outside)
          else { s with watch := some { w with seen := w.seen.put half (.failed s.timeout) }
            }.cancel outside := by
  cases half <;> rfl

theorem looksAt_look (half : Bool) (s : Sink) (outside : Outside) (now : Nat) :
    LooksAt half now outside s (s.look half outside now) := by
  rw [look_eq]
  split
  · next hw => exact .unwatched hw
  · next w hw =>
    split
    · next hseen =>
      obtain ⟨o, ho⟩ := Option.isSome_iff_exists.mp hseen
      exact .resolved hw ho
    · next hseen =>
      rw [Option.not_isSome_iff_eq_none] at hseen
      split
      · next o hown => exact .relays hw hseen hown
      · next hown =>
        split
        · next hnow => exact .waits hw hseen hown hnow
        · next hnow => exact .expires hw hseen hown (Nat.not_lt.mp hnow)

/-- Looking at an entry that is resolved, or that never had a timer, changes nothing. -/
theorem look_of_timer (h : s.timer? half = none) (outside : Outside) (now : Nat) :
    s.look half outside now = (s, outside) := by
  rw [look_eq]
  split
  · rfl
  · next w hw =>
    simp only [timer?, hw] at h
    split
    · rfl
    · next hseen => simp [Option.not_isSome_iff_eq_none.mp hseen] at h

theorem onward_look (half : Bool) (s : Sink) (outside : Outside) (now : Nat) :
    s.Onward (s.look half outside now).1 := by
  cases half with
  | false => exact s.onward_watchDone outside now
  | true => exact s.onward_watchHalf outside now

/-! ## Wrapping a map

An outcome that is known when a map is wrapped needs no timer. When a stream is closed nothing is known
yet, but a map may be wrapped at any time. -/

/-- Starts to watch a sink with a bound. What is known already of its signals needs no timer. -/
def startWatchKnowing (s : Sink) (known : Signals) (now : Nat) : Sink :=
  if s.bound = 0 then s else { s with watch := some ⟨now + s.bound, known⟩ }

end Sink

/-- A sink before its signals are wrapped, and what is known of them. -/
structure Unwrapped where
  sink : Sink
  known : Signals
  unwatched : sink.watch = none
  holds : known.Upto sink.signals

def withTimeouts (now : Nat) (map : List Unwrapped) : List Sink :=
  map.map fun u => u.sink.startWatchKnowing u.known now

/-- Where nothing is known yet, wrapping a map is how a stream is closed. -/
theorem withTimeouts_of_unresolved (now : Nat) {map : List Unwrapped}
    (h : ∀ u ∈ map, u.known = .unresolved) :
    withTimeouts now map = (map.map Unwrapped.sink).map (Sink.startWatch · now) := by
  rw [withTimeouts, List.map_map]
  refine List.map_congr_left fun u hu => ?_
  rw [h u hu]
  rfl

/-! ## Entries

Times are noted beside what happens and play no part in it. `stopped` is noted as well, so that it can
be said of a cancelled sink who has cancelled it. -/

/-- An entry of a map, with what was noted about it. -/
structure Entry where
  sink : Sink
  /-- What the sink itself came to, and when. -/
  came : Option (Nat × Outcome)
  /-- What the entry resolved to, and when. -/
  answered : Option (Nat × Outcome)
  /-- Whether anybody but its timer has cancelled the sink. -/
  stopped : Bool

namespace Entry

variable {half : Bool} {start now : Nat} {e : Entry} {t : Sink}

/-- Notes what is to be seen of a sink for the first time. -/
def note (half : Bool) (now : Nat) (e : Entry) (t : Sink) : Entry :=
  { e with
    sink := t
    came := e.came <|> (t.own half).map (now, ·)
    answered := e.answered <|> (t.shown half).map (now, ·) }

def opened (half : Bool) (start : Nat) (s : Sink) : Entry :=
  note half start ⟨s, none, none, s.isCancelled⟩ s

end Entry

/-- One thing that happens to a wrapped map. -/
inductive Timed (half : Bool) : Nat × List Entry → Nat × List Entry → Prop where
  /-- A sink goes on in whatever way, or somebody does something to it. Its entry shows nothing new if
  it has a timer, and its outcome does not come just when the bound passes. -/
  | goes {now k : Nat} {es : List Entry} {e : Entry} {t : Sink} (he : es[k]? = some e)
      (h : e.sink.Onward t) (hshown : e.sink.watch ≠ none → t.shown half = e.sink.shown half)
      (htie : e.sink.timer? half = some now → e.sink.own half = none → t.own half = none) :
      Timed half (now, es) (now, es.set k { e.note half now t with
        stopped := e.stopped || (t.isCancelled && !e.sink.isCancelled) })
  | looks {now k : Nat} {es : List Entry} {e : Entry} (he : es[k]? = some e) (outside : Outside) :
      Timed half (now, es) (now, es.set k (e.note half now (e.sink.look half outside now).1))
  /-- Time passes, up to the next instant for which a timer waits. A timer also has something to do
  when the outcome of its entry has come. -/
  | passes {now next : Nat} {es : List Entry} (hlt : now < next)
      (hidle : ∀ e ∈ es, ∀ d, e.sink.timer? half = some d → e.sink.own half = none ∧ next ≤ d) :
      Timed half (now, es) (next, es)

/-! ## What is kept of an entry

`Phase` speaks of the two notes alone, and `Follows` ties them to the sink. The phases are in the order
in which an entry goes through them; `relayed` and `expired` are the two ends. -/

/-- The four phases of an entry with a bound: what its sink itself came to, what the entry resolved to,
and when. -/
inductive Entry.Phase (limit : Nat) (expiry : Outcome) (now : Nat) :
    Option (Nat × Outcome) → Option (Nat × Outcome) → Prop where
  | waiting (h : now ≤ limit) : Phase limit expiry now none none
  /-- The outcome has just come; the timer has not seen it yet. -/
  | arrived {o : Outcome} (h : now < limit) : Phase limit expiry now (some (now, o)) none
  /-- The outcome came before the bound passed, and the entry resolved to it at that instant. -/
  | relayed {time : Nat} {o : Outcome} (hle : time ≤ now) (h : time < limit) :
      Phase limit expiry now (some (time, o)) (some (time, o))
  /-- The entry resolved when the bound passed. Whatever its sink comes to comes later. -/
  | expired {came : Option (Nat × Outcome)} (hle : limit ≤ now)
      (hlate : ∀ time o, came = some (time, o) → limit ≤ time) :
      Phase limit expiry now came (some (limit, expiry))

namespace Entry.Phase

variable {limit now next : Nat} {expiry : Outcome} {came answered : Option (Nat × Outcome)}

/-- The sink comes to something while nobody looks at the entry. -/
theorem comes (h : Phase limit expiry now came answered) {own : Signal}
    (htie : answered = none → came = none → now = limit → own = none) :
    Phase limit expiry now (came <|> own.map (now, ·)) answered := by
  cases h with
  | waiting h =>
    cases own with
    | none => exact .waiting h
    | some o => exact .arrived (Nat.lt_of_le_of_ne h fun heq => by cases htie rfl rfl heq)
  | arrived h => exact .arrived h
  | relayed hle h => exact .relayed hle h
  | expired hle hlate =>
    refine .expired hle fun time o heq => ?_
    cases came with
    | some came => exact hlate time o heq
    | none =>
      obtain ⟨o', -, heq⟩ := Option.map_eq_some_iff.mp heq
      cases heq
      exact hle

/-- Time passes, unless there is an outcome that the timer has not seen. -/
theorem later (h : Phase limit expiry now came answered) (hlt : now < next)
    (hidle : answered = none → came = none ∧ next ≤ limit) : Phase limit expiry next came answered := by
  cases h with
  | waiting h => exact .waiting (hidle rfl).2
  | arrived h => cases (hidle rfl).1
  | relayed hle h => exact .relayed (Nat.le_trans hle (Nat.le_of_lt hlt)) h
  | expired hle hlate => exact .expired (Nat.le_trans hle (Nat.le_of_lt hlt)) hlate

end Entry.Phase

namespace Entry

variable {half : Bool} {start now : Nat} {u : Unwrapped} {e : Entry} {t : Sink}

/-- The outcome of an entry of which the bound has passed. -/
def expiry (u : Unwrapped) : Outcome := .failed (.closeTimeout u.sink.name u.sink.bound)

/-- The bound of the sink has passed before its outcome came. -/
def Expired (start : Nat) (u : Unwrapped) (e : Entry) : Prop :=
  u.sink.bound ≠ 0 ∧ e.answered = some (start + u.sink.bound, expiry u)

/-- What is known of an entry of a wrapped map. -/
structure Follows (half : Bool) (start now : Nat) (u : Unwrapped) (e : Entry) : Prop where
  name : e.sink.name = u.sink.name
  bound : e.sink.bound = u.sink.bound
  watch : e.sink.watch.map Watch.deadline =
    if u.sink.bound = 0 then none else some (start + u.sink.bound)
  own : e.sink.own half = e.came.map Prod.snd
  shown : e.sink.shown half = e.answered.map Prod.snd
  known : (u.known.of half).isSome = true → e.came.isSome = true ∧ e.answered = e.came
  phase : u.sink.bound ≠ 0 → Phase (start + u.sink.bound) (expiry u) now e.came e.answered
  unbounded : u.sink.bound = 0 → e.answered = e.came
  cancels : Expired start u e → e.sink.isCancelled = true
  spares : e.sink.isCancelled = true → e.stopped = true ∨ Expired start u e

/-- What is noted of a signal is what it is. -/
theorem noted_eq {signal signal' : Signal} {noted : Option (Nat × Outcome)}
    (h : signal = noted.map Prod.snd) (hkeeps : ∀ o, signal = some o → signal' = some o) :
    signal' = (noted <|> signal'.map (now, ·)).map Prod.snd := by
  cases noted with
  | some p => exact hkeeps p.2 h
  | none => cases signal' <;> rfl

theorem Follows.own_note (h : Follows half start now u e) (hst : e.sink.Onward t) :
    t.own half = (e.note half now t).came.map Prod.snd :=
  noted_eq h.own fun _ ho => hst.signals.of ho

theorem Follows.shown_note (h : Follows half start now u e) (hst : e.sink.Onward t) :
    t.shown half = (e.note half now t).answered.map Prod.snd :=
  noted_eq h.shown fun _ ho => hst.seen.of ho

/-- What is known from the beginning is not noted again. -/
theorem Follows.known_note (h : Follows half start now u e) (hknown : (u.known.of half).isSome = true)
    (t : Sink) : (e.note half now t).came.isSome = true ∧
      (e.note half now t).answered = (e.note half now t).came := by
  obtain ⟨hcame, heq⟩ := h.known hknown
  obtain ⟨p, hp⟩ := Option.isSome_iff_exists.mp hcame
  rw [hp] at heq
  simp only [note, hp, heq]
  exact ⟨rfl, rfl⟩

/-- A sink without a bound has no timer, and shows its signals as they are. -/
theorem Follows.unwatched (h : Follows half start now u e) (hb : u.sink.bound = 0) :
    e.sink.watch = none := by
  have hwatch := h.watch
  rw [if_pos hb] at hwatch
  exact Option.map_eq_none_iff.mp hwatch

theorem Follows.watched (h : Follows half start now u e) (hb : u.sink.bound ≠ 0) :
    ∃ w, e.sink.watch = some w ∧ w.deadline = start + u.sink.bound := by
  have hwatch := h.watch
  rw [if_neg hb] at hwatch
  exact Option.map_eq_some_iff.mp hwatch

theorem Follows.timer_eq (h : Follows half start now u e) : e.sink.timer? half =
    if u.sink.bound ≠ 0 ∧ e.answered = none then some (start + u.sink.bound) else none := by
  by_cases hb : u.sink.bound = 0
  · rw [if_neg (by simp [hb]), Sink.timer?, h.unwatched hb]
  · obtain ⟨w, hw, hdeadline⟩ := h.watched hb
    have hshown := h.shown
    rw [Sink.shown_of_watch hw] at hshown
    simp only [Sink.timer?, hw, hshown, hdeadline, hb, Option.isNone_map, Option.isNone_iff_eq_none, ne_eq,
      not_false_eq_true, true_and]

/-! ### What a step keeps

One lemma for each kind of step. A sink that goes on may bring an entry from waiting to arrived, a look
ends it, and time can only pass in a phase in which the timer has nothing to do. -/

/-- Something new is noted of a sink; what is left to be seen is in which phase the entry is now, and who
has cancelled the sink. -/
theorem Follows.noted (h : Follows half start now u e) (hst : e.sink.Onward t) (stopped : Bool)
    (hphase : u.sink.bound ≠ 0 → Phase (start + u.sink.bound) (expiry u) now
      (e.note half now t).came (e.note half now t).answered)
    (hcancels : Expired start u (e.note half now t) → t.isCancelled = true)
    (hspares : t.isCancelled = true → stopped = true ∨ Expired start u (e.note half now t)) :
    Follows half start now u { e.note half now t with stopped := stopped } := by
  have hshape := hst.shape
  simp only [Sink.shape, Prod.mk.injEq] at hshape
  obtain ⟨hname, hbound, hwatch⟩ := hshape
  refine ⟨hname.trans h.name, hbound.trans h.bound, hwatch.trans h.watch, h.own_note hst,
    h.shown_note hst, fun hknown => h.known_note hknown t, hphase, fun hb => ?_, hcancels, hspares⟩
  have hnone : t.watch = none := by
    rw [h.unwatched hb] at hwatch
    exact Option.map_eq_none_iff.mp hwatch
  simp only [note, h.unbounded hb, Sink.shown_of_unwatched hnone]

/-- As long as a sink is as it was there is nothing new to note. -/
theorem Follows.note_self (h : Follows half start now u e) : e.note half now e.sink = e := by
  have hnoted {signal : Signal} {noted : Option (Nat × Outcome)} (h : signal = noted.map Prod.snd) :
      (noted <|> signal.map (now, ·)) = noted := by
    rw [h]
    cases noted <;> rfl
  rw [note, hnoted h.own, hnoted h.shown]

theorem Follows.goes (h : Follows half start now u e) (hst : e.sink.Onward t)
    (hshown : e.sink.watch ≠ none → t.shown half = e.sink.shown half)
    (htie : e.sink.timer? half = some now → e.sink.own half = none → t.own half = none) :
    Follows half start now u { e.note half now t with
      stopped := e.stopped || (t.isCancelled && !e.sink.isCancelled) } := by
  have hanswered (hb : u.sink.bound ≠ 0) : (e.note half now t).answered = e.answered := by
    obtain ⟨w, hw, -⟩ := h.watched hb
    have hself := congrArg answered (h.note_self)
    rwa [note, ← hshown (by simp [hw])] at hself
  refine h.noted hst _ (fun hb => ?_) ?_ fun hc => ?_
  · rw [hanswered hb]
    refine (h.phase hb).comes fun hnone hcame hnow => htie ?_ ?_
    · rw [h.timer_eq, if_pos ⟨hb, hnone⟩, hnow]
    · rw [h.own, hcame, Option.map_none]
  · rintro ⟨hb, hexpired⟩
    exact hst.cancelled (h.cancels ⟨hb, hanswered hb ▸ hexpired⟩)
  · by_cases hbefore : e.sink.isCancelled = true
    · refine (h.spares hbefore).imp (fun hs => by rw [hs]; rfl) ?_
      rintro ⟨hb, hexpired⟩
      exact ⟨hb, (hanswered hb).trans hexpired⟩
    · exact .inl (by simp [hc, hbefore])

/-- What the watch of a sink has not seen is not answered. -/
theorem Follows.answered_of_seen {w : Watch} (h : Follows half start now u e)
    (hw : e.sink.watch = some w) (hseen : w.seen.of half = none) : e.answered = none := by
  have hshown := h.shown
  rw [Sink.shown_of_watch hw, hseen] at hshown
  exact Option.map_eq_none_iff.mp hshown.symm

/-- The timer sees the outcome of the sink at the instant at which it comes. -/
theorem Follows.relays {w : Watch} {o : Outcome} (h : Follows half start now u e)
    (hw : e.sink.watch = some w) (hseen : w.seen.of half = none) (hown : e.sink.own half = some o)
    (hst : e.sink.Onward { e.sink with watch := some { w with seen := w.seen.put half o } }) :
    Follows half start now u (e.note half now
      { e.sink with watch := some { w with seen := w.seen.put half o } }) := by
  have hnone : e.answered = none := h.answered_of_seen hw hseen
  have hanswered : (e.note half now { e.sink with
      watch := some { w with seen := w.seen.put half o } }).answered = some (now, o) := by
    simp [note, hnone, Sink.shown, Sink.seen]
  have hcame : (e.note half now { e.sink with
      watch := some { w with seen := w.seen.put half o } }).came = e.came := by
    have hself : (e.note half now e.sink).came = e.came := congrArg came h.note_self
    exact hself
  -- With a bound the outcome has only just come: before, the entry would have resolved to it.
  have hfresh (hb : u.sink.bound ≠ 0) : e.came = some (now, o) ∧ now < start + u.sink.bound := by
    have hphase := h.phase hb
    have hcame' := h.own
    rw [hown] at hcame'
    rw [hnone] at hphase
    generalize e.came = came at hphase hcame'
    cases hphase with
    | waiting _ => cases hcame'
    | arrived hlt =>
      cases hcame'
      exact ⟨rfl, hlt⟩
  refine h.noted hst e.stopped (fun hb => ?_) ?_ fun hc => ?_
  · obtain ⟨heq, hlt⟩ := hfresh hb
    rw [hanswered, hcame, heq]
    exact .relayed (Nat.le_refl _) hlt
  · rintro ⟨hb, hexpired⟩
    rw [hanswered] at hexpired
    cases hexpired
    exact absurd (hfresh hb).2 (Nat.lt_irrefl _)
  · refine (h.spares hc).imp_right ?_
    rintro ⟨hb, hexpired⟩
    exact absurd (hnone.symm.trans hexpired) (by simp)

/-- The bound passes, and the timer cancels the sink. -/
theorem Follows.expires {w : Watch} (h : Follows half start now u e) (hw : e.sink.watch = some w)
    (hseen : w.seen.of half = none) (hown : e.sink.own half = none) (hnow : w.deadline ≤ now)
    (hst : e.sink.Onward t) (hcancelled : t.isCancelled = true)
    (hshown : t.shown half = some (.failed e.sink.timeout)) :
    Follows half start now u (e.note half now t) := by
  have hb : u.sink.bound ≠ 0 := fun hb => absurd (h.unwatched hb) (by simp [hw])
  have hnone : e.answered = none := h.answered_of_seen hw hseen
  have hcame : e.came = none := Option.map_eq_none_iff.mp (h.own.symm.trans hown)
  have hlimit : now = start + u.sink.bound := by
    obtain ⟨w', hw', hdeadline⟩ := h.watched hb
    cases hw.symm.trans hw'
    have hphase := h.phase hb
    rw [hnone, hcame] at hphase
    cases hphase with
    | waiting hle => omega
  have hexpired : Expired start u (e.note half now t) := by
    refine ⟨hb, ?_⟩
    rw [note, hnone, hshown, expiry, Sink.timeout, h.name, h.bound, hlimit]
    rfl
  refine h.noted hst e.stopped (fun _ => ?_) (fun _ => hcancelled) fun _ => .inr hexpired
  rw [hexpired.2]
  refine .expired (Nat.le_of_eq hlimit.symm) fun time o heq => ?_
  rw [note, hcame] at heq
  obtain ⟨o', -, heq⟩ := Option.map_eq_some_iff.mp heq
  cases heq
  exact Nat.le_of_eq hlimit.symm

theorem Follows.looks (h : Follows half start now u e) (outside : Outside) :
    Follows half start now u (e.note half now (e.sink.look half outside now).1) := by
  have hst := Sink.onward_look half e.sink outside now
  have hlooks := Sink.looksAt_look half e.sink outside now
  generalize e.sink.look half outside now = looked at hst hlooks
  cases hlooks with
  | unwatched _ => rwa [h.note_self]
  | resolved _ _ => rwa [h.note_self]
  | waits _ _ _ _ => rwa [h.note_self]
  | relays hw hseen hown => exact h.relays hw hseen hown hst
  | @expires w hw hseen hown hnow =>
    refine h.expires hw hseen hown hnow hst (Sink.isCancelled_cancel _ _) ?_
    rw [Sink.shown_of_watch (Sink.watch_cancel _), Signals.of_put]

theorem Follows.later {next : Nat} (h : Follows half start now u e) (hlt : now < next)
    (hidle : ∀ d, e.sink.timer? half = some d → e.sink.own half = none ∧ next ≤ d) :
    Follows half start next u e :=
  { h with
    phase := fun hb => (h.phase hb).later hlt fun hnone => by
      obtain ⟨hown, hle⟩ := hidle (start + u.sink.bound) (by rw [h.timer_eq, if_pos ⟨hb, hnone⟩])
      exact ⟨Option.map_eq_none_iff.mp (h.own.symm.trans hown), hle⟩ }

/-- A sink without a bound is left as it is when its map is wrapped. -/
theorem follows_opened_unbounded (half : Bool) (start : Nat) (hb : u.sink.bound = 0) :
    Follows half start start u (opened half start u.sink) := by
  have hshown : u.sink.shown half = u.sink.own half := Sink.shown_of_unwatched u.unwatched
  refine ⟨rfl, rfl, by rw [if_pos hb]; simp [opened, note, u.unwatched], noted_eq rfl (by simp),
    noted_eq rfl (by simp), fun hknown => ?_, fun hb' => absurd hb hb', fun _ => ?_,
    fun hexpired => absurd hb hexpired.1, .inl⟩
  · obtain ⟨o, ho⟩ := Option.isSome_iff_exists.mp hknown
    have hown : u.sink.own half = some o := u.holds.of ho
    simp [opened, note, hshown, hown]
  · simp [opened, note, hshown]

/-- A sink with a bound is watched when its map is wrapped, and its entry shows what is known. -/
theorem follows_opened_bounded (half : Bool) (start : Nat) (hb : u.sink.bound ≠ 0) :
    Follows half start start u
      (opened half start { u.sink with watch := some ⟨start + u.sink.bound, u.known⟩ }) := by
  have hfuture : start < start + u.sink.bound := by omega
  have hcame : (opened half start { u.sink with watch := some ⟨start + u.sink.bound, u.known⟩ }).came =
      (u.sink.own half).map (start, ·) := rfl
  have hanswered : (opened half start
      { u.sink with watch := some ⟨start + u.sink.bound, u.known⟩ }).answered =
      (u.known.of half).map (start, ·) := rfl
  refine ⟨rfl, rfl, (if_neg hb).symm, noted_eq rfl (by simp), noted_eq rfl (by simp),
    fun hknown => ?_, fun _ => ?_, fun hb' => absurd hb' hb, ?_, .inl⟩
  -- What was known when the map was made is in the entry from the beginning.
  · obtain ⟨o, ho⟩ := Option.isSome_iff_exists.mp hknown
    have hown : u.sink.own half = some o := u.holds.of ho
    rw [hcame, hanswered, hown, ho]
    exact ⟨rfl, rfl⟩
  · rw [hcame, hanswered]
    -- Anything else that the sink has come to is passed on when its timer looks for the first time.
    cases hknown : u.known.of half with
    | some o =>
      have hown : u.sink.own half = some o := u.holds.of hknown
      rw [hown]
      exact .relayed (Nat.le_refl _) hfuture
    | none =>
      cases u.sink.own half with
      | none => exact .waiting (Nat.le_of_lt hfuture)
      | some o => exact .arrived hfuture
  · -- What is known from the beginning does not come when the bound passes.
    rintro ⟨-, hexpired⟩
    rw [hanswered] at hexpired
    obtain ⟨o, -, heq⟩ := Option.map_eq_some_iff.mp hexpired
    exact absurd (congrArg Prod.fst heq) (Nat.ne_of_lt hfuture)

/-- What is known of an entry when its map has just been wrapped. -/
theorem follows_opened (half : Bool) (start : Nat) (u : Unwrapped) :
    Follows half start start u (opened half start (u.sink.startWatchKnowing u.known start)) := by
  rw [Sink.startWatchKnowing]
  split
  · next hb => exact follows_opened_unbounded half start hb
  · next hb => exact follows_opened_bounded half start hb

/-- A timer is there as long as the entry is open, and is never late. -/
structure Attended (half : Bool) (start now : Nat) (u : Unwrapped) (e : Entry) : Prop where
  timer : e.sink.timer? half =
    if u.sink.bound ≠ 0 ∧ e.answered = none then some (start + u.sink.bound) else none
  /-- Once the entry is resolved there is nothing left that could happen to it. -/
  rests : e.answered.isSome = true →
    ∀ outside later, e.sink.look half outside later = (e.sink, outside)
  /-- If its outcome has come, or the bound has passed, whoever looks at it resolves it. -/
  prompt : e.came.isSome = true ∨ u.sink.bound ≠ 0 ∧ start + u.sink.bound ≤ now →
    ∀ outside, ((e.sink.look half outside now).1.shown half).isSome = true

theorem Follows.attended (h : Follows half start now u e) : Attended half start now u e where
  timer := h.timer_eq
  rests := fun hsome outside later => by
    refine Sink.look_of_timer ?_ outside later
    rw [h.timer_eq, if_neg]
    rintro ⟨-, hnone⟩
    rw [hnone] at hsome
    cases hsome
  prompt := fun hdue outside => by
    have hlooks := Sink.looksAt_look half e.sink outside now
    generalize e.sink.look half outside now = looked at hlooks
    cases hlooks with
    | unwatched hw =>
      rcases hdue with hcame | ⟨hb, -⟩
      · rw [Sink.shown_of_unwatched hw, h.own, Option.isSome_map]
        exact hcame
      · obtain ⟨w, hw', -⟩ := h.watched hb
        cases hw.symm.trans hw'
    | resolved hw hseen =>
      rw [Sink.shown_of_watch hw, hseen]
      rfl
    -- It is not waiting in vain: an outcome that is there would have been passed on, and a bound that
    -- has passed would have ended the wait.
    | @waits w hw hseen hown hnow =>
      rcases hdue with hcame | ⟨hb, hle⟩
      · rw [← Option.isSome_map (f := Prod.snd), ← h.own, hown] at hcame
        cases hcame
      · obtain ⟨w', hw', hdeadline⟩ := h.watched hb
        cases hw.symm.trans hw'
        omega
    | relays hw hseen hown => simp [Sink.shown, Sink.seen]
    | expires hw hseen hown hnow =>
      rw [Sink.shown_of_watch (Sink.watch_cancel _), Signals.of_put]
      rfl

end Entry

/-! ## All entries of a map

A step changes one entry, or none but the time, so what is kept of each is kept of all. What has to be
shown besides is where a lifecycle does just such steps. -/

theorem forall₂_set {α β : Type} {R : α → β → Prop} {as : List α} {bs : List β} {k : Nat} {b b' : β}
    (h : Forall₂ R as bs) (hb : bs[k]? = some b) (hR : ∀ a, R a b → R a b') :
    Forall₂ R as (bs.set k b') := by
  induction h generalizing k with
  | nil => simp at hb
  | cons hab hrest ih =>
    cases k with
    | zero =>
      cases hb
      exact .cons (hR _ hab) hrest
    | succ k => exact .cons hab (ih hb)

/-- A map that has just been wrapped. -/
def openedMap (half : Bool) (start : Nat) (map : List Unwrapped) : List Entry :=
  (withTimeouts start map).map (Entry.opened half start)

variable {half : Bool} {start now : Nat} {map : List Unwrapped} {es : List Entry}

theorem follows_openedMap (half : Bool) (start : Nat) (map : List Unwrapped) :
    Forall₂ (fun u e => Entry.Follows half start start u e) map (openedMap half start map) := by
  rw [openedMap, withTimeouts, List.map_map, List.forall₂_map_right_iff]
  exact List.forall₂_same.mpr fun u _ => Entry.follows_opened half start u

/-- **One step of a map.** Whatever happens to one entry, the others stay as they are. -/
theorem Timed.follows {state state' : Nat × List Entry} (h : Timed half state state')
    (hall : Forall₂ (fun u e => Entry.Follows half start state.1 u e) map state.2) :
    Forall₂ (fun u e => Entry.Follows half start state'.1 u e) map state'.2 := by
  cases h with
  | goes he hst hshown htie => exact forall₂_set hall he fun _ hu => hu.goes hst hshown htie
  | looks he outside => exact forall₂_set hall he fun _ hu => hu.looks outside
  | @passes now next es hlt hidle =>
    replace hall : Forall₂ (fun u e => Entry.Follows half start now u e) map es := hall
    induction hall with
    | nil => exact .nil
    | cons hu _ ih =>
      exact .cons (hu.later hlt (hidle _ (by simp))) (ih fun e he => hidle e (List.mem_cons_of_mem _ he))

/-- An entry is resolved once. -/
theorem Timed.answered {state state' : Nat × List Entry} (h : Timed half state state') :
    Forall₂ (fun e e' => ∀ p, e.answered = some p → e'.answered = some p) state.2 state'.2 := by
  have hrefl (es : List Entry) : Forall₂ (fun e e' : Entry =>
      ∀ p, e.answered = some p → e'.answered = some p) es es :=
    List.forall₂_same.mpr fun _ _ _ hp => hp
  have hnote {now : Nat} {e : Entry} {t : Sink} (p : Nat × Outcome) (hp : e.answered = some p) :
      (e.note half now t).answered = some p := by rw [Entry.note, hp]; rfl
  cases h with
  | goes he _ _ _ => exact forall₂_set (hrefl _) he fun a ha p hp => hnote p (ha p hp)
  | looks he outside => exact forall₂_set (hrefl _) he fun a ha p hp => hnote p (ha p hp)
  | passes _ _ => exact hrefl _

/-- After a look its timer no longer waits for this instant. -/
theorem Sink.timer?_look (half : Bool) (s : Sink) (outside : Outside) (now : Nat) :
    (s.look half outside now).1.timer? half ≠ some now := by
  have hlooks := s.looksAt_look half outside now
  generalize s.look half outside now = looked at hlooks
  cases hlooks with
  | unwatched hw => simp [Sink.timer?, hw]
  | resolved hw hseen => simp [Sink.timer?, hw, hseen]
  | waits hw hseen _ hnow =>
    simp only [Sink.timer?, hw, hseen]
    exact fun heq => Nat.lt_irrefl now (Option.some.inj heq ▸ hnow)
  | relays hw hseen hown => simp [Sink.timer?]
  | expires hw hseen hown hnow =>
    simp only [Sink.timer?, Sink.watch_cancel]
    simp

/-- Everything that is done to a sink at an instant is a row of steps of the map of what is done, unless
its outcome comes just when its bound passes. -/
theorem timed_settle {k : Nat} {e : Entry} (he : es[k]? = some e) (outside : Outside)
    (htie : e.sink.timer? false = some now → e.sink.own false = none →
      (e.sink.advance outside now).1.own false = none) :
    ∃ e', e'.sink = (e.sink.settle outside now).1 ∧
      ReflTransGen (Timed false) (now, es) (now, es.set k e') := by
  have hget (e' : Entry) : (es.set k e')[k]? = some e' :=
    List.getElem?_set_self (List.getElem?_eq_some_iff.mp he).1
  -- The sink goes on, its timer looks, and then the timer of the half-close does.
  obtain ⟨e₁, hsink₁, hfirst⟩ : ∃ e₁, e₁.sink = (e.sink.advance outside now).1 ∧
      Timed false (now, es) (now, es.set k e₁) := by
    refine ⟨_, rfl, .goes he (e.sink.onward_advance outside now) (fun hw => ?_) htie⟩
    obtain ⟨w, hw⟩ := Option.ne_none_iff_exists'.mp hw
    rw [Sink.shown_of_watch hw, Sink.shown_of_watch ((Sink.watch_advance e.sink).trans hw)]
  obtain ⟨e₂, hsink₂, hsecond⟩ : ∃ e₂,
      e₂.sink = (e₁.sink.watchDone (e.sink.advance outside now).2.1 now).1 ∧
      Timed false (now, es.set k e₁) (now, es.set k e₂) := by
    have hlooks : Timed false (now, es.set k e₁) (now, (es.set k e₁).set k _) :=
      .looks (hget e₁) (e.sink.advance outside now).2.1
    rw [List.set_set] at hlooks
    exact ⟨_, rfl, hlooks⟩
  generalize houtside : (e₁.sink.watchDone (e.sink.advance outside now).2.1 now).2 = outside₂
  obtain ⟨e₃, hsink₃, hthird⟩ : ∃ e₃, e₃.sink = (e₂.sink.watchHalf outside₂ now).1 ∧
      Timed false (now, es.set k e₂) (now, es.set k e₃) := by
    have hgoes : Timed false (now, es.set k e₂) (now, (es.set k e₂).set k _) :=
      .goes (hget e₂) (e₂.sink.onward_watchHalf outside₂ now)
        (fun _ => Sink.done_watchHalf e₂.sink outside₂ now) fun htimer _ => by
          rw [hsink₂] at htimer
          exact absurd htimer (Sink.timer?_look false _ _ now)
    rw [List.set_set] at hgoes
    exact ⟨_, rfl, hgoes⟩
  refine ⟨e₃, ?_, ((ReflTransGen.single hfirst).tail hsecond).tail hthird⟩
  rw [hsink₃, hsink₂, ← houtside, hsink₁, Sink.settle_fst]

/-- **A map with timeouts.** Its sinks are those of the map that was wrapped, in their order. Whatever
happens to them, every entry with a bound is in one of the four phases: it waits, no longer than its bound;
or the outcome has just come; or it has resolved to the outcome of its own sink at the instant at which
that came, before the bound; or it has resolved to the timeout of its sink and its bound, just when the
bound passed, and the sink was cancelled. Nobody else is cancelled by a timer. An entry without a bound,
or whose outcome was known, resolves as its sink does. A timer is there only as long as its entry is
open.

Closing a stream wraps the map of its sinks, of which nothing is known yet, and settling one of them is a
row of steps of the map of what is done. It is none of the map of the half-closes: there the timer of being
done, which looks first, may cancel a sink at the very instant at which its bound passes. -/
theorem timed_entries (hrun : ReflTransGen (Timed half) (start, openedMap half start map) (now, es)) :
    (withTimeouts start map).map (fun s => (s.bound, s.body)) =
      map.map (fun u => (u.sink.bound, u.sink.body)) ∧
    Forall₂ (fun u e => Entry.Follows half start now u e ∧ Entry.Attended half start now u e) map es ∧
    (∀ later es', ReflTransGen (Timed half) (now, es) (later, es') →
      Forall₂ (fun e e' => ∀ p, e.answered = some p → e'.answered = some p) es es') ∧
    ((∀ u ∈ map, u.known = .unresolved) →
      withTimeouts start map = (map.map Unwrapped.sink).map (Sink.startWatch · start)) ∧
    (half = false → ∀ (k : Nat) e (outside : Outside), es[k]? = some e →
      (e.sink.timer? half = some now → e.sink.own half = none →
        (e.sink.advance outside now).1.own half = none) →
      ∃ e', e'.sink = (e.sink.settle outside now).1 ∧
        ReflTransGen (Timed half) (start, openedMap half start map) (now, es.set k e')) := by
  have hfollows : ∀ {state}, ReflTransGen (Timed half) (start, openedMap half start map) state →
      Forall₂ (fun u e => Entry.Follows half start state.1 u e) map state.2 := by
    intro state h
    induction h with
    | refl => exact follows_openedMap half start map
    | tail _ hstep ih => exact hstep.follows ih
  refine ⟨?_, (hfollows hrun).imp fun u e h => ⟨h, h.attended⟩, fun later es' hmore => ?_,
    withTimeouts_of_unresolved start, fun hhalf k e outside he htie => ?_⟩
  · rw [withTimeouts, List.map_map]
    refine List.map_congr_left fun u _ => ?_
    simp only [Function.comp_apply, Sink.startWatchKnowing]
    split <;> rfl
  · have hanswered : ∀ {state}, ReflTransGen (Timed half) (now, es) state →
        Forall₂ (fun e e' : Entry => ∀ p, e.answered = some p → e'.answered = some p) es state.2 := by
      intro state h
      induction h with
      | refl => exact List.forall₂_same.mpr fun _ _ _ hp => hp
      | tail _ hstep ih => exact forall₂_trans ih hstep.answered fun h k p hp => k p (h p hp)
    exact hanswered hmore
  · subst hhalf
    obtain ⟨e', hsink, hsettles⟩ := timed_settle he outside htie
    exact ⟨e', hsink, hrun.trans hsettles⟩

/-- Of two uploads that never end only the one with a bound is cancelled, when that has passed. -/
theorem timed_entries_two :
    let stuck : Unwrapped := ⟨.new 10 (.responder (.new "a" none none)), .unresolved, rfl, .refl _⟩
    let free : Unwrapped := ⟨.new 0 (.responder (.new "b" none none)), .unresolved, rfl, .refl _⟩
    ∃ es, ReflTransGen (Timed false) (0, openedMap false 0 [stuck, free]) (10, es) ∧
      es.map Entry.answered = [some (10, .failed (.closeTimeout "a" 10)), none] ∧
      es.map (·.sink.isCancelled) = [true, false] ∧
      Forall₂ (fun u e => Entry.Follows false 0 10 u e) [stuck, free] es := by
  intro stuck free
  have hpasses : Timed false (0, openedMap false 0 [stuck, free])
      (10, openedMap false 0 [stuck, free]) := by
    refine .passes (by decide) fun e he d hd => ?_
    rcases List.mem_cons.mp he with rfl | he
    · cases hd
      exact ⟨rfl, by decide⟩
    · rw [List.mem_singleton.mp he] at hd
      cases hd
  have hfirst : (openedMap false 0 [stuck, free])[0]? =
      some (.opened false 0 (stuck.sink.startWatchKnowing .unresolved 0)) := rfl
  have hlooks := @Timed.looks false 10 _ _ _ hfirst .fresh
  have hrun := (ReflTransGen.single hpasses).tail hlooks
  exact ⟨_, hrun, rfl, rfl, (timed_entries hrun).2.1.imp fun _ _ h => h.1⟩

end EventUpload
