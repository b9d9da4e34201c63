import EventUpload.Proofs.Lifecycle.Closures
import EventUpload.Proofs.Lifecycle.CutShort
import EventUpload.Proofs.Lifecycle.Punctual

/-!
# How long a host waits, and what it is told meanwhile

A host that waits for the end of an invocation is told every second that the wait goes on, and how long
it can take at most (`expectedWait`). That is no empty promise: whatever the host does meanwhile, and
whoever else waits, the wait is over by then. For a sink without a bound it is the cap that sees to
this; if every sink has a bound, somebody who is not over has his bound ahead, and the run goes no
further than that (`le_longest_of_due`).

So a wait has given, at any time, one word for every second that has passed and no other ones (`Beats`),
and when it is over no word is given any more (`Hasty.waits_as_told`).

The number of words is settled by the instant. A word is due when a second is over and the wait still
goes on at the end of that instant, so a second that is over just when the wait is has none;
`secondsBefore` is strict for this reason. The state of the call has the next second that is due, and
`endInstant_finish` is the one place where it is moved.

`Beats` and `Beaten` are the two states of a wait, and `Beats.step` has one case for each way to
proceed. What makes the cases alike is that all of them but time leave the clock and the words alone
(`Beats.stays`); what ends the call comes to `Beats.ends`.
-/

set_option autoImplicit false

namespace EventUpload

open Relation (ReflTransGen)
open Lifecycle

/-! ## The words of a wait

Times are counted from the start of the wait. The text of a word has the second and the longest wait in
it, and is the same whoever asks for it. -/

/-- The seconds that are over before a time in milliseconds: the one that is over just then is not. -/
def secondsBefore (d : Nat) : List Nat := (List.range d).filter fun k => 0 < k ∧ 1000 * k < d

/-- The word after some seconds of a wait. -/
def waitingWord (i start longest k : Nat) : Posted :=
  ⟨start + 1000 * k, .invocation i, .message ⟨.progress,
    "Waiting for Build Event Protocol upload. Waited " ++ toString k ++ "s, waiting at most "
      ++ toString (longest / 1000) ++ "s."⟩⟩

/-- The words of a wait that has lasted for some time. -/
def waitingWords (i start longest d : Nat) : List Posted :=
  (secondsBefore d).map (waitingWord i start longest)

theorem secondsBefore_eq {d j : Nat} (h : j = 0 ∨ 1000 * j < d) (hle : d ≤ 1000 * (j + 1)) :
    secondsBefore d = List.range' 1 j := by
  have hlate (n : Nat) : ((List.range n).map (j + 1 + ·)).filter
      (fun k => decide (0 < k ∧ 1000 * k < d)) = [] := by
    refine List.filter_eq_nil_iff.mpr fun k hk => ?_
    obtain ⟨e, -, rfl⟩ := List.mem_map.mp hk
    simp only [decide_eq_true_eq]
    omega
  unfold secondsBefore
  rcases Nat.eq_zero_or_pos d with rfl | hpos
  · obtain rfl : j = 0 := by omega
    rfl
  · obtain ⟨n, rfl⟩ : ∃ n, d = j + 1 + n := ⟨d - (j + 1), by omega⟩
    have hfirst : ((List.range (j + 1)).filter fun k => decide (0 < k ∧ 1000 * k < j + 1 + n)) =
        List.range' 1 j := by
      rw [List.range_eq_range', List.range'_succ, List.filter_cons_of_neg (by simp)]
      refine List.filter_eq_self.mpr fun k hk => ?_
      rw [List.mem_range'_1] at hk
      simp only [decide_eq_true_eq]
      omega
    rw [List.range_add, List.filter_append, hlate, hfirst, List.append_nil]

theorem waitingWords_eq {i start longest d j : Nat} (h : j = 0 ∨ 1000 * j < d)
    (hle : d ≤ 1000 * (j + 1)) :
    waitingWords i start longest d = (List.range' 1 j).map (waitingWord i start longest) := by
  rw [waitingWords, secondsBefore_eq h hle]

/-- What a wait says when a second is over. -/
theorem wordsTo_waiting {m : Lifecycle} {start k : Nat} (i longest : Nat) (h : m.now = start + 1000 * k) :
    (m.say (.invocation i) .progress (stillWaiting (m.now - start) longest)).wordsTo i =
      m.wordsTo i ++ [waitingWord i start longest k] := by
  obtain ⟨waited, hwaited⟩ : ∃ waited, m.now - start = waited := ⟨_, rfl⟩
  obtain rfl : waited / 1000 = k := by omega
  rw [wordsTo, say, posts_tell, List.filter_cons_of_pos (by simp [Posted.isWordTo]), List.filter_nil,
    hwaited, waitingWord, ← h]
  rfl

/-- At the end of an instant a wait gives the word of a second that is over just then, if there is one, and
the next word will be that of the second after. -/
theorem endInstant_finish {m : Lifecycle} {i start longest j : Nat} (deadline : Nat)
    (noticed : List Bool) (hle : m.now ≤ start + 1000 * (j + 1)) (hlate : j = 0 ∨ start + 1000 * j < m.now)
    (hwords : m.wordsTo i = (List.range' 1 j).map (waitingWord i start longest)) :
    ∃ n next, (next = 0 ∨ start + 1000 * next ≤ m.now) ∧
      m.now < start + 1000 * (next + 1) ∧
      m.endInstant (.finish i start deadline noticed longest (start + 1000 * (j + 1))) =
        (n, .finish i start deadline noticed longest (start + 1000 * (next + 1))) ∧
      n.wordsTo i = (List.range' 1 next).map (waitingWord i start longest) := by
  by_cases hword : start + 1000 * (j + 1) ≤ m.now
  · have hnow : m.now = start + 1000 * (j + 1) := Nat.le_antisymm hle hword
    have hsum : start + 1000 * (j + 1) + 1000 = start + 1000 * (j + 1 + 1) := by omega
    refine ⟨m.say (.invocation i) .progress (stillWaiting (m.now - start) longest), j + 1, .inr hword,
      by omega, ?_, ?_⟩
    · rw [endInstant, if_pos hword, hsum]
    · rw [wordsTo_waiting i longest hnow, hwords, List.range'_concat, List.map_append, Nat.one_mul,
        Nat.add_comm 1 j]
      rfl
  · exact ⟨m, j, hlate.imp_right Nat.le_of_lt, Nat.lt_of_not_le hword, if_neg hword, hwords⟩

theorem expectedWait_of_roster {cap : Nat} {v w : Invocation} (h : w.roster = v.roster) :
    expectedWait cap w.sinks = expectedWait cap v.sinks := by
  have hbounds : w.sinks.map Sink.bound = v.sinks.map Sink.bound := by
    have hsinks := congrArg (fun p : CommandIds × List (String × Nat) => p.2.map Prod.snd) h
    simpa [Invocation.roster, rosterOf, Function.comp_def] using hsinks
  have hany (sinks : List Sink) : (sinks.any (·.bound = 0)) = (sinks.map Sink.bound).any (· = 0) := by
    rw [List.any_map]
    rfl
  unfold expectedWait
  rw [hany, hany, hbounds]

/-- A number is no greater than the greatest. -/
theorem le_foldl_max {ns : List Nat} {n : Nat} (h : n ∈ ns) (first : Nat) : n ≤ ns.foldl max first := by
  have hfirst (ns : List Nat) : ∀ first, first ≤ ns.foldl max first := by
    induction ns with
    | nil => exact fun first => Nat.le_refl first
    | cons m ns ih => exact fun first => Nat.le_trans (Nat.le_max_left first m) (ih (max first m))
  induction ns generalizing first with
  | nil => exact absurd h (by simp)
  | cons m ns ih =>
    rcases List.mem_cons.mp h with rfl | h
    · exact Nat.le_trans (Nat.le_max_right first n) (hfirst ns _)
    · exact ih h _

/-- The instant of a reply. -/
def Reply.time : Reply → Nat
  | .answer _ time => time
  | .dropped time => time

namespace Run

variable {r s : Run} {i k start cap longest word t : Nat} {noticed : List Bool} {call : Call}
  {before : List Posted} {v : Invocation}

/-! ## The bound that is shown is a true one

`expectedWait` is computed once, from the bounds and the cap. That it is kept to is a matter of which
instants are due, and here it is shown that one of them lies in front of it. -/

/-- A sink that is not over when the instant is has the end of its time ahead. -/
theorem due_of_watch {sink : Sink} {w : Watch} (hv : r.settle.lifecycle.invocation? i = some v)
    (hs : sink ∈ v.sinks) (hw : sink.watch = some w) (hopen : sink.seen.done.isSome = false) :
    r.lifecycle.now < w.deadline ∧ w.deadline ∈ r.settle.leaveInstant.dueInstants := by
  refine ⟨?_, List.mem_append_left _ (List.mem_flatMap.mpr ⟨sink, List.mem_append_left _ ?_, ?_⟩)⟩
  · by_contra hpast
    have hdone := over_of_settle hv hs hw (Nat.not_lt.mp hpast)
    exact absurd (hopen.symm.trans hdone) (by simp)
  · rw [leaveInstant, invocations_endInstant]
    exact List.mem_flatMap.mpr ⟨v, List.mem_of_getElem? hv, hs⟩
  · rw [Sink.seen_of_watch hw] at hopen
    refine List.mem_append_right _ ?_
    rw [hw]
    simp [Option.isSome_eq_false_iff.mp hopen]

/-- **Nobody waits longer than he is told.** When the instant is over and the call still waits, something is
due no later than the longest wait that is to be expected. -/
theorem le_longest_of_due (hr : r.Hasty) (hnext : ∀ u, r.next? = some u → t ≤ u)
    (hcall : r.settle.calls[k]? =
      some (.waiting (.finish i start (start + cap) noticed longest word) none))
    (hv : r.settle.lifecycle.invocation? i = some v) : t ≤ start + expectedWait cap v.sinks := by
  obtain ⟨w, hw, hopen, hlt⟩ : r.settle.lifecycle.HasToWait
      (.finish i start (start + cap) noticed longest word) :=
    (rests_settle r).calls _ none (List.mem_of_getElem? hcall)
  rw [now_settle] at hlt
  cases hv.symm.trans hw
  obtain ⟨w, hawaited⟩ := hr.settle.awaited (List.mem_of_getElem? hcall)
  cases hv.symm.trans hawaited.invocation
  have hcap : t ≤ start + cap := by
    obtain ⟨next, hcalls, hcore⟩ := Waits.leaveInstant ⟨_, hcall, rfl⟩
    have hdeadline : next.deadline = start + cap := by
      rw [← Call.deadline_core, hcore]
      rfl
    refine le_of_due hnext (List.mem_append_right _ (List.mem_flatMap.mpr
      ⟨_, List.mem_of_getElem? hcalls, ?_⟩)) hlt
    rw [← hdeadline]
    exact List.mem_append_right _ next.deadline_mem
  unfold expectedWait
  split
  · exact hcap
  · next hbounded =>
    -- Every sink has a bound, and one of them is not over: its time is not over either.
    obtain ⟨s, hs, hseen⟩ : ∃ s ∈ v.sinks, s.seen.done.isSome = false := by
      simpa [Invocation.allDone, List.all_eq_false] using hopen
    have hb : s.bound ≠ 0 := fun hzero => hbounded (List.any_eq_true.mpr ⟨s, hs, by simp [hzero]⟩)
    have hwatch := hawaited.watched s hs
    rw [if_neg hb] at hwatch
    obtain ⟨watch, hw, hdeadline⟩ := Option.map_eq_some_iff.mp hwatch
    obtain ⟨hahead, hdue⟩ := due_of_watch hv hs hw hseen
    have hle : t ≤ start + s.bound := hdeadline ▸ le_of_due hnext hdue hahead
    have hmax := le_foldl_max (List.mem_map_of_mem (f := Sink.bound) hs) 0
    omega

/-! ## While the call waits

A proof by cases of a step that the run can make, as it is for everything that is said of a waiting
call. The cases in which another call is made or answered change nothing that is looked at. -/

/-- A call has been waiting for the end of an invocation since an instant, and as long as it may; it has
given the words that it had to give. -/
structure Beats (i k start cap longest : Nat) (s : Run) : Prop where
  hasty : s.Hasty
  /-- The last second that has been told of is over, and the next one is not. -/
  waits : ∃ noticed j, s.calls[k]? =
      some (.waiting (.finish i start (start + cap) noticed longest (start + 1000 * (j + 1))) none) ∧
    (j = 0 ∨ start + 1000 * j < s.lifecycle.now) ∧ s.lifecycle.now ≤ start + 1000 * (j + 1)
  since : start ≤ s.lifecycle.now
  within : s.lifecycle.now ≤ start + longest
  words : s.lifecycle.wordsTo i = waitingWords i start longest (s.lifecycle.now - start)
  sinks : ∃ v, s.lifecycle.invocation? i = some v ∧ expectedWait cap v.sinks = longest

/-- The call is over, and it has given the words of the time that it has waited. -/
structure Beaten (i k start longest : Nat) (reply : Reply) (s : Run) : Prop where
  hasty : s.Hasty
  replied : s.calls[k]? = some (.finished reply)
  since : start ≤ reply.time
  within : reply.time ≤ start + longest
  words : s.lifecycle.wordsTo i = waitingWords i start longest (reply.time - start)
  unattended : Unattended i (s.lifecycle, s.errands)

theorem Beaten.later {reply : Reply} (h : r.Beaten i k start longest reply)
    (hs : ReflTransGen Proceeds r s) (hk : s.calls[k]? = some (.finished reply)) :
    s.Beaten i k start longest reply where
  hasty := h.hasty.of_proceeds hs
  replied := hk
  since := h.since
  within := h.within
  words := (silent_of_proceeds h.hasty h.unattended hs).trans h.words
  unattended := unattended_of_proceeds h.hasty h.unattended hs

theorem Beaten.step {reply : Reply} (h : r.Beaten i k start longest reply) (hs : r.Punctual s) :
    s.Beaten i k start longest reply :=
  h.later (hs.proceeds h.hasty) (hs.finished h.replied)

namespace Beats

/-- The bounds of the sinks are the ones that were registered. -/
theorem sinks_of_proceeds (h : r.Beats i k start cap longest) (hs : ReflTransGen Proceeds r s) :
    ∃ v, s.lifecycle.invocation? i = some v ∧ expectedWait cap v.sinks = longest := by
  obtain ⟨v, hv, rfl⟩ := h.sinks
  obtain ⟨w, hw, hroster⟩ := h.hasty.roster_of_proceeds hs hv
  exact ⟨w, hw, expectedWait_of_roster hroster⟩

theorem published (h : r.Beats i k start cap longest) : .published i ∈ r.lifecycle.journal := by
  obtain ⟨noticed, j, hcall, -⟩ := h.waits
  obtain ⟨v, hv⟩ := h.hasty.awaited (List.mem_of_getElem? hcall)
  exact hv.published

/-- Nothing happens to the call, and no time passes. -/
theorem stays (h : r.Beats i k start cap longest) (hs : ReflTransGen Proceeds r s)
    (hcalls : ∀ call, r.calls[k]? = some (.waiting call none) → s.calls[k]? = some (.waiting call none))
    (hnow : s.lifecycle.now = r.lifecycle.now)
    (hwords : s.lifecycle.wordsTo i = r.lifecycle.wordsTo i) : s.Beats i k start cap longest where
  hasty := h.hasty.of_proceeds hs
  waits := by
    obtain ⟨noticed, j, hcall, hbetween⟩ := h.waits
    exact ⟨noticed, j, hcalls _ hcall, hnow ▸ hbetween⟩
  since := hnow ▸ h.since
  within := hnow ▸ h.within
  words := by rw [hwords, hnow, h.words]
  sinks := h.sinks_of_proceeds hs

/-- The call comes to its end. -/
theorem ends {reply : Reply} (h : r.Beats i k start cap longest) (hs : ReflTransGen Proceeds r s)
    (hk : s.calls[k]? = some (.finished reply)) (htime : reply.time = r.lifecycle.now)
    (hwords : s.lifecycle.wordsTo i = r.lifecycle.wordsTo i) (hnobody : (i, .wait) ∉ s.errands) :
    s.Beaten i k start longest reply where
  hasty := h.hasty.of_proceeds hs
  replied := hk
  since := htime ▸ h.since
  within := htime ▸ h.within
  words := by rw [hwords, htime, h.words]
  unattended := ⟨h.hasty.published_of_proceeds hs h.published, hnobody⟩

/-- **Everything that can be done at an instant is done.** The call goes on, or it is answered. -/
theorem settles (h : r.Beats i k start cap longest) : r.settle.Beats i k start cap longest ∨
    ∃ reply, r.settle.Beaten i k start longest reply := by
  obtain ⟨noticed, j, hcall, hbetween⟩ := h.waits
  have hs := h.hasty.proceeds_settle
  have hsole := (h.hasty.sole hcall rfl).settle h.hasty.patient
  rcases settle_call hcall with ⟨next, hnext, hcore, hword⟩ | ⟨a, ha⟩
  · obtain ⟨noticed', word', rfl⟩ := Call.core_finish hcore
    cases hword
    refine .inl ⟨h.hasty.settle, ⟨noticed', j, hnext, ?_⟩, ?_, ?_, ?_, h.sinks_of_proceeds hs⟩
    · rw [now_settle]
      exact hbetween
    · rw [now_settle]
      exact h.since
    · rw [now_settle]
      exact h.within
    · rw [wordsTo_settle, now_settle]
      exact h.words
  · exact .inr ⟨_, h.ends hs ha rfl (wordsTo_settle r) (hsole.nobody ha)⟩

/-- **Time goes on.** A word is given if a second is over, and the call does not wait too long. -/
theorem moves (h : r.Beats i k start cap longest) (hlt : r.lifecycle.now < t)
    (hnext : ∀ u, r.next? = some u → t ≤ u) : (r.moved t).Beats i k start cap longest ∨
      ∃ reply, (r.moved t).Beaten i k start longest reply := by
  have hs := h.hasty.proceeds_moved hlt
  rcases h.settles with hsettled | ⟨reply, hover⟩
  · left
    obtain ⟨noticed, j, hcall, hlate, hle⟩ := hsettled.waits
    obtain ⟨v, hv, hlongest⟩ := hsettled.sinks
    have hwithin := le_longest_of_due h.hasty hnext hcall hv
    have hsince := hsettled.since
    have hwords := hsettled.words
    obtain ⟨m, hnow, hbefore, hgiven, hleft⟩ := leaveInstant_word hcall (hsettled.hasty.sole hcall rfl) i
    rw [now_settle] at hnow hlate hle hsince hwords
    rw [waitingWords_eq (j := j) (by omega) (by omega), ← hbefore] at hwords
    rw [← hnow] at hlate hle
    obtain ⟨n, next, hpast, hahead, hend, hsaid⟩ :=
      endInstant_finish (start + cap) noticed hle hlate hwords
    rw [hend] at hleft hgiven
    have hdue : t ≤ start + 1000 * (next + 1) :=
      le_of_due hnext (List.mem_append_right _ (List.mem_flatMap.mpr
        ⟨_, List.mem_of_getElem? hleft, List.mem_cons_of_mem _ (List.mem_singleton.mpr rfl)⟩))
        (hnow ▸ hahead)
    refine ⟨h.hasty.of_proceeds hs, ⟨noticed, next, hleft, ?_, hdue⟩, ?_, hlongest ▸ hwithin, ?_,
      h.sinks_of_proceeds hs⟩
    · show next = 0 ∨ start + 1000 * next < t
      omega
    · show start ≤ t
      omega
    · show (r.moved t).lifecycle.wordsTo i = waitingWords i start longest (t - start)
      rw [waitingWords_eq (j := next) (by omega) (by omega)]
      exact hgiven.trans hsaid
  · refine .inr ⟨reply, hover.later ?_ (finished_leaveInstant hover.replied)⟩
    exact h.hasty.settle.proceeds_left (by rw [now_settle]; exact Nat.le_of_lt hlt)

/-- **One thing happens.** -/
theorem step (h : r.Beats i k start cap longest) (hs : r.Punctual s) :
    s.Beats i k start cap longest ∨ ∃ reply, s.Beaten i k start longest reply := by
  have hproceeds := hs.proceeds h.hasty
  obtain ⟨noticed, j, hcall, -⟩ := h.waits
  have happend (p : Pending) (call : Call) (hk : r.calls[k]? = some (.waiting call none)) :
      (r.calls ++ [p])[k]? = some (.waiting call none) :=
    (List.getElem?_append_left (List.getElem?_eq_some_iff.mp hk).1).trans hk
  cases hs with
  | settles => exact h.settles
  | moves hlt hnext => exact h.moves hlt hnext
  | call c hc hfresh =>
    left
    refine h.stays hproceeds (fun call hk => happend _ call hk) ?_ ?_
    · -- Only the end of the process is accepted while the host waits.
      have hbusy : ¬ r.IsFree := not_isFree (List.mem_of_getElem? hcall) (by simp [Call.role])
      cases c with
      | crash => exact now_asked r .crash
      | shutdown => exact now_asked r .shutdown
      | before => exact absurd hc hbusy
      | start ids sinks => exact absurd hc.1 hbusy
      | finish mode => exact absurd hc hbusy
      | abandon => exact absurd hc hbusy
    · rw [lifecycle_call]
      exact wordsTo_make c r.lifecycle
  -- A refused call adds a line to the log and perhaps a stray sink, which no wait looks at.
  | refused hc hp =>
    obtain ⟨⟨strays, hsame⟩, -⟩ := refused_call hc hp
    refine .inl (h.stays hproceeds (fun call hk => happend _ call hk) ?_ ?_)
    · rw [hsame]
    · rw [hsame]
      rfl
  | deed index d => exact .inl (h.stays hproceeds (fun call hk => hk) rfl rfl)
  | @drop s dropped hrole hd =>
    right
    obtain ⟨hdropped, -⟩ := hd.finish hrole
    obtain ⟨-, earlier, later, hcalls, hleft⟩ := hd.split
    obtain ⟨index, herrand⟩ := errand_finish hrole
    -- Nobody else waits for the end of an invocation.
    obtain rfl : earlier.length = k := h.hasty.sole hcall rfl _ dropped none (by rw [hcalls]; simp)
      (by rw [herrand])
    refine ⟨.dropped r.lifecycle.now, h.ends hproceeds (by rw [hleft]; simp) rfl ?_ ?_⟩
    · rw [hdropped]
      exact wordsTo_leaveClosing r.lifecycle
    · obtain ⟨⟨ws, hledger⟩, -⟩ := h.hasty.voiced
      rw [errands_split hcalls] at hledger
      rw [errands_split hleft]
      have hfirst : [Pending.waiting dropped none].filterMap Pending.errand? = [(index, .wait)] :=
        congrArg (fun e => [e]) herrand
      rw [hfirst] at hledger
      exact hledger.alone i

end Beats

/-! ## From the call on

The first look is part of the call, so a wait may be over as soon as it begins; then there are no words. -/

/-- An invocation that has not ended has been given no word. -/
theorem Hasty.unspoken (h : r.Hasty) (hi : .published i ∉ r.lifecycle.journal) :
    r.lifecycle.wordsTo i = [] := by
  refine h.induct (P := fun r => .published i ∉ r.lifecycle.journal → r.lifecycle.wordsTo i = [])
    (fun _ _ _ => rfl) ?_ hi
  intro r s hr ih hs hi
  have hbefore : .published i ∉ r.lifecycle.journal := fun hpub => hi (hs.published hr.orderly hpub)
  exact (hs.wordsTo fun hmem => hbefore (hr.published_of_errand hmem)).trans (ih hbefore)

/-- **The end of an invocation is asked for.** The call waits, or it is answered at once. -/
theorem Hasty.begins (h : r.Hasty) (ha : r.lifecycle.active = some i)
    (hv : r.lifecycle.invocation? i = some v) :
    (r.call (HostCall.finish .blocking).make none).Beats i r.calls.length r.lifecycle.now
        r.lifecycle.limits.blocking (expectedWait r.lifecycle.limits.blocking v.sinks) ∨
      ∃ reply, (r.call (HostCall.finish .blocking).make none).Beaten i r.calls.length r.lifecycle.now
        (expectedWait r.lifecycle.limits.blocking v.sinks) reply := by
  obtain ⟨hphase, -, hnew, -⟩ := h.orderly.active i ha
  obtain ⟨hasty, hpub⟩ := h.published_finish ha .blocking
  obtain ⟨w, hw, hroster⟩ := exists_ended hv .blocking
  have hwords : (r.call (HostCall.finish .blocking).make none).lifecycle.wordsTo i = [] := by
    rw [lifecycle_call]
    exact (wordsTo_make _ _).trans (h.unspoken hnew)
  have hmake : (HostCall.finish .blocking).make r.lifecycle =
      (r.lifecycle.closing i).check (r.lifecycle.finishCall i w) := finish_blocking_eq hphase ha hw
  cases hcheck : (r.lifecycle.closing i).check (r.lifecycle.finishCall i w) with
  | mk m progress =>
    have hnow : m.now = r.lifecycle.now := now_of_check_closing hcheck
    have hcall : r.call (HostCall.finish .blocking).make none =
        ⟨m, r.calls ++ [(after m progress none).2]⟩ := by
      rw [Run.call, hmake, hcheck]
      cases progress <;> rfl
    rw [hcall] at hasty hpub hwords ⊢
    have hmine : (r.calls ++ [(after m progress none).2])[r.calls.length]? =
        some (after m progress none).2 := List.getElem?_concat_length
    -- A call that goes on to wait has its plan from its first look; one that is answered at once has
    -- told the sinks nothing yet.
    cases progress with
    | waiting next =>
      left
      have hprogress := congrArg Prod.snd hcheck
      obtain ⟨noticed, word, rfl⟩ := Call.core_finish (core_check hprogress)
      have hword := nextWord?_check hprogress
      cases hword
      have hsinks : m.invocation? i = some w := by
        have hkept := congrArg (fun p : Lifecycle × Progress => p.1.invocations) hcheck
        rw [finishCall, invocations_check_finish] at hkept
        rw [invocation?, ← hkept]
        exact hw
      rw [← expectedWait_of_roster hroster]
      refine ⟨hasty, ⟨noticed, 0, hmine, .inl rfl, ?_⟩, Nat.le_of_eq hnow.symm, ?_, ?_, w, hsinks,
        rfl⟩
      · rw [hnow]
        exact Nat.le_add_right _ _
      · rw [hnow]
        exact Nat.le_add_right _ _
      · rw [hwords, hnow, Nat.sub_self]
        rfl
    | answered a =>
      refine .inr ⟨_, hasty, hmine, Nat.le_of_eq hnow.symm, ?_, ?_, hpub, fun hmem => ?_⟩
      · rw [Reply.time, hnow]
        exact Nat.le_add_right _ _
      · rw [hwords, Reply.time, hnow, Nat.sub_self]
        rfl
      · -- Nobody has waited for the end of an invocation that was active.
        rw [errands, List.filterMap_append, List.mem_append] at hmem
        rcases hmem with hmem | hmem
        · exact hnew (h.published_of_errand hmem)
        · exact absurd hmem (by simp [after, Pending.errand?])

/-- How a call stands that waits for the end of an invocation. -/
inductive KeepsTime (i k start longest : Nat) (s : Run) : Prop where
  /-- It waits, and has been given a word for every second that is over. -/
  | waits {call : Call} : s.calls[k]? = some (.waiting call none) → call.errand = (i, .wait) →
      start ≤ s.lifecycle.now → s.lifecycle.now ≤ start + longest →
      s.lifecycle.wordsTo i = waitingWords i start longest (s.lifecycle.now - start) →
      KeepsTime i k start longest s
  /-- It has been answered or dropped, and whatever happens no word is given any more. -/
  | replied {reply : Reply} : s.calls[k]? = some (.finished reply) → start ≤ reply.time →
      reply.time ≤ start + longest →
      s.lifecycle.wordsTo i = waitingWords i start longest (reply.time - start) →
      (∀ t, ReflTransGen Proceeds s t → t.lifecycle.wordsTo i = s.lifecycle.wordsTo i) →
      KeepsTime i k start longest s

theorem Beats.keepsTime (h : r.Beats i k start cap longest) : r.KeepsTime i k start longest := by
  obtain ⟨noticed, j, hcall, -⟩ := h.waits
  exact .waits hcall rfl h.since h.within h.words

theorem Beaten.keepsTime {reply : Reply} (h : r.Beaten i k start longest reply) :
    r.KeepsTime i k start longest :=
  .replied h.replied h.since h.within h.words fun _ ht => silent_of_proceeds h.hasty h.unattended ht

/-- As long as nothing is overlooked the call keeps time. -/
theorem Hasty.keepsTime (h : r.Hasty) (ha : r.lifecycle.active = some i)
    (hv : r.lifecycle.invocation? i = some v)
    (hs : ReflTransGen Punctual (r.call (HostCall.finish .blocking).make none) s) :
    s.KeepsTime i r.calls.length r.lifecycle.now
      (expectedWait r.lifecycle.limits.blocking v.sinks) := by
  have hstands : s.Beats i r.calls.length r.lifecycle.now r.lifecycle.limits.blocking
        (expectedWait r.lifecycle.limits.blocking v.sinks) ∨
      ∃ reply, s.Beaten i r.calls.length r.lifecycle.now
        (expectedWait r.lifecycle.limits.blocking v.sinks) reply := by
    induction hs with
    | refl => exact h.begins ha hv
    | tail _ hs ih =>
      rcases ih with hbeats | ⟨reply, hbeaten⟩
      · exact hbeats.step hs
      · exact .inr ⟨reply, hbeaten.step hs⟩
  rcases hstands with hbeats | ⟨reply, hbeaten⟩
  · exact hbeats.keepsTime
  · exact hbeaten.keepsTime

/-- Waiting for the reply to a call is overlooking nothing until it is there. -/
theorem punctual_perform (l : Lifecycle) (operation : Lifecycle → Lifecycle × Progress) :
    ∃ s, ReflTransGen Punctual ((ofLifecycle l).call operation none) s ∧
      perform l operation none =
        (s.lifecycle, (s.calls.head?.bind Pending.reply?).getD (.dropped s.lifecycle.now)) := by
  refine ⟨_, ?_, rfl⟩
  split
  · exact .refl
  · exact punctual_reach _ _ _

/-- The call at the end of the active invocation is answered with a report. -/
theorem Hasty.reported (h : r.Hasty) (ha : r.lifecycle.active = some i)
    (hv : r.lifecycle.invocation? i = some v) : ∃ m report time,
      perform r.lifecycle (HostCall.finish .blocking).make none = (m, .answer (.report report) time) := by
  obtain ⟨hphase, -, -, hunwatched⟩ := h.orderly.active i ha
  obtain ⟨plans, hlength, hplans⟩ := exists_plans (finishing r.lifecycle) i v.sinks
  obtain ⟨w, hw, hblocking, hall⟩ := arrived_closing hv hunwatched hlength
  obtain ⟨m, report, time, -, hreply, -⟩ := told_blocking hphase ha hw ⟨w, hw, hblocking, hall⟩ hplans
  exact ⟨m, report, time, hreply⟩

/-- **The bound that is shown is a true one, and the words of a wait are those of its seconds.** Whatever
the host does meanwhile, the call at the end of a blocking invocation waits no longer than
`expectedWait` says; when it has waited for some time the words given are one for every second before, each
of them with the seconds that have passed, which are no more than it says that there can be; and after the
reply, or when the host has dropped the call, no word is given. If the host just waits it gets a reply. -/
theorem Hasty.waits_as_told {r : Run} {i : Nat} {v : Invocation} (h : r.Hasty)
    (ha : r.lifecycle.active = some i) (hv : r.lifecycle.invocation? i = some v) :
    (∀ s, ReflTransGen Punctual (r.call (HostCall.finish .blocking).make none) s →
      s.KeepsTime i r.calls.length r.lifecycle.now
        (expectedWait r.lifecycle.limits.blocking v.sinks)) ∧
    (∀ d ≤ expectedWait r.lifecycle.limits.blocking v.sinks, ∀ k ∈ secondsBefore d,
      k ≤ expectedWait r.lifecycle.limits.blocking v.sinks / 1000) ∧
    ∃ m report d, perform r.lifecycle (HostCall.finish .blocking).make none =
        (m, .answer (.report report) (r.lifecycle.now + d)) ∧
      d ≤ expectedWait r.lifecycle.limits.blocking v.sinks ∧
      m.wordsTo i = waitingWords i r.lifecycle.now
        (expectedWait r.lifecycle.limits.blocking v.sinks) d := by
  refine ⟨fun s hs => h.keepsTime ha hv hs, fun d hd k hk => ?_, ?_⟩
  · simp only [secondsBefore, List.mem_filter, decide_eq_true_eq] at hk
    omega
  · obtain ⟨m, report, time, hreply⟩ := h.reported ha hv
    obtain ⟨s, hs, hperform⟩ := punctual_perform r.lifecycle (HostCall.finish .blocking).make
    obtain ⟨rfl, hlast⟩ := Prod.mk.inj (hperform.symm.trans hreply)
    have hkept : s.KeepsTime i 0 r.lifecycle.now (expectedWait r.lifecycle.limits.blocking v.sinks) :=
      (h.by_itself ha).keepsTime (r := ofLifecycle r.lifecycle) ha hv hs
    cases hkept with
    | waits hcall =>
      rw [List.head?_eq_getElem?, hcall] at hlast
      exact absurd hlast (by simp [Pending.reply?])
    | replied hover hsince hwithin hwords _ =>
      rw [List.head?_eq_getElem?, hover] at hlast
      obtain rfl : _ = Reply.answer (.report report) time := hlast
      refine ⟨_, report, time - r.lifecycle.now, ?_, ?_, hwords⟩
      · have hsum : r.lifecycle.now + (time - r.lifecycle.now) = time := Nat.add_sub_cancel' hsince
        rw [hreply, hsum]
      · exact Nat.sub_le_iff_le_add'.mpr hwithin

/-- A run with a sink that is never done and runs into its bound after a while, beside one that takes long. -/
def slowUpload : Run :=
  let r := ofLifecycle (.new .standard .fresh)
  let r := r.call HostCall.before.make none
  r.call (HostCall.start ⟨"b", "i"⟩
    (responders [("stuck", 2500, none), ("slow", 1800, some (1200, .done))])).make none

theorem waits_as_told_slowUpload : slowUpload.Hasty ∧ slowUpload.lifecycle.active = some 0 ∧
    ∃ m report, perform slowUpload.lifecycle (HostCall.finish .blocking).make none =
        (m, .answer (.report report) 2500) ∧
      m.wordsTo 0 = [waitingWord 0 0 2500 1, waitingWord 0 0 2500 2] := by
  have hfresh := fresh_responders [("stuck", 2500, none), ("slow", 1800, some (1200, .done))]
  have h₀ := Genuine.new .standard .fresh
  have h₁ := h₀.call .before (isFree_of_waitingCount rfl) trivial
  have hasty : slowUpload.Hasty := (h₁.call (.start ⟨"b", "i"⟩
    (responders [("stuck", 2500, none), ("slow", 1800, some (1200, .done))]))
    ⟨isFree_of_waitingCount rfl, fun s hs => (hfresh s hs).unwatched⟩ hfresh).hasty
  obtain ⟨-, -, m, report, d, hreply, -, hwords⟩ := hasty.waits_as_told (i := 0) rfl rfl
  have htime : (perform slowUpload.lifecycle (HostCall.finish .blocking).make none).2.time = 2500 := by
    decide +kernel
  have hnow : slowUpload.lifecycle.now = 0 := rfl
  have hseconds : secondsBefore 2500 = [1, 2] := secondsBefore_eq (j := 2) (by decide) (by decide)
  rw [hreply, hnow, Nat.zero_add, Reply.time] at htime
  subst htime
  rw [hnow, Nat.zero_add] at hreply
  rw [hnow, waitingWords, hseconds] at hwords
  exact ⟨hasty, rfl, m, report, hreply, hwords⟩

end Run

end EventUpload
