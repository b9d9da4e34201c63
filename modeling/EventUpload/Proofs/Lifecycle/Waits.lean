import EventUpload.Proofs.Lifecycle.Passing

/-!
# Calls that wait, and when they are answered

A call that waits is looked at again and again until it is answered. Two things about it change on the
way, what the end of an invocation has noticed and when its next word is due; `Call.core` leaves them
out. `Run.exists_answeredFrom` says what becomes of a wait, whatever it is for and whoever else is
waiting: it is answered at the first instant at which it does not go on, and that is no later than its
deadline. The look that answers it finds what has come about while only time has passed.

The deadline of a call is among the instants that are due, so a run does not skip it, and a call that is
looked at then is answered. Before the deadline nothing can be said of an instant but that the call goes
on or is over (`settle_waits`), which is why the instant is found by a search and not computed: the
first `e` at which the wait is over, with all `e < d` known to be waits.

Waiting calls are told apart by their place. An answered call keeps its place among the calls of a run,
so that of a call which was made with others waiting can still be found when these have been answered.

The section on the end of the process has what only holds of that call. It says nothing while it waits,
so it is its own core, and if nobody else is waiting it goes on if and only if it has to
(`settle_alone`): then no second round can come and answer it in the same instant.
-/

set_option autoImplicit false

namespace EventUpload

/-- What stays the same about a call as long as it waits. -/
def Call.core : Call → Call
  | .finish index start deadline _ longest _ => .finish index start deadline [] longest 0
  | .reconcile index grace deadline => .reconcile index grace deadline
  | .settle index grace deadline ending => .settle index grace deadline ending

namespace Call

variable {call next : Call}

theorem deadline_core (call : Call) : call.core.deadline = call.deadline := by cases call <;> rfl

theorem core_settle {i grace deadline : Nat} {ending : Ending}
    (h : call.core = .settle i grace deadline ending) : call = .settle i grace deadline ending := by
  cases call with
  | reconcile index grace' deadline' => exact absurd h (by simp [core])
  | finish index start deadline' noticed longest nextWord => exact absurd h (by simp [core])
  | settle index grace' deadline' ending' => exact h

end Call

namespace Lifecycle

variable {l : Lifecycle} {call next : Call}

theorem hasToWait_core : l.HasToWait call.core ↔ l.HasToWait call := by cases call <;> exact Iff.rfl

/-- Whoever has to wait has his deadline ahead. -/
theorem HasToWait.lt (h : l.HasToWait call) : l.now < call.deadline := by
  cases call with
  | reconcile i grace deadline =>
    obtain ⟨v, -, hverdict⟩ := h
    by_contra hnot
    have hle : deadline ≤ l.now := Nat.not_lt.mp hnot
    unfold reconcileVerdict? at hverdict
    split at hverdict
    · exact absurd hverdict (by simp)
    · rw [if_pos hle] at hverdict
      split at hverdict <;> exact absurd hverdict (by simp)
  | finish i start deadline noticed longest nextWord =>
    obtain ⟨v, -, -, hlt⟩ := h
    exact hlt
  | settle i grace deadline ending =>
    obtain ⟨v, -, -, hlt⟩ := h
    exact hlt

/-- Looking at a call changes no more of it than what it has noticed and said. -/
theorem core_check (h : (l.check call).2 = .waiting next) : next.core = call.core := by
  cases call with
  | reconcile i grace deadline =>
    simp only [check] at h
    split at h
    · exact absurd h (by simp)
    · split at h
      · exact absurd h (by simp)
      · cases h
        rfl
  | finish i start deadline noticed longest nextWord =>
    simp only [check] at h
    split at h
    · exact absurd h (by simp)
    · split at h
      · exact absurd h (by simp)
      · split at h
        · exact absurd h (by simp)
        · cases h
          rfl
  | settle i grace deadline ending =>
    rcases check_settle_cases l i grace deadline ending with hwait | ⟨hok, -⟩
    · cases (congrArg Prod.snd hwait).symm.trans h
      rfl
    · exact absurd (hok.symm.trans h) (by simp)

theorem core_endInstant (l : Lifecycle) (call : Call) : (l.endInstant call).2.core = call.core := by
  unfold endInstant
  split
  · split <;> rfl
  · rfl

end Lifecycle

namespace Run

open Lifecycle

variable {r : Run} {k d : Nat} {core : Call} {reply : Reply}

/-- A call of a run is waiting. -/
def Waits (r : Run) (k : Nat) (core : Call) : Prop :=
  ∃ call, r.calls[k]? = some (.waiting call none) ∧ call.core = core

/-- A wait was over at an instant: it was looked at then, and has been answered. -/
def AnsweredFrom (l : Lifecycle) (k : Nat) (core : Call) (r : Run) : Prop :=
  ∃ m call a, l.Passes m ∧ m.now = l.now ∧ call.core = core ∧ (m.check call).2 = .answered a ∧
    (m.check call).1.Passes r.lifecycle ∧ r.calls[k]? = some (.finished (.answer a l.now))

/-! ## One instant

A waiting call is followed by its place in the list of calls. It is answered in a look, or goes on. -/

theorem finished_checkCalls {calls : List Pending} (l : Lifecycle)
    (h : calls[k]? = some (.finished reply)) :
    (checkCalls l calls).2[k]? = some (.finished reply) := by
  induction calls generalizing l k with
  | nil => exact absurd h (by simp)
  | cons p rest ih =>
    cases k with
    | zero =>
      cases h
      rfl
    | succ k =>
      cases p with
      | finished other => exact ih l h
      | waiting call patience =>
        rw [checkCalls_waiting]
        exact ih _ h

theorem finished_settleRounds (rounds : Nat) (h : r.calls[k]? = some (.finished reply)) :
    (settleRounds rounds r).calls[k]? = some (.finished reply) := by
  induction rounds generalizing r with
  | zero => exact h
  | succ rounds ih =>
    unfold settleRounds
    dsimp only
    split
    · exact ih (finished_checkCalls _ h)
    · exact finished_checkCalls _ h

/-- The calls before it in the list may change the lifecycle, but a call that waits is looked at in
its turn and is in its place afterwards. -/
theorem checkCalls_waits {calls : List Pending} {call : Call} (l : Lifecycle)
    (h : calls[k]? = some (.waiting call none)) :
    Waits ⟨(checkCalls l calls).1, (checkCalls l calls).2⟩ k call.core ∨
      AnsweredFrom l k call.core ⟨(checkCalls l calls).1, (checkCalls l calls).2⟩ := by
  induction calls generalizing l k with
  | nil => exact absurd h (by simp)
  | cons p rest ih =>
    cases k with
    | zero =>
      cases h
      rw [checkCalls_waiting]
      cases hcheck : (l.check call).2 with
      | waiting next => exact .inl ⟨next, rfl, core_check hcheck⟩
      | answered a =>
        refine .inr ⟨l, call, a, .refl l, rfl, rfl, hcheck, passes_checkCalls rest _, ?_⟩
        rw [← check_now l call]
        rfl
    | succ k =>
      cases p with
      | finished other => exact ih l h
      | waiting other patience =>
        rw [checkCalls_waiting]
        have hnow : (after (l.check other).1 (l.check other).2 patience).1.now = l.now := by
          rw [now_after, check_now]
        refine (ih (after (l.check other).1 (l.check other).2 patience).1 h).imp_right ?_
        rintro ⟨m, looked, a, hm, hmnow, hcore, hanswer, hlater, hreply⟩
        exact ⟨m, looked, a, (passes_look l other patience).trans hm, hmnow.trans hnow, hcore, hanswer,
          hlater, hnow ▸ hreply⟩

/-- **One instant of a wait.** It goes on, or is over. -/
theorem settle_waits (h : r.Waits k core) :
    r.settle.Waits k core ∨ AnsweredFrom r.lifecycle k core r.settle := by
  have hrounds (rounds : Nat) : ∀ r : Run, r.Waits k core → (settleRounds rounds r).Waits k core ∨
      AnsweredFrom r.lifecycle k core (settleRounds rounds r) := by
    induction rounds with
    | zero => exact fun r h => .inl h
    | succ rounds ih =>
      rintro r ⟨call, hcall, rfl⟩
      have hnow : (checkCalls r.lifecycle.settle r.calls).1.now = r.lifecycle.now := by
        rw [now_checkCalls, settle_now]
      unfold settleRounds
      dsimp only
      rcases checkCalls_waits r.lifecycle.settle hcall with
        hwait | ⟨m, looked, a, hm, hmnow, hcore, hanswer, hlater, hreply⟩
      · split
        · refine (ih _ hwait).imp_right ?_
          rintro ⟨m, looked, a, hm, hmnow, hcore, hanswer, hlater, hreply⟩
          exact ⟨m, looked, a, ((passes_settle _).trans (passes_checkCalls _ _)).trans hm,
            hmnow.trans hnow, hcore, hanswer, hlater, hnow ▸ hreply⟩
        · exact .inl hwait
      · rw [settle_now] at hmnow hreply
        have hbefore := (passes_settle r.lifecycle).trans hm
        split
        · exact .inr ⟨m, looked, a, hbefore, hmnow, hcore, hanswer,
            hlater.trans (passes_settleRounds _ _), finished_settleRounds _ hreply⟩
        · exact .inr ⟨m, looked, a, hbefore, hmnow, hcore, hanswer, hlater, hreply⟩
  exact hrounds _ r h

/-- Whoever is still waiting when everything at an instant has been done has to. -/
theorem Waits.hasToWait (h : r.settle.Waits k core) : r.settle.lifecycle.HasToWait core := by
  obtain ⟨call, hcall, rfl⟩ := h
  exact hasToWait_core.mpr ((rests_settle r).calls call none (List.mem_of_getElem? hcall))

theorem Waits.leaveInstant (h : r.Waits k core) : r.leaveInstant.Waits k core := by
  have hcalls (calls : List Pending) (l : Lifecycle) (k : Nat) (call : Call)
      (h : calls[k]? = some (.waiting call none)) : ∃ next,
        (endInstant l calls).2[k]? = some (.waiting next none) ∧ next.core = call.core := by
    induction calls generalizing l k with
    | nil => exact absurd h (by simp)
    | cons p rest ih =>
      cases k with
      | zero =>
        cases h
        exact ⟨_, rfl, core_endInstant l call⟩
      | succ k =>
        cases p with
        | finished reply => exact ih l k h
        | waiting other patience => exact ih _ k h
  obtain ⟨call, hcall, rfl⟩ := h
  exact hcalls r.calls r.lifecycle k call hcall

/-! ## The whole wait

From instant to instant until the call is answered. Others may be answered before it. -/

/-- A wait is still there when the run arrives, if it has gone on before. -/
theorem Waits.arrival (h : r.Waits k core) (hwait : ∀ e < d, (r.arrival e).settle.Waits k core) :
    (r.arrival d).Waits k core := by
  induction d with
  | zero => exact h
  | succ d ih =>
    by_cases hn : (r.arrival d).next? = some (r.lifecycle.now + (d + 1))
    · rw [arrival_of_next hn]
      exact (hwait d (Nat.lt_succ_self d)).leaveInstant
    · rw [arrival_of_not_next hn]
      exact ih fun e he => hwait e (Nat.lt_succ_of_lt he)

/-- A run does not rest beyond an instant that is due. -/
theorem due_of_arrival {t : Nat} (hdue : t ∈ (r.arrival d).settle.leaveInstant.dueInstants)
    (hle : t ≤ r.lifecycle.now + d) : t ≤ (r.arrival d).lifecycle.now := by
  by_contra hlt
  obtain ⟨u, hu, hut⟩ := nextInstant?_le hdue (Nat.not_le.mp hlt)
  exact absurd (lt_of_arrival_next hu) (by omega)

/-- A wait that still goes on has its deadline ahead. -/
theorem Waits.lt (h : (r.arrival d).settle.Waits k core) : r.lifecycle.now + d < core.deadline := by
  by_contra hle
  obtain ⟨call, hcall, hcore⟩ := h.leaveInstant
  have hdue : core.deadline ∈ (r.arrival d).settle.leaveInstant.dueInstants := by
    refine List.mem_append_right _ (List.mem_flatMap.mpr ⟨_, List.mem_of_getElem? hcall, ?_⟩)
    rw [← hcore, Call.deadline_core]
    exact List.mem_append_right _ call.deadline_mem
  have hlt := h.hasToWait.lt
  rw [now_settle] at hlt
  exact absurd (due_of_arrival hdue (Nat.not_lt.mp hle)) (Nat.not_le.mpr hlt)

/-- **A whole wait** ends no later than its deadline, at the first instant at which it does not go on. -/
theorem exists_answeredFrom (h : r.Waits k core) : ∃ d, d ≤ core.deadline - r.lifecycle.now ∧
    (r.arrival d).lifecycle.now = r.lifecycle.now + d ∧
      AnsweredFrom (r.arrival d).lifecycle k core (r.arrival d).settle ∧
        ∀ e < d, (r.arrival e).settle.Waits k core := by
  classical
  have hex : ∃ d, ¬ (r.arrival d).settle.Waits k core :=
    ⟨core.deadline - r.lifecycle.now, fun hwait => by have := hwait.lt; omega⟩
  have hover := Nat.find_spec hex
  have hbefore (e : Nat) (he : e < Nat.find hex) : (r.arrival e).settle.Waits k core :=
    Decidable.not_not.mp (Nat.find_min hex he)
  generalize Nat.find hex = d at hover hbefore
  refine ⟨d, ?_, ?_, (settle_waits (h.arrival hbefore)).resolve_left hover, hbefore⟩
  · cases d with
    | zero => exact Nat.zero_le _
    | succ d =>
      have hlt := (hbefore d (Nat.lt_succ_self d)).lt
      omega
  · cases d with
    | zero => rfl
    | succ d =>
      by_cases hn : (r.arrival d).next? = some (r.lifecycle.now + (d + 1))
      · rw [arrival_of_next hn]
        rfl
      · -- Otherwise it had been over before.
        rw [arrival_of_not_next hn] at hover
        exact absurd (hbefore d (Nat.lt_succ_self d)) hover

/-! ## The wait at the end of the process

Of a call at the end of the process it can be said what the look that answers it has found: its uploads
are over, or its deadline has come. -/

section Settling

variable {i grace deadline : Nat} {ending : Ending}

/-- The wait was over at an instant: it was looked at then, and has been answered. -/
def SettledFrom (l : Lifecycle) (k i grace deadline : Nat) (ending : Ending) (r : Run) : Prop :=
  ∃ m, l.Passes m ∧ ¬ m.HasToWait (.settle i grace deadline ending) ∧
    (m.check (.settle i grace deadline ending)).1.Passes r.lifecycle ∧
    r.calls[k]? = some (.finished (.answer .ok l.now))

theorem waits_settle : r.Waits k (.settle i grace deadline ending) ↔
    r.calls[k]? = some (.waiting (.settle i grace deadline ending) none) := by
  constructor
  · rintro ⟨call, hcall, hcore⟩
    rwa [Call.core_settle hcore] at hcall
  · exact fun h => ⟨_, h, rfl⟩

theorem AnsweredFrom.settled {l : Lifecycle}
    (h : AnsweredFrom l k (.settle i grace deadline ending) r) :
    SettledFrom l k i grace deadline ending r := by
  obtain ⟨m, call, a, hm, -, hcore, hanswer, hlater, hreply⟩ := h
  obtain rfl := Call.core_settle hcore
  rcases check_settle_cases m i grace deadline ending with hwait | ⟨hok, hover⟩
  · exact absurd ((congrArg Prod.snd hwait).symm.trans hanswer) (by simp)
  · cases hok.symm.trans hanswer
    exact ⟨m, hm, hover, hlater, hreply⟩

/-- **The whole wait** ends no later than its deadline, and at an instant at which it is still going on
its uploads are not over. -/
theorem exists_settledFrom
    (h : r.calls[k]? = some (.waiting (.settle i grace deadline ending) none))
    (hle : r.lifecycle.now ≤ deadline) :
    ∃ d, r.lifecycle.now + d ≤ deadline ∧ (r.arrival d).lifecycle.now = r.lifecycle.now + d ∧
      SettledFrom (r.arrival d).lifecycle k i grace deadline ending (r.arrival d).settle ∧
      ∀ e < d, (r.arrival e).settle.calls[k]? =
          some (.waiting (.settle i grace deadline ending) none) ∧
        (r.arrival e).settle.lifecycle.HasToWait (.settle i grace deadline ending) := by
  obtain ⟨d, hd, hnow, hanswered, hbefore⟩ := exists_answeredFrom (waits_settle.mpr h)
  refine ⟨d, ?_, hnow, hanswered.settled, fun e he => ⟨waits_settle.mp (hbefore e he), ?_⟩⟩
  · have hspan : d ≤ deadline - r.lifecycle.now := hd
    omega
  · exact (hbefore e he).hasToWait

/-! ### Nobody else is waiting

When the call is alone, nothing but its own look can change what it finds at an instant. -/

theorem checkCalls_finished {earlier : List Pending} (h : ∀ p ∈ earlier, p.isWaiting = false)
    (l : Lifecycle) (rest : List Pending) : checkCalls l (earlier ++ rest) =
      ((checkCalls l rest).1, earlier ++ (checkCalls l rest).2) := by
  induction earlier with
  | nil => rfl
  | cons p earlier ih =>
    cases p with
    | waiting call patience =>
      exact absurd (h (.waiting call patience) (by simp)) (by simp [Pending.isWaiting])
    | finished reply =>
      have hrest := ih fun q hq => h q (List.mem_cons_of_mem _ hq)
      simp only [List.cons_append, checkCalls, hrest]

theorem endInstant_finished {earlier : List Pending} (h : ∀ p ∈ earlier, p.isWaiting = false)
    (l : Lifecycle) (rest : List Pending) : endInstant l (earlier ++ rest) =
      ((endInstant l rest).1, earlier ++ (endInstant l rest).2) := by
  induction earlier with
  | nil => rfl
  | cons p earlier ih =>
    cases p with
    | waiting call patience =>
      exact absurd (h (.waiting call patience) (by simp)) (by simp [Pending.isWaiting])
    | finished reply =>
      have hrest := ih fun q hq => h q (List.mem_cons_of_mem _ hq)
      simp only [List.cons_append, endInstant, hrest]

/-- The wait goes on if and only if it has to, as the sinks have settled. -/
theorem settle_alone {earlier : List Pending} (h : ∀ p ∈ earlier, p.isWaiting = false)
    (hcalls : r.calls = earlier ++ [.waiting (.settle i grace deadline ending) none]) :
    r.settle = ⟨r.lifecycle.settle, r.calls⟩ ∧
        r.lifecycle.settle.HasToWait (.settle i grace deadline ending) ∨
      ¬ r.lifecycle.settle.HasToWait (.settle i grace deadline ending) ∧
        r.settle.calls[earlier.length]? ≠
          some (.waiting (.settle i grace deadline ending) none) := by
  have hchecked := checkCalls_finished h r.lifecycle.settle
    [.waiting (.settle i grace deadline ending) none]
  rw [← hcalls, checkCalls_waiting] at hchecked
  rcases check_settle_cases r.lifecycle.settle i grace deadline ending with hwait | ⟨hok, hover⟩
  · have hsame : checkCalls r.lifecycle.settle r.calls = (r.lifecycle.settle, r.calls) := by
      rw [hchecked, hwait, hcalls]
      rfl
    refine .inl ⟨?_, (hasToWait_of_check (congrArg Prod.snd hwait)).1⟩
    unfold settle settleRounds
    dsimp only
    rw [hsame]
    exact if_neg (Nat.lt_irrefl _)
  · refine .inr ⟨hover, ?_⟩
    have hfinished : (checkCalls r.lifecycle.settle r.calls).2[earlier.length]? =
        some (.finished (.answer .ok
          (r.lifecycle.settle.check (.settle i grace deadline ending)).1.now)) := by
      rw [hchecked, hok]
      simp [after, checkCalls]
    have hlater : r.settle.calls[earlier.length]? = some (.finished (.answer .ok
        (r.lifecycle.settle.check (.settle i grace deadline ending)).1.now)) := by
      unfold settle settleRounds
      dsimp only
      split
      · exact finished_settleRounds _ hfinished
      · exact hfinished
    rw [hlater]
    simp

/-- As long as the wait goes on, nobody else comes to wait. -/
theorem calls_arrival_alone {earlier : List Pending} (h : ∀ p ∈ earlier, p.isWaiting = false)
    (hcalls : r.calls = earlier ++ [.waiting (.settle i grace deadline ending) none]) {d : Nat}
    (hwait : ∀ e < d, (r.arrival e).settle.calls[earlier.length]? =
      some (.waiting (.settle i grace deadline ending) none)) : (r.arrival d).calls = r.calls := by
  induction d with
  | zero => rfl
  | succ d ih =>
    have hsame := ih fun e he => hwait e (Nat.lt_succ_of_lt he)
    by_cases hn : (r.arrival d).next? = some (r.lifecycle.now + (d + 1))
    · rw [arrival_of_next hn]
      rcases settle_alone h (hsame.trans hcalls) with ⟨hsettle, -⟩ | ⟨-, hnot⟩
      · show (endInstant (r.arrival d).settle.lifecycle (r.arrival d).settle.calls).2 = r.calls
        rw [hsettle, hsame, hcalls, endInstant_finished h]
        rfl
      · exact absurd (hwait d (Nat.lt_succ_self d)) hnot
    · rw [arrival_of_not_next hn]
      exact hsame

end Settling

end Run

end EventUpload
