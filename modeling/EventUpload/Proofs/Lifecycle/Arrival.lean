import EventUpload.Proofs.Lifecycle.Settling
import EventUpload.Proofs.Lifecycle.Step

/-!
# A run at every instant

`Run.reach` jumps from one instant at which something is due to the next, as far as it has fuel.
`Run.arrival r d` has no fuel and no wish: it is the run as it has arrived at the last of these instants
within `d` milliseconds, and what holds of it can be shown by induction on `d`. `Run.reach_eq` says that
to reach a wish is to arrive, and to do what is to be done, at the first instant at which the wish is
fulfilled.

The fuel of `Run.reach` is the number of milliseconds that it may go, which is enough because every move
leads to a later instant (`lt_of_arrival_next`); `go_eq` is where this is used, and nothing after it
speaks of fuel. The induction goes through milliseconds at which nothing is due as well. They cost
nothing, for the run stays where it is (`arrival_stays`), and they spare the proofs an induction over
instants whose number and distance nobody knows.

A lifecycle that is left alone is the case without calls (`leftAlone`). It is what uploads do while
nobody waits for them, and what a host is compared with that waits for nothing.
-/

set_option autoImplicit false

namespace EventUpload

/-! ## The next instant

The least of the instants that lie ahead. That it is one of them, and that none comes before it, is all
that is used. -/

theorem nextInstant?_eq_some {now t : Nat} {instants : List Nat} :
    nextInstant? now instants = some t ↔
      t ∈ instants ∧ now < t ∧ ∀ u ∈ instants, now < u → t ≤ u := by
  simp only [nextInstant?, List.min?_eq_some_iff, List.mem_filter, decide_eq_true_eq, and_imp,
    and_assoc]

/-- Whatever is due later is not overlooked. -/
theorem nextInstant?_le {now t : Nat} {instants : List Nat} (ht : t ∈ instants) (hnow : now < t) :
    ∃ u, nextInstant? now instants = some u ∧ u ≤ t := by
  cases h : nextInstant? now instants with
  | none =>
    have hnil := List.min?_eq_none_iff.mp h
    have hmem : t ∈ instants.filter (now < ·) := List.mem_filter.mpr ⟨ht, by simpa using hnow⟩
    rw [hnil] at hmem
    exact absurd hmem (by simp)
  | some u => exact ⟨u, rfl, (nextInstant?_eq_some.mp h).2.2 t ht hnow⟩

namespace Lifecycle

/-! ## Nothing takes time

Only the step to the next instant changes the clock, and every function that is used at an instant has a
lemma to say so. -/

variable {l m : Lifecycle}

theorem now_leaveClosing (l : Lifecycle) : l.leaveClosing.now = l.now := by
  unfold leaveClosing
  split <;> rfl

theorem Looks.now {call : Call} {p : Progress} (h : l.Looks call m p) : m.now = l.now := by
  cases h with
  | goesOn hq _ => exact hq.now
  | reconciled hq => exact hq.now
  | vacuous _ => rfl
  | finished hq => exact (now_leaveClosing _).trans hq.now
  | cut hq _ => exact (now_leaveClosing _).trans hq.now
  | settled hq => exact hq.now

@[simp] theorem check_now (l : Lifecycle) (call : Call) : (l.check call).1.now = l.now :=
  (looks_check l call).now

end Lifecycle

namespace Run

theorem now_giveUp (l : Lifecycle) (call : Call) (patience : Option Nat) :
    (giveUp l call patience).1.now = l.now := by
  unfold giveUp
  split
  · cases call with
    | reconcile index grace deadline => rfl
    | finish index start deadline noticed longest nextWord => exact Lifecycle.now_leaveClosing l
    | settle index grace deadline ending => rfl
  · rfl

theorem now_after (l : Lifecycle) (progress : Progress) (patience : Option Nat) :
    (after l progress patience).1.now = l.now := by
  cases progress with
  | answered a => rfl
  | waiting call => exact now_giveUp l call patience

theorem checkCalls_waiting (l : Lifecycle) (call : Call) (patience : Option Nat)
    (rest : List Pending) : checkCalls l (.waiting call patience :: rest) =
      ((checkCalls (after (l.check call).1 (l.check call).2 patience).1 rest).1,
        (after (l.check call).1 (l.check call).2 patience).2 ::
          (checkCalls (after (l.check call).1 (l.check call).2 patience).1 rest).2) := rfl

theorem now_checkCalls (calls : List Pending) (l : Lifecycle) :
    (checkCalls l calls).1.now = l.now := by
  induction calls generalizing l with
  | nil => rfl
  | cons p rest ih =>
    cases p with
    | finished reply => exact ih l
    | waiting call patience =>
      rw [checkCalls_waiting]
      exact (ih _).trans ((now_after _ _ _).trans (Lifecycle.check_now _ _))

theorem now_settleRounds (rounds : Nat) (r : Run) :
    (settleRounds rounds r).lifecycle.now = r.lifecycle.now := by
  induction rounds generalizing r with
  | zero => exact Lifecycle.settle_now _
  | succ rounds ih =>
    have hnext : (checkCalls r.lifecycle.settle r.calls).1.now = r.lifecycle.now := by
      rw [now_checkCalls, Lifecycle.settle_now]
    unfold settleRounds
    dsimp only
    split
    · exact (ih _).trans hnext
    · exact hnext

@[simp] theorem now_settle (r : Run) : r.settle.lifecycle.now = r.lifecycle.now :=
  now_settleRounds _ r

theorem now_endInstant (calls : List Pending) (l : Lifecycle) :
    (endInstant l calls).1.now = l.now := by
  induction calls generalizing l with
  | nil => rfl
  | cons p rest ih =>
    cases p with
    | finished reply => exact ih l
    | waiting call patience => exact (ih _).trans (Lifecycle.quiet_endInstant l call).now

@[simp] theorem now_leaveInstant (r : Run) : r.leaveInstant.lifecycle.now = r.lifecycle.now :=
  now_endInstant r.calls r.lifecycle

/-! ## Arriving

The arrivals of a run are counted in milliseconds, so that two runs can be compared instant by instant
even if they do not stop over at the same ones. -/

/-- The next instant at which something is due, once everything is done at this one. -/
def next? (r : Run) : Option Nat :=
  nextInstant? r.lifecycle.now r.settle.leaveInstant.dueInstants

/-- The run as it arrives at a later instant, once everything is done at this one. -/
def moved (r : Run) (t : Nat) : Run := r.settle.leaveInstant.atInstant t

/-- The run as it has arrived at the last instant within `d` milliseconds at which something is
due. -/
def arrival (r : Run) : Nat → Run
  | 0 => r
  | d + 1 =>
    if (r.arrival d).next? = some (r.lifecycle.now + (d + 1)) then
      (r.arrival d).moved (r.lifecycle.now + (d + 1))
    else r.arrival d

variable {r : Run} {d e : Nat}

theorem arrival_zero (r : Run) : r.arrival 0 = r := rfl

theorem arrival_of_next (h : (r.arrival d).next? = some (r.lifecycle.now + (d + 1))) :
    r.arrival (d + 1) = (r.arrival d).moved (r.lifecycle.now + (d + 1)) := if_pos h

theorem arrival_of_not_next (h : (r.arrival d).next? ≠ some (r.lifecycle.now + (d + 1))) :
    r.arrival (d + 1) = r.arrival d := if_neg h

@[simp] theorem now_moved (r : Run) (t : Nat) : (r.moved t).lifecycle.now = t := rfl

theorem lt_of_next {t : Nat} (h : r.next? = some t) : r.lifecycle.now < t :=
  (nextInstant?_eq_some.mp h).2.1

theorem now_arrival_le (r : Run) (d : Nat) :
    (r.arrival d).lifecycle.now ≤ r.lifecycle.now + d := by
  induction d with
  | zero => exact Nat.le_refl _
  | succ d ih =>
    by_cases h : (r.arrival d).next? = some (r.lifecycle.now + (d + 1))
    · exact Nat.le_of_eq (by rw [arrival_of_next h, now_moved])
    · rw [arrival_of_not_next h]
      omega

/-- What is due next lies ahead. -/
theorem lt_of_arrival_next {t : Nat} (h : (r.arrival d).next? = some t) :
    r.lifecycle.now + d < t := by
  induction d generalizing t with
  | zero => exact lt_of_next h
  | succ d ih =>
    by_cases hn : (r.arrival d).next? = some (r.lifecycle.now + (d + 1))
    · rw [arrival_of_next hn] at h
      exact lt_of_next h
    · rw [arrival_of_not_next hn] at h
      have := ih h
      have hne : t ≠ r.lifecycle.now + (d + 1) := fun ht => hn (ht ▸ h)
      omega

/-- What is due a millisecond from now is due next: it is not overlooked, and nothing comes before. -/
theorem arrival_next_of_mem {instants : List Nat}
    (h : (r.arrival d).next? = nextInstant? (r.arrival d).lifecycle.now instants)
    (hmem : r.lifecycle.now + (d + 1) ∈ instants) :
    (r.arrival d).next? = some (r.lifecycle.now + (d + 1)) := by
  have hle := now_arrival_le r d
  -- Something is due within the millisecond, and it cannot be earlier.
  obtain ⟨t, ht, htd⟩ := nextInstant?_le hmem (by omega : (r.arrival d).lifecycle.now < _)
  rw [← h] at ht
  have hlt := lt_of_arrival_next ht
  obtain rfl : t = r.lifecycle.now + (d + 1) := by omega
  exact ht

/-- As long as nothing is due the run stays where it is. -/
theorem arrival_stays (hle : d ≤ e)
    (h : ∀ t, (r.arrival d).next? = some t → r.lifecycle.now + e < t) :
    r.arrival e = r.arrival d := by
  induction hle with
  | refl => rfl
  | @step e _ ih =>
    have hd : r.arrival e = r.arrival d := ih fun t ht => by
      have := h t ht
      omega
    rw [arrival_of_not_next, hd]
    rw [hd]
    intro ht
    exact absurd (h _ ht) (Nat.lt_irrefl _)

/-- Where the run goes next. -/
theorem arrival_moves (hlt : d < e) (h : (r.arrival d).next? = some (r.lifecycle.now + e)) :
    r.arrival e = (r.arrival d).moved (r.lifecycle.now + e) := by
  obtain ⟨k, rfl⟩ : ∃ k, e = k + 1 := ⟨e - 1, by omega⟩
  have hk : r.arrival k = r.arrival d := by
    refine arrival_stays (by omega) fun t ht => ?_
    rw [h] at ht
    have := Option.some.inj ht
    omega
  rw [arrival_of_next (by rw [hk]; exact h), hk]

/-! ## Reaching a wish -/

/-- A run that looks for a state finds it at the first of its instants that has it. The induction is
on the moves that are allowed, which have to suffice for what is left. -/
theorem go_eq {horizon : Nat} {wish : Run → Bool} (hd : wish (r.arrival d).settle = true)
    (hfirst : ∀ e < d, wish (r.arrival e).settle = false) (hle : r.lifecycle.now + d ≤ horizon)
    (moves : Nat) (e : Nat) (he : e ≤ d) (hmoves : d - e ≤ moves)
    (hnow : (r.arrival e).lifecycle.now = r.lifecycle.now + e) :
    go horizon wish moves (r.arrival e) = (r.arrival d).settle := by
  induction moves generalizing e with
  | zero =>
    obtain rfl : e = d := by omega
    rfl
  | succ moves ih =>
    unfold go
    rcases Nat.lt_or_eq_of_le he with hlt | rfl
    · -- The wish is fulfilled later on, so something is due until then.
      obtain ⟨t, ht, htd⟩ : ∃ t, (r.arrival e).next? = some t ∧ t ≤ r.lifecycle.now + d := by
        by_contra hnone
        have hstay : r.arrival d = r.arrival e := arrival_stays he fun t ht => by
          by_contra hlt
          exact hnone ⟨t, ht, by omega⟩
        rw [hstay, hfirst e hlt] at hd
        exact absurd hd (by simp)
      have hlt' := lt_of_arrival_next ht
      obtain ⟨f, rfl⟩ : ∃ f, t = r.lifecycle.now + f := ⟨t - r.lifecycle.now, by omega⟩
      have hmove := arrival_moves (by omega) ht
      have hdue : nextInstant? (r.arrival e).settle.leaveInstant.lifecycle.now
          (r.arrival e).settle.leaveInstant.dueInstants = some (r.lifecycle.now + f) := by
        rw [now_leaveInstant, now_settle]
        exact ht
      have hmin : (r.lifecycle.now + f).min horizon = r.lifecycle.now + f :=
        Nat.min_eq_left (by omega)
      dsimp only
      rw [hfirst e hlt, if_neg (by simp), hdue, Option.getD_some, hmin,
        if_pos (by rw [now_settle, hnow]; omega)]
      show go horizon wish moves ((r.arrival e).moved (r.lifecycle.now + f)) = _
      rw [← hmove]
      refine ih f (by omega) (by omega) ?_
      rw [hmove, now_moved]
    · dsimp only
      rw [hd, if_pos rfl]

/-- **What it is to reach a wish**: to arrive at the first instant at which it is fulfilled, and to do
there what is to be done. -/
theorem reach_eq (r : Run) (horizon : Nat) (wish : Run → Bool) (d : Nat)
    (hd : wish (r.arrival d).settle = true)
    (hfirst : ∀ e < d, wish (r.arrival e).settle = false)
    (hle : r.lifecycle.now + d ≤ horizon) : r.reach horizon wish = (r.arrival d).settle :=
  go_eq hd hfirst hle _ 0 (Nat.zero_le d) (by omega) rfl

/-! ## Left alone -/

theorem settle_ofLifecycle (l : Lifecycle) : (ofLifecycle l).settle = ofLifecycle l.settle := by
  unfold settle ofLifecycle settleRounds
  exact if_neg (Nat.lt_irrefl _)

theorem next?_ofLifecycle (l : Lifecycle) :
    (ofLifecycle l).next? = nextInstant? l.now l.settle.dueInstants := by
  rw [next?, settle_ofLifecycle]
  unfold leaveInstant dueInstants ofLifecycle
  simp [endInstant]

theorem moved_ofLifecycle (l : Lifecycle) (t : Nat) :
    (ofLifecycle l).moved t = ofLifecycle { l.settle with now := t } := by
  rw [moved, settle_ofLifecycle]
  rfl

end Run

namespace Lifecycle

/-- The lifecycle as it has arrived at the last instant within `d` milliseconds at which something is
due, when nobody calls anything. -/
def arrived (l : Lifecycle) (d : Nat) : Lifecycle := ((Run.ofLifecycle l).arrival d).lifecycle

/-- The lifecycle after `d` milliseconds in which nobody calls anything. -/
def leftAlone (l : Lifecycle) (d : Nat) : Lifecycle := (l.arrived d).settle

theorem arrival_ofLifecycle (l : Lifecycle) (d : Nat) :
    (Run.ofLifecycle l).arrival d = Run.ofLifecycle (l.arrived d) := by
  unfold arrived
  induction d with
  | zero => rfl
  | succ d ih =>
    by_cases h : ((Run.ofLifecycle l).arrival d).next? =
        some ((Run.ofLifecycle l).lifecycle.now + (d + 1))
    · rw [Run.arrival_of_next h, ih, Run.moved_ofLifecycle]
      rfl
    · rw [Run.arrival_of_not_next h]
      exact ih

/-- The instant that comes next for a lifecycle that is left alone. -/
theorem arrived_of_next {l : Lifecycle} {d : Nat}
    (h : nextInstant? (l.arrived d).now (l.leftAlone d).dueInstants = some (l.now + (d + 1))) :
    l.arrived (d + 1) = { l.leftAlone d with now := l.now + (d + 1) } := by
  have hn : ((Run.ofLifecycle l).arrival d).next? =
      some ((Run.ofLifecycle l).lifecycle.now + (d + 1)) := by
    rw [arrival_ofLifecycle, Run.next?_ofLifecycle]
    exact h
  have hr := Run.arrival_of_next hn
  rw [arrival_ofLifecycle l d, Run.moved_ofLifecycle] at hr
  exact congrArg Run.lifecycle hr

theorem arrived_of_not_next {l : Lifecycle} {d : Nat}
    (h : nextInstant? (l.arrived d).now (l.leftAlone d).dueInstants ≠ some (l.now + (d + 1))) :
    l.arrived (d + 1) = l.arrived d := by
  refine congrArg Run.lifecycle (Run.arrival_of_not_next (r := Run.ofLifecycle l) ?_)
  rw [arrival_ofLifecycle, Run.next?_ofLifecycle]
  exact h

/-- Whatever holds at the start and is kept from one instant to the next holds at all times. -/
theorem arrived_induction {P : Lifecycle → Prop} {l : Lifecycle} (start : P l)
    (next : ∀ m t, P m → P { m.settle with now := t }) (d : Nat) : P (l.arrived d) := by
  induction d with
  | zero => exact start
  | succ d ih =>
    by_cases h : nextInstant? (l.arrived d).now (l.leftAlone d).dueInstants =
        some (l.now + (d + 1))
    · rw [arrived_of_next h]
      exact next _ _ ih
    · rw [arrived_of_not_next h]
      exact ih

theorem Calm.atInstant {l m : Lifecycle} (h : l.Calm m) (t : Nat) :
    ({ l with now := t } : Lifecycle).Calm { m with now := t } :=
  ⟨rfl, h.limits, h.phase, h.active, h.pending, h.invocations⟩

/-- Being left alone is calm but for the time that passes. -/
theorem calm_leftAlone (l : Lifecycle) (d : Nat) :
    ({ l with now := (l.leftAlone d).now } : Lifecycle).Calm (l.leftAlone d) := by
  have h : ({ l with now := (l.arrived d).now } : Lifecycle).Calm (l.arrived d) := by
    refine arrived_induction (P := fun m => ({ l with now := m.now } : Lifecycle).Calm m)
      (.refl l) (fun m t hm => ?_) d
    exact (hm.trans (calm_settle m)).atInstant t
  rw [leftAlone, settle_now]
  exact h.trans (calm_settle _)

end Lifecycle

end EventUpload
