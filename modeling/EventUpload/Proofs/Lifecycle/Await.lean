import EventUpload.Proofs.Lifecycle.Arrival
import Mathlib.Data.Nat.Find

/-!
# Waiting for one call

A host that makes its calls one after another has a run with one waiting call. This file says what that
comes to: the call is answered at the first instant at which looking at it answers it, and that is no
later than its deadline (`Run.await_awaiting`). Nothing has to be assumed about the sinks.

That it is answered at all rests on two facts. At its deadline a call is answered whatever the sinks do
(`answered_of_deadline`), and the deadline is an instant at which the run stops over, because it is
among those that are due (`deadline_mem`). A call whose deadline were not due could sleep through it; so
`now_arrival_deadline` is the lemma that would fail if an instant were forgotten.

What the answer is, and at which instant it comes, depends on the sinks, and is said of each kind of
call in its own place (`Proofs.Lifecycle.BlockingEnd`, `Proofs.Lifecycle.Reconcile`).
-/

set_option autoImplicit false

namespace EventUpload

/-! ## Deadlines

The deadline of a call is fixed when it is made. Being due at the deadline and being answered there are
separate facts, and both are needed: the one is about where the run stops over, the other about a look. -/

namespace Call

theorem deadline_mem (call : Call) : call.deadline ∈ call.dueInstants := by
  cases call <;> simp [deadline, dueInstants]

end Call

namespace Lifecycle

theorem deadline_endInstant (l : Lifecycle) (call : Call) :
    (l.endInstant call).2.deadline = call.deadline := by
  unfold endInstant
  split
  · split <;> rfl
  · rfl

/-- Looking at a call does not move its deadline. -/
theorem deadline_check {l : Lifecycle} {call next : Call}
    (h : (l.check call).2 = .waiting next) : next.deadline = call.deadline := by
  cases call with
  | reconcile index grace deadline =>
    simp only [check] at h
    split at h
    · exact absurd h (by simp)
    · split at h
      · exact absurd h (by simp)
      · cases h
        rfl
  | finish index start deadline noticed longest nextWord =>
    simp only [check] at h
    split at h
    · exact absurd h (by simp)
    · split at h
      · exact absurd h (by simp)
      · split at h
        · exact absurd h (by simp)
        · cases h
          rfl
  | settle index grace deadline ending =>
    simp only [check] at h
    split at h
    · exact absurd h (by simp)
    · split at h
      · exact absurd h (by simp)
      · cases h
        rfl

/-- At its deadline a call is answered. -/
theorem answered_of_deadline {l : Lifecycle} {call : Call} (h : call.deadline ≤ l.now) :
    ∃ a, (l.check call).2 = .answered a := by
  cases hp : (l.check call).2 with
  | answered a => exact ⟨a, rfl⟩
  | waiting next =>
    exfalso
    -- Past the deadline every kind of call has a branch that answers, whatever its sinks have come to.
    cases call with
    | reconcile index grace deadline =>
      have hdue : deadline ≤ l.now := h
      simp only [check] at hp
      split at hp
      · exact absurd hp (by simp)
      · split at hp
        · exact absurd hp (by simp)
        · next hverdict =>
          unfold reconcileVerdict? at hverdict
          split at hverdict
          · exact absurd hverdict (by simp)
          · rw [if_pos hdue] at hverdict
            split at hverdict <;> exact absurd hverdict (by simp)
    | finish index start deadline noticed longest nextWord =>
      simp only [check] at hp
      split at hp
      · exact absurd hp (by simp)
      · next v _ =>
        split at hp
        · exact absurd hp (by simp)
        · have hdue : deadline ≤ (l.noticeClosed index v noticed).now := by
            rw [(quiet_noticeClosed l index v noticed).now]
            exact h
          rw [if_pos hdue] at hp
          exact absurd hp (by simp)
    | settle index grace deadline ending =>
      have hdue : deadline ≤ l.now := h
      simp only [check] at hp
      split at hp
      · exact absurd hp (by simp)
      · rw [if_pos (by simp [hdue])] at hp
        exact absurd hp (by simp)

end Lifecycle

namespace Run

/-! ## A run with one waiting call

`awaiting` is the run that `Run.perform` begins with when a call has to wait. It has no other calls, so
the number of waiting calls, by which such a run knows that it has come to its end, is zero as soon as
this one is answered. -/

/-- A run in which the host waits for one call. -/
def awaiting (l : Lifecycle) (call : Call) : Run := ⟨l, [.waiting call none]⟩

/-- The call goes on when it is looked at. -/
def GoesOn (l : Lifecycle) (call : Call) : Prop := ∃ next, (l.settle.check call).2 = .waiting next

variable {l m : Lifecycle} {call next : Call} {a : Answer}

theorem settle_waiting (h : (l.settle.check call).2 = .waiting next) :
    (awaiting l call).settle = awaiting (l.settle.check call).1 next := by
  have hcalls : checkCalls l.settle [.waiting call none] =
      ((l.settle.check call).1, [.waiting next none]) := by
    rw [checkCalls_waiting, h]
    rfl
  unfold settle awaiting settleRounds
  dsimp only
  rw [hcalls]
  exact if_neg (Nat.lt_irrefl _)

theorem settle_answered (h : (l.settle.check call).2 = .answered a) :
    (awaiting l call).settle =
      ⟨(l.settle.check call).1.settle, [.finished (.answer a l.now)]⟩ := by
  have hnow : (l.settle.check call).1.now = l.now := by
    rw [Lifecycle.check_now, Lifecycle.settle_now]
  have hcalls : checkCalls l.settle [.waiting call none] =
      ((l.settle.check call).1, [.finished (.answer a (l.settle.check call).1.now)]) := by
    rw [checkCalls_waiting, h]
    rfl
  unfold settle awaiting settleRounds
  dsimp only
  rw [hcalls, hnow]
  rfl

theorem waitingCount_settle_eq_zero :
    (awaiting l call).settle.waitingCount = 0 ↔ ¬ GoesOn l call := by
  cases h : (l.settle.check call).2 with
  | waiting next =>
    rw [settle_waiting h]
    exact ⟨fun hc => absurd hc (by simp [waitingCount, awaiting, Pending.isWaiting]),
      fun hn => absurd ⟨next, h⟩ hn⟩
  | answered a =>
    rw [settle_answered h]
    refine ⟨fun _ hgo => ?_, fun _ => rfl⟩
    obtain ⟨next, hw⟩ := hgo
    exact absurd (h.symm.trans hw) (by simp)

/-- The state in which a waiting call leaves an instant. -/
theorem leaveInstant_awaiting (l : Lifecycle) (call : Call) :
    (awaiting l call).leaveInstant = awaiting (l.endInstant call).1 (l.endInstant call).2 := rfl

theorem dueInstants_endInstant (l : Lifecycle) (call : Call) :
    (l.endInstant call).1.dueInstants = l.dueInstants := by
  unfold Lifecycle.endInstant
  split
  · split <;> rfl
  · rfl

theorem next?_awaiting (h : (l.settle.check call).2 = .waiting next) :
    (awaiting l call).next? = nextInstant? l.now ((l.settle.check call).1.dueInstants ++
      ((l.settle.check call).1.endInstant next).2.dueInstants) := by
  have hdue (l : Lifecycle) (call : Call) :
      (awaiting l call).dueInstants = l.dueInstants ++ call.dueInstants := by
    simp [dueInstants, awaiting]
  rw [next?, settle_waiting h, leaveInstant_awaiting, hdue, dueInstants_endInstant]
  rfl

theorem moved_awaiting (h : (l.settle.check call).2 = .waiting next) (t : Nat) :
    (awaiting l call).moved t =
      awaiting { ((l.settle.check call).1.endInstant next).1 with now := t }
        ((l.settle.check call).1.endInstant next).2 := by
  rw [moved, settle_waiting h, leaveInstant_awaiting]
  rfl

theorem goesOn_of_waitingCount {r : Run} (hr : r = awaiting l call)
    (h : r.settle.waitingCount ≠ 0) : GoesOn l call := by
  by_contra hgo
  rw [hr] at h
  exact h (waitingCount_settle_eq_zero.mpr hgo)

/-- As long as it has not been answered, a call is waiting and has its deadline. -/
theorem arrival_awaiting (l : Lifecycle) (call : Call) (d : Nat)
    (hwait : ∀ e < d, ((awaiting l call).arrival e).settle.waitingCount ≠ 0) :
    ∃ n b, (awaiting l call).arrival d = awaiting n b ∧ b.deadline = call.deadline := by
  induction d with
  | zero => exact ⟨l, call, rfl, rfl⟩
  | succ d ih =>
    obtain ⟨n, b, hn, hb⟩ := ih fun e he => hwait e (by omega)
    obtain ⟨next, hnext⟩ := goesOn_of_waitingCount hn (hwait d (by omega))
    by_cases hdue : ((awaiting l call).arrival d).next? =
        some ((awaiting l call).lifecycle.now + (d + 1))
    · have hmove := arrival_of_next hdue
      rw [hn, moved_awaiting hnext] at hmove
      refine ⟨_, _, hmove, ?_⟩
      rw [Lifecycle.deadline_endInstant, Lifecycle.deadline_check hnext, hb]
    · exact ⟨n, b, by rw [arrival_of_not_next hdue, hn], hb⟩

/-- As long as the call is not answered, the run comes to its deadline. -/
theorem now_arrival_deadline {k : Nat} (hk : l.now + k = call.deadline)
    (hwait : ∀ e < k, ((awaiting l call).arrival e).settle.waitingCount ≠ 0) :
    ((awaiting l call).arrival k).lifecycle.now = call.deadline := by
  cases k with
  | zero => exact hk
  | succ k =>
    obtain ⟨n, b, hn, hb⟩ := arrival_awaiting l call k fun e he => hwait e (by omega)
    obtain ⟨next, hnext⟩ := goesOn_of_waitingCount hn (hwait k (by omega))
    have hmem : l.now + (k + 1) ∈ (n.settle.check b).1.dueInstants ++
        ((n.settle.check b).1.endInstant next).2.dueInstants := by
      refine List.mem_append_right _ ?_
      rw [hk, ← hb, ← Lifecycle.deadline_check hnext, ← Lifecycle.deadline_endInstant
        (n.settle.check b).1 next]
      exact Call.deadline_mem _
    have hdue := arrival_next_of_mem (r := awaiting l call) (by rw [hn]; exact next?_awaiting hnext)
      hmem
    rw [arrival_of_next hdue]
    exact hk

/-- A call that is waiting has been answered when its deadline is over. -/
theorem exists_answered (hle : l.now ≤ call.deadline) :
    ∃ d, l.now + d ≤ call.deadline ∧
      ((awaiting l call).arrival d).settle.waitingCount = 0 := by
  obtain ⟨k, hk⟩ : ∃ k, l.now + k = call.deadline := ⟨call.deadline - l.now, by omega⟩
  by_contra hnone
  have hwait (e : Nat) (he : e ≤ k) :
      ((awaiting l call).arrival e).settle.waitingCount ≠ 0 := by
    intro hz
    exact hnone ⟨e, by omega, hz⟩
  obtain ⟨n, b, hn, hb⟩ := arrival_awaiting l call k fun e he => hwait e (by omega)
  have hnow := now_arrival_deadline hk fun e he => hwait e (by omega)
  refine hwait k (Nat.le_refl k) ?_
  rw [hn] at hnow ⊢
  refine waitingCount_settle_eq_zero.mpr ?_
  rintro ⟨next, hnext⟩
  have hdue : b.deadline ≤ n.settle.now := by
    rw [Lifecycle.settle_now, hb]
    exact Nat.le_of_eq hnow.symm
  obtain ⟨a, ha⟩ := Lifecycle.answered_of_deadline hdue
  exact absurd (ha.symm.trans hnext) (by simp)

/-- **Waiting for a call.** It is answered at the first instant at which looking at it answers it,
which is not after its deadline; before that it goes on. -/
theorem await_awaiting (l : Lifecycle) (call : Call) (hle : l.now ≤ call.deadline) :
    ∃ d n b a, l.now + d ≤ call.deadline ∧
      (∀ e < d, ∃ n b, (awaiting l call).arrival e = awaiting n b ∧ GoesOn n b) ∧
      (awaiting l call).arrival d = awaiting n b ∧ n.now = l.now + d ∧
      (n.settle.check b).2 = .answered a ∧
      (awaiting l call).await =
        ⟨(n.settle.check b).1.settle, [.finished (.answer a (l.now + d))]⟩ := by
  classical
  have hex := exists_answered hle
  obtain ⟨hd, hzero⟩ := Nat.find_spec hex
  have hmin (e : Nat) (he : e < Nat.find hex) :
      ((awaiting l call).arrival e).settle.waitingCount ≠ 0 :=
    fun hz => Nat.find_min hex he ⟨by omega, hz⟩
  generalize Nat.find hex = d at hd hzero hmin
  have hbefore (e : Nat) (he : e < d) :
      ∃ n b, (awaiting l call).arrival e = awaiting n b ∧ GoesOn n b := by
    obtain ⟨n, b, hn, _⟩ := arrival_awaiting l call e
      fun f hf => hmin f (by omega)
    exact ⟨n, b, hn, goesOn_of_waitingCount hn (hmin e he)⟩
  obtain ⟨n, b, hn, _⟩ := arrival_awaiting l call d hmin
  have hgo : ¬ GoesOn n b := by
    rw [hn] at hzero
    exact waitingCount_settle_eq_zero.mp hzero
  obtain ⟨a, ha⟩ : ∃ a, (n.settle.check b).2 = .answered a := by
    cases h : (n.settle.check b).2 with
    | answered a => exact ⟨a, rfl⟩
    | waiting next => exact absurd ⟨next, h⟩ hgo
  -- No arrival before `d` answers, so the run has come to the instant `d` itself.
  have hnow : n.now = l.now + d := by
    cases d with
    | zero =>
      have : awaiting l call = awaiting n b := hn
      exact congrArg (fun r : Run => r.lifecycle.now) this.symm
    | succ d =>
      by_cases hdue : ((awaiting l call).arrival d).next? =
          some ((awaiting l call).lifecycle.now + (d + 1))
      · have hmove := congrArg (fun r : Run => r.lifecycle.now) (arrival_of_next hdue)
        rw [hn] at hmove
        exact hmove
      · -- Otherwise the call had been answered before.
        rw [arrival_of_not_next hdue] at hzero
        exact absurd hzero (hmin d (by omega))
  refine ⟨d, n, b, a, hd, hbefore, hn, hnow, ha, ?_⟩
  have hhorizon : ((awaiting l call).calls.map limit).foldl max (awaiting l call).lifecycle.now =
      call.deadline := Nat.max_eq_right hle
  have hreach := reach_eq (awaiting l call) call.deadline (fun r => r.waitingCount = 0) d
    (by simpa using hzero)
    (fun e he => by simpa using hmin e he) hd
  rw [await, hhorizon, hreach, hn, settle_answered ha, hnow]

/-! ## Making a call by itself

A call that is answered at once and one that has to wait are made by the same function, and these two
lemmas say in which of its branches either ends. -/

theorem perform_answered (operation : Lifecycle → Lifecycle × Progress)
    (h : operation l = (m, .answered a)) {patience : Option Nat} :
    perform l operation patience = (m, .answer a m.now) := by
  have hcall : (ofLifecycle l).call operation patience = ⟨m, [.finished (.answer a m.now)]⟩ := by
    unfold call ofLifecycle
    rw [h]
    rfl
  unfold perform
  rw [hcall]
  rfl

theorem perform_waiting (operation : Lifecycle → Lifecycle × Progress)
    (h : operation l = (m, .waiting call)) {n : Lifecycle} {reply : Reply}
    (hawait : (awaiting m call).await = ⟨n, [.finished reply]⟩) :
    perform l operation none = (n, reply) := by
  have hcall : (ofLifecycle l).call operation none = awaiting m call := by
    unfold Run.call ofLifecycle
    rw [h]
    rfl
  have hcount : (awaiting m call).waitingCount ≠ 0 := by
    simp [waitingCount, awaiting, Pending.isWaiting]
  unfold perform
  rw [hcall]
  dsimp only
  rw [if_neg hcount, hawait]
  rfl

end Run

end EventUpload
