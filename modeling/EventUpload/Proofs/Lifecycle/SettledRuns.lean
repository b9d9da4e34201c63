import EventUpload.Proofs.Lifecycle.Alarms
import EventUpload.Proofs.Lifecycle.Arrival
import EventUpload.Proofs.Lifecycle.Uploading

/-!
# Runs when an instant is over

At the end of an instant a run is at rest (`Run.Rests`): every drain that is left has uploads that are
not done, and every call that is waiting has to go on. That holds of whatever run, whoever else is
waiting and however patient (`Run.rests_settle`).

This is where the rounds of an instant are shown to be enough. A round lets sinks and drains have their
turn and then looks at every call, and what one call does may be what another is waiting for; so after a
round in which some call has been answered there has to be another one. The number of calls that are
waiting falls with each such round (`checkCalls_rests`), and a round that answers nobody changes nothing
that a call looks at: it only says something, and by `hasToWait_of_posts` that does not matter.

Without this module a statement about "the end of the instant" would be one about a number of rounds.
-/

set_option autoImplicit false

namespace EventUpload

open Lifecycle

namespace Lifecycle

variable {l m : Lifecycle} {i : Nat} {v : Invocation} {call next : Call}

/-- A call has to go on waiting: the time is not up, and what it waits for is not over. -/
def HasToWait (l : Lifecycle) : Call → Prop
  | .reconcile i grace deadline =>
    ∃ v, l.invocation? i = some v ∧ l.reconcileVerdict? v grace deadline = none
  | .finish i _ deadline _ _ _ | .settle i _ deadline _ =>
    ∃ v, l.invocation? i = some v ∧ v.allDone = false ∧ l.now < deadline

/-- A call that is looked at and has to wait only says something, and has to wait still. -/
theorem hasToWait_of_check (h : (l.check call).2 = .waiting next) :
    l.HasToWait call ∧ l.HasToWait next ∧ l.Says (l.check call).1 := by
  -- In each kind of call all branches but the last one answer, and the last one asks for the same wait
  -- again.
  cases call with
  | reconcile i grace deadline =>
    simp only [check] at h ⊢
    cases hv : l.invocation? i with
    | none =>
      rw [hv] at h
      exact absurd h (by simp)
    | some v =>
      simp only [hv] at h ⊢
      cases hverdict : l.reconcileVerdict? v grace deadline with
      | none =>
        rw [hverdict] at h
        cases h
        exact ⟨⟨v, hv, hverdict⟩, ⟨v, hv, hverdict⟩, .refl l⟩
      | some warning =>
        rw [hverdict] at h
        exact absurd h (by simp)
  | finish i start deadline noticed longest nextWord =>
    cases hv : l.invocation? i with
    | none =>
      simp only [check, hv] at h
      exact absurd h (by simp)
    | some v =>
      obtain ⟨hdone, hlt⟩ := not_over_of_check_finish start deadline noticed longest nextWord hv h
      rw [check_finish_waiting start deadline noticed longest nextWord hv hdone hlt] at h ⊢
      cases h
      have hwait : ∃ v, l.invocation? i = some v ∧ v.allDone = false ∧ l.now < deadline :=
        ⟨v, hv, by simpa using hdone, hlt⟩
      exact ⟨hwait, hwait, says_noticeClosed l i v noticed⟩
  | settle i grace deadline ending =>
    simp only [check] at h ⊢
    cases hv : l.invocation? i with
    | none =>
      rw [hv] at h
      exact absurd h (by simp)
    | some v =>
      simp only [hv] at h ⊢
      split at h
      · exact absurd h (by simp)
      · next hover =>
        rw [if_neg hover]
        cases h
        have hwait : ∃ v, l.invocation? i = some v ∧ v.allDone = false ∧ l.now < deadline :=
          ⟨v, hv, by simpa using hover⟩
        exact ⟨hwait, hwait, .refl l⟩

/-- What is posted does not matter to who waits. -/
theorem hasToWait_of_posts (hs : l.Says m) : m.HasToWait call ↔ l.HasToWait call := by
  obtain ⟨posts, rfl⟩ := hs
  cases call <;> rfl

/-! ### Drains that are left -/

theorem drains_settleDrain (l : Lifecycle) (i : Nat) : (l.settleDrain i).drains ⊆ l.drains := by
  intro j hj
  unfold settleDrain at hj
  split at hj
  · split at hj
    · rw [(quiet_endDrain l i _).drains] at hj
      exact List.mem_of_mem_filter hj
    · exact hj
  · exact hj

theorem drains_foldl_settleDrain (is : List Nat) (l : Lifecycle) :
    (is.foldl settleDrain l).drains ⊆ l.drains := by
  induction is generalizing l with
  | nil => exact fun _ hj => hj
  | cons i is ih => exact List.Subset.trans (ih _) (drains_settleDrain l i)

/-- A drain that has had its turn is left only if its uploads are not done. -/
theorem not_allDone_of_turn {is : List Nat} (hi : i ∈ is) (hleft : i ∈ (is.foldl settleDrain l).drains)
    (hv : l.invocation? i = some v) : v.allDone = false := by
  induction is generalizing l with
  | nil => exact absurd hi (by simp)
  | cons j is ih =>
    rcases List.mem_cons.mp hi with rfl | hi
    · by_contra hdone
      have hturn : l.settleDrain i = l.endDrain i v := by
        simp only [settleDrain, hv]
        exact if_pos (by simpa using hdone)
      have hstays := drains_foldl_settleDrain is _ hleft
      rw [hturn, (quiet_endDrain l i v).drains] at hstays
      exact absurd (List.of_mem_filter hstays) (by simp)
    · refine ih hi hleft ?_
      rw [invocation?, invocations_settleDrain]
      exact hv

/-- The drains that are left when an instant is over. -/
theorem not_allDone_of_settle (hi : i ∈ l.settle.drains) (hv : l.settle.invocation? i = some v) :
    v.allDone = false := by
  rw [settle_eq] at hi hv
  rw [invocation?, foldl_keeps invocations invocations_settleDrain] at hv
  exact not_allDone_of_turn (drains_foldl_settleDrain _ _ hi) hi hv

end Lifecycle

namespace Run

/-- Nobody has anything to do before the next instant: no drain has its uploads done, and every call
that is waiting has to go on. -/
structure Rests (r : Run) : Prop where
  drains : ∀ i ∈ r.lifecycle.drains, ∀ v, r.lifecycle.invocation? i = some v → v.allDone = false
  calls : ∀ call patience, .waiting call patience ∈ r.calls → r.lifecycle.HasToWait call

/-- What becomes of a call that was looked at: it is over, or it has to wait. -/
theorem after_cases (l : Lifecycle) (call : Call) (patience : Option Nat) :
    (∃ reply, (after (l.check call).1 (l.check call).2 patience).2 = .finished reply) ∨
      ∃ next, after (l.check call).1 (l.check call).2 patience =
        ((l.check call).1, .waiting next patience) ∧ l.HasToWait next ∧ l.Says (l.check call).1 := by
  cases hprogress : (l.check call).2 with
  | answered a => exact .inl ⟨_, rfl⟩
  | waiting next =>
    obtain ⟨-, hnext, htold⟩ := hasToWait_of_check hprogress
    by_cases hdrop : patience.any (· ≤ (l.check call).1.now) = true
    · exact .inl ⟨.dropped (l.check call).1.now, by simp only [after, giveUp, if_pos hdrop]⟩
    · exact .inr ⟨next, by simp only [after, giveUp, if_neg hdrop], hnext, htold⟩

/-- Looking at the calls answers or drops some of them, or they all have to wait. -/
theorem checkCalls_rests (calls : List Pending) (l : Lifecycle) :
    (checkCalls l calls).2.countP Pending.isWaiting ≤ calls.countP Pending.isWaiting ∧
      ((checkCalls l calls).2.countP Pending.isWaiting = calls.countP Pending.isWaiting →
        l.Says (checkCalls l calls).1 ∧
          ∀ call patience, .waiting call patience ∈ (checkCalls l calls).2 → l.HasToWait call) := by
  induction calls generalizing l with
  | nil => exact ⟨Nat.le_refl _, fun _ => ⟨.refl l, fun _ _ h => absurd h (by simp [checkCalls])⟩⟩
  | cons p rest ih =>
    cases p with
    | finished reply =>
      obtain ⟨hle, hsame⟩ := ih l
      refine ⟨by simpa [checkCalls, Pending.isWaiting] using hle, fun heq => ?_⟩
      obtain ⟨htold, hwait⟩ := hsame (by simpa [checkCalls, Pending.isWaiting] using heq)
      refine ⟨htold, fun call patience hmem => ?_⟩
      exact hwait call patience ((List.mem_cons.mp hmem).resolve_left (by simp))
    | waiting call patience =>
      rw [checkCalls_waiting]
      rcases after_cases l call patience with ⟨reply, hover⟩ | ⟨next, hafter, hnext, htold⟩
      · -- The call is over, so there are fewer of them.
        obtain ⟨hle, -⟩ := ih (after (l.check call).1 (l.check call).2 patience).1
        rw [hover]
        simp only [List.countP_cons, Pending.isWaiting, Bool.false_eq_true, if_false, if_true]
        exact ⟨by omega, fun heq => by omega⟩
      · obtain ⟨hle, hsame⟩ := ih (l.check call).1
        rw [hafter]
        simp only [List.countP_cons, Pending.isWaiting, if_true]
        refine ⟨by omega, fun heq => ?_⟩
        obtain ⟨hrest, hwait⟩ := hsame (by omega)
        refine ⟨htold.trans hrest, fun call' patience' hmem => ?_⟩
        rcases List.mem_cons.mp hmem with heq' | hmem
        · cases heq'
          exact hnext
        · exact (hasToWait_of_posts htold).mp (hwait call' patience' hmem)

/-- **Every instant comes to rest.** -/
theorem rests_settle (r : Run) : r.settle.Rests := by
  have hrounds (rounds : Nat) : ∀ r : Run, r.waitingCount < rounds →
      (settleRounds rounds r).Rests := by
    induction rounds with
    | zero => exact fun _ hr => absurd hr (Nat.not_lt_zero _)
    | succ rounds ih =>
      intro r hr
      obtain ⟨hle, hsame⟩ := checkCalls_rests r.calls r.lifecycle.settle
      unfold settleRounds
      dsimp only
      split
      · next hlt => exact ih _ (Nat.lt_of_lt_of_le hlt (Nat.le_of_lt_succ hr))
      · next hnot =>
        -- Nobody was answered, so nothing was done after the sinks and the drains had their turns.
        obtain ⟨htold, hwait⟩ := hsame (Nat.le_antisymm hle (Nat.not_lt.mp hnot))
        refine ⟨fun i hi v hv => ?_, fun call patience hmem =>
          (hasToWait_of_posts htold).mpr (hwait call patience hmem)⟩
        obtain ⟨posts, hposts⟩ := htold
        rw [hposts] at hi hv
        exact not_allDone_of_settle hi hv
  exact hrounds _ r (Nat.lt_succ_self _)

end Run

end EventUpload
