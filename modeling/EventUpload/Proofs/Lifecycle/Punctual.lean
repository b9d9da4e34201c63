import EventUpload.Proofs.Lifecycle.Registered
import EventUpload.Proofs.Lifecycle.Timers
import EventUpload.Proofs.Lifecycle.WaitingMessages

/-!
# Runs that overlook nothing

In a hasty run time may pass as it likes. A run is punctual from one moment to another if nothing was
overlooked in between (`Run.Punctual`): before it leaves an instant everything that can be done then is
done, and it goes no further than to the next instant at which something is due. Meanwhile the host may
do whatever it likes. That is how time passes in the program (`punctual_reach`).

What a call that waits comes to at an instant is one of two things: it goes on, and is the same call but
for what it has noticed, or it is answered at that instant (`settle_call`).

Without punctuality a bound on a wait could not be shown, since a run might leap over the deadline. It
is a relation and not a property of runs: the host may do things in between, and a wait is only punctual
from the moment on at which it was begun.

For the words of a wait there is one more thing to know, namely that there is only one call that gives
them (`Hasty.sole`). Then the word at the end of an instant, if there is one, is found at the place of
this call (`leaveInstant_word`), whoever else is waiting there.
-/

set_option autoImplicit false

namespace EventUpload

open Relation (ReflTransGen)
open Lifecycle

/-- When the next word is due that a call goes on, if it gives words. -/
def Call.nextWord? : Call → Option Nat
  | .finish _ _ _ _ _ nextWord => some nextWord
  | .reconcile .. | .settle .. => none

theorem Lifecycle.nextWord?_check {l : Lifecycle} {call next : Call}
    (h : (l.check call).2 = .waiting next) : next.nextWord? = call.nextWord? := by
  cases call with
  | finish index start deadline noticed longest nextWord =>
    simp only [check] at h
    split at h
    · exact absurd h (by simp)
    · split at h
      · exact absurd h (by simp)
      · split at h
        · exact absurd h (by simp)
        · cases h
          rfl
  | reconcile index grace deadline =>
    obtain h := core_check h
    cases next <;> cases h
    rfl
  | settle index grace deadline ending =>
    obtain h := core_check h
    cases next <;> cases h
    rfl

namespace Run

variable {r s : Run} {k : Nat} {call : Call} {reply : Reply}

/-- One thing happens in a run that overlooks nothing. -/
inductive Punctual (r : Run) : Run → Prop where
  /-- Everything is done that can be done at this instant. -/
  | settles : Punctual r r.settle
  /-- Time goes on when everything is done, but not beyond what is due next. -/
  | moves {t : Nat} : r.lifecycle.now < t → (∀ u, r.next? = some u → t ≤ u) → Punctual r (r.moved t)
  | call (c : HostCall) : r.Admits c → c.Fresh → Punctual r (r.call c.make none)
  /-- The host calls out of order. -/
  | refused {c : HostCall} {operation : Operation} : c.operation? = some operation →
      r.lifecycle.phase ≠ operation.phase → Punctual r (r.call c.make none)
  /-- The host does something to a stream. -/
  | deed (i : Nat) (d : StreamDeed) :
      Punctual r { r with lifecycle := r.lifecycle.updateStream i (d.apply · r.lifecycle.now) }
  /-- The host drops the end of an invocation. -/
  | drop {s : Run} {call : Call} : call.role = .finish → r.Drops call s → Punctual r s

/-! ## How time passes

`Punctual` has a case for each thing that can happen in a run, and only `moves` has a hypothesis about
time. -/

theorem Hasty.proceeds_left (h : r.Hasty) {t : Nat} (hle : r.lifecycle.now ≤ t) :
    ReflTransGen Proceeds r (r.leaveInstant.atInstant t) := by
  obtain ⟨hleft, -⟩ := h.closed.endInstant r.calls r.lifecycle [] h.patient .refl
  refine h.closed.time ?_ hleft
  show r.leaveInstant.lifecycle.now ≤ t
  rwa [now_leaveInstant]

theorem Hasty.proceeds_moved (h : r.Hasty) {t : Nat} (hlt : r.lifecycle.now < t) :
    ReflTransGen Proceeds r (r.moved t) :=
  h.proceeds_settle.trans (h.settle.proceeds_left (by rw [now_settle]; exact Nat.le_of_lt hlt))

theorem Punctual.proceeds (h : r.Punctual s) (hr : r.Hasty) : ReflTransGen Proceeds r s := by
  cases h with
  | settles => exact hr.proceeds_settle
  | moves hlt _ => exact hr.proceeds_moved hlt
  | call c hc hfresh => exact .single (.call c hc hfresh)
  | refused hc hp => exact .single (.idles (.refused hc hp))
  | deed i d => exact .single (.idles (.stirs (.deed i d)))
  | drop hrole hd => exact .single (.drop hrole hd)

theorem punctual_go (horizon : Nat) (wish : Run → Bool) (moves : Nat) (r : Run) :
    ReflTransGen Punctual r (go horizon wish moves r) := by
  induction moves generalizing r with
  | zero => exact .single .settles
  | succ moves ih =>
    unfold go
    dsimp only
    split
    · exact .single .settles
    · split
      · next hlt =>
        refine .head (.moves (by rwa [now_settle] at hlt) fun u hu => ?_) (ih _)
        have hdue : nextInstant? r.settle.leaveInstant.lifecycle.now
            r.settle.leaveInstant.dueInstants = some u := by
          rw [now_leaveInstant, now_settle]
          exact hu
        rw [hdue]
        exact Nat.min_le_left _ _
      · exact .single .settles

/-- **Nothing is overlooked** when time passes up to a horizon or until a wish is fulfilled. -/
theorem punctual_reach (r : Run) (horizon : Nat) (wish : Run → Bool) :
    ReflTransGen Punctual r (r.reach horizon wish) := punctual_go horizon wish _ r

/-- A punctual run does not go beyond an instant that is due. -/
theorem le_of_due {t u : Nat} (hnext : ∀ u, r.next? = some u → t ≤ u)
    (hdue : u ∈ r.settle.leaveInstant.dueInstants) (hlt : r.lifecycle.now < u) : t ≤ u := by
  obtain ⟨first, hfirst, hle⟩ := nextInstant?_le hdue hlt
  exact Nat.le_trans (hnext first hfirst) hle

/-! ## A call at an instant

What the calls before it do in the same instant may answer a call, but not change what it is waiting
for. -/

/-- A call that waits in a run is there in another one, and nothing has changed but what it has noticed. -/
def StillWaits (r : Run) (k : Nat) (call : Call) : Prop :=
  ∃ next, r.calls[k]? = some (.waiting next none) ∧ next.core = call.core ∧
    next.nextWord? = call.nextWord?

/-- When the calls are looked at in turn, each either goes on waiting or is answered then. -/
theorem checkCalls_call {calls : List Pending} (l : Lifecycle)
    (h : calls[k]? = some (.waiting call none)) :
    StillWaits ⟨(checkCalls l calls).1, (checkCalls l calls).2⟩ k call ∨
      ∃ a, (checkCalls l calls).2[k]? = some (.finished (.answer a l.now)) := by
  induction calls generalizing l k with
  | nil => exact absurd h (by simp)
  | cons p rest ih =>
    cases k with
    | zero =>
      cases h
      rw [checkCalls_waiting]
      cases hcheck : (l.check call).2 with
      | waiting next => exact .inl ⟨next, rfl, core_check hcheck, nextWord?_check hcheck⟩
      | answered a =>
        refine .inr ⟨a, ?_⟩
        rw [← check_now l call]
        rfl
    | succ k =>
      cases p with
      | finished other => exact ih l h
      | waiting other patience =>
        rw [checkCalls_waiting]
        have hnow : (after (l.check other).1 (l.check other).2 patience).1.now = l.now := by
          rw [now_after, check_now]
        rw [← hnow]
        exact ih _ h

/-- **A waiting call at an instant** goes on, or is answered. -/
theorem settle_call (h : r.calls[k]? = some (.waiting call none)) : r.settle.StillWaits k call ∨
    ∃ a, r.settle.calls[k]? = some (.finished (.answer a r.lifecycle.now)) := by
  have hrounds (rounds : Nat) : ∀ (r : Run) (call : Call), r.calls[k]? = some (.waiting call none) →
      (settleRounds rounds r).StillWaits k call ∨
        ∃ a, (settleRounds rounds r).calls[k]? = some (.finished (.answer a r.lifecycle.now)) := by
    induction rounds with
    | zero => exact fun r call h => .inl ⟨call, h, rfl, rfl⟩
    | succ rounds ih =>
      intro r call h
      have hnow : (checkCalls r.lifecycle.settle r.calls).1.now = r.lifecycle.now := by
        rw [now_checkCalls, settle_now]
      unfold settleRounds
      dsimp only
      rcases checkCalls_call r.lifecycle.settle h with ⟨next, hnext, hcore, hword⟩ | ⟨a, ha⟩
      · split
        · rcases ih ⟨_, _⟩ next hnext with ⟨later, hlater, hcore', hword'⟩ | ⟨a, ha⟩
          · exact .inl ⟨later, hlater, hcore'.trans hcore, hword'.trans hword⟩
          · exact .inr ⟨a, hnow ▸ ha⟩
        · exact .inl ⟨next, hnext, hcore, hword⟩
      · rw [settle_now] at ha
        split
        · exact .inr ⟨a, finished_settleRounds _ ha⟩
        · exact .inr ⟨a, ha⟩
  exact hrounds _ r call h

theorem length_checkCalls (calls : List Pending) (l : Lifecycle) :
    (checkCalls l calls).2.length = calls.length := by
  induction calls generalizing l with
  | nil => rfl
  | cons p rest ih =>
    cases p with
    | finished reply => exact congrArg (· + 1) (ih l)
    | waiting call patience => exact congrArg (· + 1) (ih _)

theorem length_settleRounds (rounds : Nat) (r : Run) :
    (settleRounds rounds r).calls.length = r.calls.length := by
  induction rounds generalizing r with
  | zero => rfl
  | succ rounds ih =>
    unfold settleRounds
    dsimp only
    split
    · exact (ih _).trans (length_checkCalls _ _)
    · exact length_checkCalls _ _

/-- Whoever waits when an instant is over has waited before, for the same. -/
theorem waiting_of_settle {patience : Option Nat} (hp : Patient r.calls)
    (h : r.settle.calls[k]? = some (.waiting call patience)) :
    ∃ before, r.calls[k]? = some (.waiting before none) ∧ call.core = before.core := by
  obtain ⟨hlt, -⟩ := List.getElem?_eq_some_iff.mp h
  rw [settle, length_settleRounds] at hlt
  have hk := List.getElem?_eq_getElem hlt
  cases hbefore : r.calls[k] with
  | finished reply =>
    rw [hbefore] at hk
    exact absurd ((finished_settleRounds _ hk).symm.trans h) (by simp)
  | waiting before patience' =>
    rw [hbefore] at hk
    obtain rfl := hp before patience' (List.mem_of_getElem? hk)
    refine ⟨before, hk, ?_⟩
    rcases settle_call hk with ⟨next, hnext, hcore, -⟩ | ⟨a, ha⟩
    · cases hnext.symm.trans h
      exact hcore
    · exact absurd (ha.symm.trans h) (by simp)

theorem finished_leaveInstant (h : r.calls[k]? = some (.finished reply)) :
    r.leaveInstant.calls[k]? = some (.finished reply) := by
  have hcalls (calls : List Pending) (l : Lifecycle) (k : Nat)
      (h : calls[k]? = some (.finished reply)) :
      (endInstant l calls).2[k]? = some (.finished reply) := by
    induction calls generalizing l k with
    | nil => exact absurd h (by simp)
    | cons p rest ih =>
      cases k with
      | zero =>
        cases h
        rfl
      | succ k =>
        cases p with
        | finished other => exact ih l k h
        | waiting other patience => exact ih _ k h
  exact hcalls r.calls r.lifecycle k h

/-- What is over stays over. -/
theorem Punctual.finished (h : r.Punctual s) (hk : r.calls[k]? = some (.finished reply)) :
    s.calls[k]? = some (.finished reply) := by
  have happend (p : Pending) : (r.calls ++ [p])[k]? = some (.finished reply) :=
    (List.getElem?_append_left (List.getElem?_eq_some_iff.mp hk).1).trans hk
  cases h with
  | settles => exact finished_settleRounds _ hk
  | moves _ _ => exact finished_leaveInstant (r := r.settle) (finished_settleRounds _ hk)
  | call c _ _ => exact happend _
  | refused _ _ => exact happend _
  | deed i d => exact hk
  | drop _ hd =>
    obtain ⟨-, earlier, later, hcalls, hleft⟩ := hd.split
    rw [hcalls] at hk
    rw [hleft]
    rcases Nat.lt_trichotomy k earlier.length with hlt | rfl | hlt
    · rw [List.getElem?_append_left hlt] at hk ⊢
      exact hk
    · exact absurd hk (by simp)
    · rw [List.getElem?_append_right (Nat.le_of_lt hlt)] at hk ⊢
      obtain ⟨j, hj⟩ : ∃ j, k - earlier.length = j + 1 := ⟨k - earlier.length - 1, by omega⟩
      rw [hj] at hk ⊢
      exact hk

/-! ## Who gives words

Only a call at the end of an invocation gives words, and only at the end of an instant. -/

variable {i : Nat}

theorem wordsTo_after (l : Lifecycle) (call : Call) (patience : Option Nat) :
    (after (l.check call).1 (l.check call).2 patience).1.wordsTo i = l.wordsTo i := by
  have hdrop (m : Lifecycle) (next : Call) : (m.drop next).wordsTo i = m.wordsTo i := by
    cases next with
    | finish index start deadline noticed longest nextWord => exact wordsTo_leaveClosing m
    | reconcile index grace deadline => rfl
    | settle index grace deadline ending => rfl
  rw [← wordsTo_check l call]
  cases (l.check call).2 with
  | answered a => rfl
  | waiting next =>
    show (giveUp _ next patience).1.wordsTo i = _
    unfold giveUp
    split
    · exact hdrop _ next
    · rfl

theorem wordsTo_checkCalls (calls : List Pending) (l : Lifecycle) :
    (checkCalls l calls).1.wordsTo i = l.wordsTo i := by
  induction calls generalizing l with
  | nil => rfl
  | cons p rest ih =>
    cases p with
    | finished reply => exact ih l
    | waiting call patience =>
      rw [checkCalls_waiting]
      exact (ih _).trans (wordsTo_after l call patience)

/-- As long as an instant is not over nobody gives words. -/
theorem wordsTo_settle (r : Run) : r.settle.lifecycle.wordsTo i = r.lifecycle.wordsTo i := by
  have hround (r : Run) : (checkCalls r.lifecycle.settle r.calls).1.wordsTo i =
      r.lifecycle.wordsTo i :=
    (wordsTo_checkCalls r.calls _).trans (posts_settle (withheld_isWordTo i).toApart r.lifecycle)
  have hrounds (rounds : Nat) : ∀ r : Run,
      (settleRounds rounds r).lifecycle.wordsTo i = r.lifecycle.wordsTo i := by
    induction rounds with
    | zero => exact fun r => posts_settle (withheld_isWordTo i).toApart r.lifecycle
    | succ rounds ih =>
      intro r
      unfold settleRounds
      dsimp only
      split
      · exact (ih _).trans (hround r)
      · exact hround r
  exact hrounds _ r

/-- Nobody but one call waits for the end of an invocation. -/
def Sole (calls : List Pending) (k : Nat) : Prop :=
  ∀ j call patience, calls[j]? = some (.waiting call patience) → call.errand.2 = .wait → j = k

/-- If that one is over nobody does. -/
theorem Sole.nobody (h : Sole r.calls k) (hk : r.calls[k]? = some (.finished reply)) :
    (i, .wait) ∉ r.errands := by
  intro hmem
  obtain ⟨p, hp, herrand⟩ := List.mem_filterMap.mp hmem
  cases p with
  | finished other => exact absurd herrand (by simp [Pending.errand?])
  | waiting call patience =>
    obtain ⟨j, hj⟩ := List.getElem?_of_mem hp
    obtain rfl := h j call patience hj (congrArg Prod.snd (Option.some.inj herrand))
    exact absurd (hk.symm.trans hj) (by simp)

/-- Two do not wait for ends of invocations at the same time. -/
theorem Hasty.sole (h : r.Hasty) (hk : r.calls[k]? = some (.waiting call none))
    (herrand : call.errand = (i, .wait)) : Sole r.calls k := by
  intro j other patience hj hother
  by_contra hne
  obtain ⟨⟨ws, hledger⟩, -⟩ := h.voiced
  obtain ⟨hlt, hget⟩ := List.getElem?_eq_some_iff.mp hk
  have hsplit : r.calls = r.calls.take k ++ .waiting call none :: r.calls.drop (k + 1) := by
    rw [← hget, List.getElem_cons_drop, List.take_append_drop]
  have hrest : Pending.waiting other patience ∈ r.calls.take k ++ r.calls.drop (k + 1) := by
    rcases Nat.lt_or_gt_of_ne hne with hjk | hjk
    · refine List.mem_append_left _ (List.mem_of_getElem? (i := j) ?_)
      rw [List.getElem?_take, if_pos hjk]
      exact hj
    · refine List.mem_append_right _ (List.mem_of_getElem? (i := j - (k + 1)) ?_)
      rw [List.getElem?_drop, show k + 1 + (j - (k + 1)) = j by omega]
      exact hj
  have herrands : r.errands = (r.calls.take k).filterMap Pending.errand? ++ (i, .wait) ::
      (r.calls.drop (k + 1)).filterMap Pending.errand? := by
    rw [errands_split hsplit, ← herrand]
    rfl
  rw [herrands] at hledger
  refine hledger.alone other.errand.1 ?_
  rw [← List.filterMap_append, ← hother]
  exact List.mem_filterMap.mpr ⟨_, hrest, rfl⟩

theorem Sole.settle (h : Sole r.calls k) (hp : Patient r.calls) : Sole r.settle.calls k := by
  intro j call patience hj herrand
  obtain ⟨before, hbefore, hcore⟩ := waiting_of_settle hp hj
  have hsame (a b : Call) (hab : a.core = b.core) : a.errand = b.errand := by
    cases a <;> cases b <;> cases hab <;> rfl
  exact h j before none hbefore (hsame _ _ hcore ▸ herrand)

theorem wordsTo_endInstants {calls : List Pending}
    (h : ∀ call patience, .waiting call patience ∈ calls → call.errand ≠ (i, .wait)) (l : Lifecycle) :
    (endInstant l calls).1.wordsTo i = l.wordsTo i := by
  induction calls generalizing l with
  | nil => rfl
  | cons p rest ih =>
    have hrest := ih fun call patience hmem => h call patience (List.mem_cons_of_mem _ hmem)
    cases p with
    | finished reply => exact hrest l
    | waiting call patience =>
      exact (hrest _).trans (wordsTo_endInstant l (h call patience (List.mem_cons_self ..)))

/-- **The word at the end of an instant** is given by the one call that waits for the invocation. -/
theorem leaveInstant_word (h : r.calls[k]? = some (.waiting call none)) (hsole : Sole r.calls k)
    (i : Nat) :
    ∃ m : Lifecycle, m.now = r.lifecycle.now ∧ m.wordsTo i = r.lifecycle.wordsTo i ∧
      r.leaveInstant.lifecycle.wordsTo i = (m.endInstant call).1.wordsTo i ∧
        r.leaveInstant.calls[k]? = some (.waiting (m.endInstant call).2 none) := by
  have hcalls (calls : List Pending) (l : Lifecycle) (k : Nat)
      (h : calls[k]? = some (.waiting call none)) (hsole : Sole calls k) :
      ∃ m : Lifecycle, m.now = l.now ∧ m.wordsTo i = l.wordsTo i ∧
        (endInstant l calls).1.wordsTo i = (m.endInstant call).1.wordsTo i ∧
          (endInstant l calls).2[k]? = some (.waiting (m.endInstant call).2 none) := by
    induction calls generalizing l k with
    | nil => exact absurd h (by simp)
    | cons p rest ih =>
      cases k with
      | zero =>
        cases h
        have hothers (other : Call) (patience : Option Nat) (hmem : .waiting other patience ∈ rest) :
            other.errand ≠ (i, .wait) := by
          intro herrand
          obtain ⟨j, hj⟩ := List.getElem?_of_mem hmem
          exact absurd (hsole (j + 1) other patience hj (congrArg Prod.snd herrand)) (by simp)
        exact ⟨l, rfl, rfl, wordsTo_endInstants hothers (l.endInstant call).1, rfl⟩
      | succ k =>
        have hrest : Sole rest k := fun j other patience hj herrand =>
          Nat.succ.inj (hsole (j + 1) other patience hj herrand)
        cases p with
        | finished other => exact ih l k h hrest
        | waiting other patience =>
          obtain ⟨m, hnow, hbefore, hword, hnext⟩ := ih (l.endInstant other).1 k h hrest
          refine ⟨m, hnow.trans (quiet_endInstant l other).now, hbefore.trans ?_, hword, hnext⟩
          refine wordsTo_endInstant l fun herrand => ?_
          exact absurd (hsole 0 other patience rfl (congrArg Prod.snd herrand)) (by simp)
  exact hcalls r.calls r.lifecycle k h hsole

end Run

end EventUpload
