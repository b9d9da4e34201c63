import EventUpload.Proofs.Lifecycle.Await
import EventUpload.Proofs.Lifecycle.Undisturbed

/-!
# What a host goes through is a run

`Run.Step` and `Run.Idles` allow more than ever happens: calls may be looked at in any order, drains may
lag behind, and time may pass as it likes. A host does not take steps; it makes a call and waits for the
reply (`Run.perform`), lets time pass (`Run.pass`), or does something to a stream (`StreamDeed`). All of
these are sequences of steps (`Reachable.perform`, `Reachable.pass`, `Reachable.deed`), so what holds of
every reachable run holds of everything that a host goes through.

What goes on by itself is the same for narrower kinds of runs. `Run.Closed` says of a kind of runs that
this does not lead out of it, and then neither does waiting for a call or letting time pass
(`Closed.perform`, `Closed.pass`). Each field is one constructor of idling, and a kind that is given by
an inductive definition has them one for one; `idles_afterSinks` is the only one of them that takes more
than one step. Genuine runs are closed in this way as well (`Genuine.closed`).

What makes it a theorem and not a reading of definitions is the fuel. The program looks at all calls,
and then at those that have not been answered, for as many rounds as there are calls; it moves from
instant to instant as often as its horizon has milliseconds. A kind of runs that is closed does not
notice either. The other half, that the fuel is enough for the reply to come, is the business of
`Proofs.Lifecycle.Await`, and the only thing needed of it here is that a waiting call has its deadline
ahead (`le_deadline_of_make`).

Drains come off their list one by one while they have their turns, and a drain that is on the list twice
could have its turn after it has come off. So a kind of runs has to know that it is not
(`Closed.nodup`).
-/

set_option autoImplicit false

namespace EventUpload

open Relation (ReflTransGen)

namespace Lifecycle

theorem mem_drains_settleDrain {l : Lifecycle} {i j : Nat} (hj : j ∈ l.drains) (hne : j ≠ i) :
    j ∈ (l.settleDrain i).drains := by
  unfold settleDrain
  split
  · split
    · rw [(quiet_endDrain l i _).drains]
      exact List.mem_filter.mpr ⟨hj, by simpa using hne⟩
    · exact hj
  · exact hj

end Lifecycle

namespace Run

open Lifecycle

variable {l m : Lifecycle} {r : Run} {calls : List Pending}

/-- The host never loses patience with one of its calls. -/
def Patient (calls : List Pending) : Prop :=
  ∀ call patience, .waiting call patience ∈ calls → patience = none

theorem Patient.of_cons {p : Pending} (h : Patient (p :: calls)) : Patient calls :=
  fun call patience hmem => h call patience (List.mem_cons_of_mem _ hmem)

theorem Patient.cons {p : Pending} (hp : ∀ call patience, p = .waiting call patience →
    patience = none) (h : Patient calls) : Patient (p :: calls) := by
  intro call patience hmem
  rcases List.mem_cons.mp hmem with heq | hmem
  · exact hp call patience heq.symm
  · exact h call patience hmem

theorem Patient.finished {reply : Reply} (h : Patient calls) :
    Patient (.finished reply :: calls) :=
  h.cons fun _ _ heq => absurd heq (by simp)

theorem Patient.waiting {call : Call} (h : Patient calls) :
    Patient (.waiting call none :: calls) := by
  refine h.cons fun call' patience heq => ?_
  cases heq
  rfl

theorem Patient.after {progress : Progress} (h : Patient calls) :
    Patient ((after l progress none).2 :: calls) := by
  cases progress with
  | answered a => exact h.finished
  | waiting next => exact h.waiting

/-! ## One instant

An instant is taken apart into the steps of `Closed`. A drain takes itself off the list that is gone
through, which is what `nodup` is needed for. -/

/-- What goes on by itself does not lead out of a kind of runs. -/
structure Closed (P : Run → Prop) : Prop where
  nodup : ∀ {r}, P r → r.lifecycle.drains.Nodup
  sinks : ∀ {l calls}, P ⟨l, calls⟩ → P ⟨l.afterSinks, calls⟩
  drain : ∀ {l calls i}, i ∈ l.drains → P ⟨l, calls⟩ → P ⟨l.settleDrain i, calls⟩
  time : ∀ {l calls t}, l.now ≤ t → P ⟨l, calls⟩ → P ⟨{ l with now := t }, calls⟩
  look : ∀ {l earlier later} {call : Call}, P ⟨l, earlier ++ .waiting call none :: later⟩ →
    P ⟨(after (l.check call).1 (l.check call).2 none).1,
      earlier ++ (after (l.check call).1 (l.check call).2 none).2 :: later⟩
  word : ∀ {l earlier later} {call : Call}, P ⟨l, earlier ++ .waiting call none :: later⟩ →
    P ⟨(l.endInstant call).1, earlier ++ .waiting (l.endInstant call).2 none :: later⟩
  forget : ∀ {r}, P r → P { r with calls := r.calls.filter Pending.isWaiting }

namespace Closed

variable {P : Run → Prop}

/-- The drains have their turns one after the other; each of them only takes itself off the list. -/
theorem foldl_settleDrain (hP : Closed P) (is : List Nat) (hnodup : is.Nodup) (hmem : ∀ i ∈ is, i ∈ l.drains)
    (h : P ⟨l, calls⟩) : P ⟨is.foldl settleDrain l, calls⟩ := by
  -- A drain only steps while it is on the list, so no index may come twice.
  induction is generalizing l with
  | nil => exact h
  | cons i is ih =>
    obtain ⟨hi, hrest⟩ := List.nodup_cons.mp hnodup
    refine ih hrest (fun j hj => ?_) (hP.drain (hmem i (by simp)) h)
    refine mem_drains_settleDrain (hmem j (List.mem_cons_of_mem _ hj)) ?_
    rintro rfl
    exact hi hj

theorem settleLifecycle (hP : Closed P) (h : P ⟨l, calls⟩) : P ⟨l.settle, calls⟩ := by
  have hsinks := hP.sinks h
  exact hP.foldl_settleDrain l.afterSinks.drains (hP.nodup hsinks) (fun _ hi => hi) hsinks

theorem checkCalls (hP : Closed P) (calls : List Pending) (l : Lifecycle)
    (earlier : List Pending) (hp : Patient calls) (h : P ⟨l, earlier ++ calls⟩) :
    P ⟨(Run.checkCalls l calls).1, earlier ++ (Run.checkCalls l calls).2⟩ ∧
      Patient (Run.checkCalls l calls).2 := by
  induction calls generalizing l earlier with
  | nil => exact ⟨h, hp⟩
  | cons p rest ih =>
    cases p with
    | finished reply =>
      rw [List.append_cons] at h
      obtain ⟨hreach, hpatient⟩ := ih l _ hp.of_cons h
      rw [List.append_assoc] at hreach
      exact ⟨hreach, hpatient.finished⟩
    | waiting call patience =>
      obtain rfl := hp call patience (by simp)
      have hlook : P ⟨(after (l.check call).1 (l.check call).2 none).1,
          earlier ++ [(after (l.check call).1 (l.check call).2 none).2] ++ rest⟩ := by
        rw [← List.append_cons]
        exact hP.look h
      obtain ⟨hreach, hpatient⟩ := ih _ _ hp.of_cons hlook
      rw [List.append_assoc] at hreach
      rw [checkCalls_waiting]
      exact ⟨hreach, hpatient.after⟩

theorem settleRounds (hP : Closed P) (rounds : Nat) (h : P r) (hp : Patient r.calls) :
    P (Run.settleRounds rounds r) ∧ Patient (Run.settleRounds rounds r).calls := by
  induction rounds generalizing r with
  | zero => exact ⟨hP.settleLifecycle h, hp⟩
  | succ rounds ih =>
    obtain ⟨hreach, hpatient⟩ := hP.checkCalls r.calls _ [] hp (hP.settleLifecycle h)
    unfold Run.settleRounds
    dsimp only
    split
    · exact ih hreach hpatient
    · exact ⟨hreach, hpatient⟩

theorem endInstant (hP : Closed P) (calls : List Pending) (l : Lifecycle)
    (earlier : List Pending) (hp : Patient calls) (h : P ⟨l, earlier ++ calls⟩) :
    P ⟨(Run.endInstant l calls).1, earlier ++ (Run.endInstant l calls).2⟩ ∧
      Patient (Run.endInstant l calls).2 := by
  induction calls generalizing l earlier with
  | nil => exact ⟨h, hp⟩
  | cons p rest ih =>
    cases p with
    | finished reply =>
      rw [List.append_cons] at h
      obtain ⟨hreach, hpatient⟩ := ih l _ hp.of_cons h
      rw [List.append_assoc] at hreach
      exact ⟨hreach, hpatient.finished⟩
    | waiting call patience =>
      obtain rfl := hp call patience (by simp)
      have hword : P ⟨(l.endInstant call).1,
          earlier ++ [.waiting (l.endInstant call).2 none] ++ rest⟩ := by
        rw [← List.append_cons]
        exact hP.word h
      obtain ⟨hreach, hpatient⟩ := ih _ _ hp.of_cons hword
      rw [List.append_assoc] at hreach
      exact ⟨hreach, hpatient.waiting⟩

/-! ## Time

A run goes on with its calls as they are. Calls that are over may be forgotten, so that a run with no
waiting call counts as one without calls. -/

theorem go (hP : Closed P) (horizon : Nat) (wish : Run → Bool) (moves : Nat) (h : P r)
    (hp : Patient r.calls) : P (Run.go horizon wish moves r) := by
  induction moves generalizing r with
  | zero => exact (hP.settleRounds _ h hp).1
  | succ moves ih =>
    obtain ⟨hsettle, hpatient⟩ := hP.settleRounds (r.waitingCount + 1) h hp
    unfold Run.go
    dsimp only
    split
    · exact hsettle
    · split
      · next hlt =>
        obtain ⟨hleave, hpatient⟩ := hP.endInstant _ r.settle.lifecycle [] hpatient hsettle
        refine ih (hP.time ?_ hleave) hpatient
        exact Nat.le_of_lt (by rw [← now_leaveInstant] at hlt; exact hlt)
      · exact hsettle

/-- From one instant to another. -/
theorem arrival (hP : Closed P) (h : P r) (hp : Patient r.calls) (d : Nat) :
    P (r.arrival d) ∧ Patient (r.arrival d).calls := by
  induction d with
  | zero => exact ⟨h, hp⟩
  | succ d ih =>
    by_cases hn : (r.arrival d).next? = some (r.lifecycle.now + (d + 1))
    · obtain ⟨hsettle, hsettled⟩ := hP.settleRounds ((r.arrival d).waitingCount + 1) ih.1 ih.2
      obtain ⟨hleave, hleft⟩ := hP.endInstant _ (r.arrival d).settle.lifecycle [] hsettled hsettle
      have hlater : (r.arrival d).settle.leaveInstant.lifecycle.now ≤ r.lifecycle.now + (d + 1) := by
        rw [now_leaveInstant, now_settle]
        exact Nat.le_of_lt (lt_of_next hn)
      rw [arrival_of_next hn]
      exact ⟨hP.time hlater hleave, hleft⟩
    · rw [arrival_of_not_next hn]
      exact ih

/-- Calls that are over may be forgotten. -/
theorem forgotten (hP : Closed P) (h : P r) (hcount : r.waitingCount = 0) :
    P (Run.ofLifecycle r.lifecycle) := by
  have hnil : r.calls.filter Pending.isWaiting = [] := by
    refine List.filter_eq_nil_iff.mpr fun p hp => ?_
    exact List.countP_eq_zero.mp hcount p hp
  have hforget := hP.forget h
  rw [hnil] at hforget
  exact hforget

end Closed

/-! ## Calls

The loop that waits for the reply relies on a deadline that lies ahead. That it does is seen where the
call begins to wait, since its deadline is that instant and some time more. -/

theorem le_deadline_of_check {call next : Call} (hle : l.now ≤ call.deadline)
    (h : l.check call = (m, .waiting next)) : m.now ≤ next.deadline := by
  have hnow : m.now = l.now := by
    rw [← check_now l call, h]
  rw [hnow, deadline_check (congrArg Prod.snd h)]
  exact hle

theorem le_deadline_of_settleWithin {grace : Nat} {ending : Ending} {next : Call}
    (h : l.settleWithin grace ending = (m, .waiting next)) : m.now ≤ next.deadline := by
  unfold settleWithin at h
  split at h
  · exact le_deadline_of_check (Nat.le_add_right _ _) h
  · exact absurd (congrArg Prod.snd h) (by simp)

/-- A call that has to wait has its deadline ahead. -/
theorem le_deadline_of_make {c : HostCall} {next : Call} (h : c.make l = (m, .waiting next)) :
    m.now ≤ next.deadline := by
  have hrefuse (operation : Operation) : (l, l.refuse operation) ≠ (m, .waiting next) :=
    fun heq => absurd (congrArg Prod.snd heq) (by simp [refuse])
  -- A call that is refused or has nothing to wait for is answered; what is left has looked once,
  -- before its deadline.
  cases c with
  | before =>
    simp only [HostCall.make, Lifecycle.before] at h
    split at h
    · exact absurd h (hrefuse _)
    · split at h
      · exact absurd (congrArg Prod.snd h) (by simp)
      · exact le_deadline_of_check (Nat.le_add_right _ _) h
  | start ids sinks =>
    simp only [HostCall.make, Lifecycle.start] at h
    split at h
    · exact absurd (congrArg Prod.snd h) (by simp [refuse])
    · exact absurd (congrArg Prod.snd h) (by simp)
  | finish mode =>
    simp only [HostCall.make, Lifecycle.finish] at h
    split at h
    · exact absurd h (hrefuse _)
    · split at h
      · exact absurd (congrArg Prod.snd h) (by simp)
      · split at h
        · exact absurd (congrArg Prod.snd h) (by simp)
        · split at h
          · exact le_deadline_of_check (Nat.le_add_right _ _) h
          · exact absurd (congrArg Prod.snd h) (by simp)
  | abandon =>
    simp only [HostCall.make, Lifecycle.abandon] at h
    split at h
    · exact absurd h (hrefuse _)
    · exact absurd (congrArg Prod.snd h) (by simp)
  | crash =>
    simp only [HostCall.make, Lifecycle.crash] at h
    split at h
    · exact absurd (congrArg Prod.snd h) (by simp)
    · exact le_deadline_of_settleWithin h
  | shutdown =>
    simp only [HostCall.make, Lifecycle.shutdown] at h
    split at h
    · exact absurd (congrArg Prod.snd h) (by simp)
    · exact le_deadline_of_settleWithin h

namespace Closed

variable {P : Run → Prop}

/-- Waiting for the reply to a call does not lead out of a closed kind of runs. -/
theorem perform (hP : Closed P) {c : HostCall} (h : P ((Run.ofLifecycle l).call c.make none)) :
    P (Run.ofLifecycle (Run.perform l c.make none).1) := by
  cases hmake : c.make l with
  | mk m progress =>
    have hrun : (Run.ofLifecycle l).call c.make none =
        ⟨m, [(after m progress none).2]⟩ := by
      rw [Run.call, Run.ofLifecycle, hmake]
      cases progress <;> rfl
    rw [hrun] at h
    cases progress with
    | answered a =>
      rw [perform_answered c.make hmake]
      exact hP.forgotten h rfl
    | waiting next =>
      obtain ⟨d, n, b, a, _, _, _, _, _, hawait⟩ :=
        await_awaiting m next (le_deadline_of_make hmake)
      have hpatient : Patient (awaiting m next).calls := Patient.waiting fun _ _ h => absurd h (by simp)
      have hend : P (awaiting m next).await := hP.go _ _ _ h hpatient
      rw [perform_waiting c.make hmake hawait]
      rw [hawait] at hend
      exact hP.forgotten hend rfl

end Closed

theorem calls_go_ofLifecycle (horizon : Nat) (wish : Run → Bool) (moves : Nat) (l : Lifecycle) :
    (Run.go horizon wish moves (Run.ofLifecycle l)).calls = [] := by
  induction moves generalizing l with
  | zero =>
    unfold Run.go
    rw [settle_ofLifecycle]
    rfl
  | succ moves ih =>
    unfold Run.go
    rw [settle_ofLifecycle]
    dsimp only
    split
    · rfl
    · split
      · exact ih _
      · rfl

/-- Neither does letting time pass. -/
theorem Closed.pass {P : Run → Prop} (hP : Closed P) (h : P (Run.ofLifecycle l)) (span : Nat) :
    P (Run.ofLifecycle (Run.pass l span)) := by
  have hgo := hP.go (l.now + span) (fun _ => false) (l.now + span - l.now) h
    fun _ _ h => absurd h (by simp [Run.ofLifecycle])
  refine hP.forgotten hgo ?_
  show List.countP Pending.isWaiting (Run.go _ _ _ (Run.ofLifecycle l)).calls = 0
  rw [calls_go_ofLifecycle]
  rfl

/-! ## Sinks by themselves -/

/-- Everything that sinks do by themselves at an instant is idling. -/
theorem idles_afterSinks (l : Lifecycle) (calls : List Pending) :
    ReflTransGen Idles ⟨l, calls⟩ ⟨l.afterSinks, calls⟩ := by
  have hinvocations (is : List Nat) (l : Lifecycle) :
      ReflTransGen Idles ⟨l, calls⟩ ⟨is.foldl settleInvocation l, calls⟩ := by
    induction is generalizing l with
    | nil => exact .refl
    | cons i is ih =>
      refine ReflTransGen.trans ?_ (ih _)
      cases hv : l.invocation? i with
      | none => rw [settleInvocation_of_none hv]
      | some v =>
        rw [settleInvocation_of_some hv]
        exact .single (.stirs (.sinks _ hv (allGoOn_settleSinks v.sinks l.outside)))
  refine (hinvocations (List.range l.invocations.length) l).tail (.stirs ?_)
  rw [afterSinks, settleStrays_eq]
  exact .strays _ _ _

/-! ## Reachable runs -/

namespace Reachable

theorem closed : Closed Reachable where
  nodup := fun h => h.orderly.drains.1
  sinks := fun h => h.step (.drift (.quiet (quiet_settleSinks _)))
  drain := fun hi h => h.step (.drift (.drain hi))
  time := fun hle h => h.step (.drift (.time hle))
  look := fun h => h.step (.look rfl)
  word := fun h => h.step (.word rfl)
  forget := fun h => h.step .forget

/-- **Making a call and waiting for its reply** leads from a reachable run to a reachable run. -/
theorem perform {c : HostCall} (h : (Run.ofLifecycle l).Reachable)
    (hc : (Run.ofLifecycle l).Admits c) :
    (Run.ofLifecycle (Run.perform l c.make none).1).Reachable :=
  closed.perform (h.step (.call c hc))

/-- **Letting time pass** leads from a reachable run to a reachable run. -/
theorem pass (h : (Run.ofLifecycle l).Reachable) (span : Nat) :
    (Run.ofLifecycle (Run.pass l span)).Reachable := closed.pass h span

/-- **What a host does between its calls**, to whichever invocation, leads from a reachable run to a
reachable run. It may do so while calls are waiting. -/
theorem deed (h : Run.Reachable ⟨l, calls⟩) (i : Nat) (d : StreamDeed) :
    Run.Reachable ⟨l.updateStream i (d.apply · l.now), calls⟩ :=
  h.step (.drift (.quiet (Lifecycle.quiet_updateStream fun s => d.onward s l.now)))

end Reachable

end Run

end EventUpload
