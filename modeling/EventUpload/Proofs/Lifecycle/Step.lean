import EventUpload.Lifecycle.Run
import EventUpload.Proofs.Lifecycle.Frames

/-!
# Steps of a run

`Run.reach` and `Run.call` let things happen in one fixed order. Nothing that is shown of a lifecycle
should rest on that order, so this file has a relation that does not: in a `Run.Step` the sinks go on, a
drain has its turn, time passes, a waiting call is looked at, or the host makes a call, in whatever
order. A run is `Reachable` if steps lead to it from a new lifecycle.

The host makes its calls one after another. Only the end of the process, a crash or a shutdown, may come
while another call is waiting, and since a crash handler runs by itself the host does not wait for it
(`IsFree`, `Admits`).

What one look at a waiting call can do is listed once, in `Looks`, and read off `Lifecycle.check` by
`looks_check`. Every constructor says what the pending place and the phase come to and leaves the sinks
and the posts to `Quiet`, which is what makes it possible to treat six outcomes of three kinds of calls
in one case analysis. Only the role of a call is kept (`Role`): deadlines and what a host was told
already do not matter to the phase, and those proofs that need them look at the call itself.

The relation allows more than happens, since sinks may go anywhere and time may jump. That the program
does nothing else is shown in `Proofs.Lifecycle.Schedule`. It allows less in two respects: no host drops
a call (`Run.Drops` in `Proofs.Lifecycle.DroppedCalls` has that), and no two calls of a free host
overlap.
-/

set_option autoImplicit false

namespace EventUpload

/-! ## Looking at a call -/

/-- What a waiting call is there for. -/
inductive Role where
  | reconcile (index : Nat)
  | finish
  | settle (ending : Ending)
deriving DecidableEq, Repr

/-- The role of a call. -/
def Call.role : Call → Role
  | .reconcile index _ _ => .reconcile index
  | .finish .. => .finish
  | .settle _ _ _ ending => .settle ending

/-- The role that is left when a call has been looked at. -/
def Progress.roles : Progress → List Role
  | .waiting call => [call.role]
  | .answered _ => []

/-- The phase in which a wait at the end of the process leaves the lifecycle. -/
def Ending.phaseAfter (ending : Ending) (phase : Phase) : Phase :=
  if ending = .shutdown && phase ≠ .crashed then .idle else phase

namespace Lifecycle

/-- What looking at a waiting call can do. -/
inductive Looks (l : Lifecycle) : Call → Lifecycle → Progress → Prop where
  | goesOn {call next : Call} {m : Lifecycle} :
      l.Quiet m → next.role = call.role → Looks l call m (.waiting next)
  /-- The wait for previous uploads is over. -/
  | reconciled {index grace deadline : Nat} {m : Lifecycle} :
      (l.retire index .newcomer false).Quiet m →
        Looks l (.reconcile index grace deadline) m (.answered .ok)
  /-- Nothing was there to be waited for. -/
  | vacuous {index grace deadline : Nat} : l.invocation? index = none →
      Looks l (.reconcile index grace deadline) l (.answered .ok)
  /-- All uploads of a blocking invocation have ended. -/
  | finished {index start deadline : Nat} {noticed : List Bool} {longest nextWord : Nat}
      {m : Lifecycle} {report : Report} : (l.retire index .wait false).Quiet m →
        Looks l (.finish index start deadline noticed longest nextWord) m.leaveClosing
          (.answered (.report report))
  /-- The cap of a blocking wait was reached, or there was nothing to be waited for. -/
  | cut {index start deadline : Nat} {noticed : List Bool} {longest nextWord : Nat}
      {m : Lifecycle} {a : Answer} : l.Quiet m → (∀ f, a ≠ .refused f) →
        Looks l (.finish index start deadline noticed longest nextWord) m.leaveClosing (.answered a)
  /-- The wait at the end of the process is over. -/
  | settled {index grace deadline : Nat} {ending : Ending} {m : Lifecycle} :
      (l.retire index .ending false).Quiet m →
        Looks l (.settle index grace deadline ending)
          { m with phase := ending.phaseAfter m.phase } (.answered .ok)

theorem endSettle_eq (l : Lifecycle) (index : Nat) (ending : Ending) :
    l.endSettle index ending =
      { l.retire index .ending true with
        phase := ending.phaseAfter (l.retire index .ending true).phase } := by
  unfold endSettle Ending.phaseAfter
  dsimp only
  split <;> rfl

/-- One look at a call does one of the few things that `Looks` lists. This is the only place where the
branches of `check` are gone through for the invariant. -/
theorem looks_check (l : Lifecycle) (call : Call) :
    l.Looks call (l.check call).1 (l.check call).2 := by
  cases call with
  | reconcile index grace deadline =>
    simp only [check]
    cases hv : l.invocation? index with
    | none => exact .vacuous hv
    | some v =>
      dsimp only
      cases l.reconcileVerdict? v grace deadline with
      | none => exact .goesOn (.refl l) rfl
      | some warning => exact .reconciled (quiet_endReconcile l index warning)
  | finish index start deadline noticed longest nextWord =>
    simp only [check]
    cases hv : l.invocation? index with
    | none => exact .cut (.refl l) fun f h => by cases h
    | some v =>
      dsimp only
      have hn := quiet_noticeClosed l index v noticed
      split
      · refine .finished (Quiet.trans ?_ (quiet_noteFinished _ index v))
        have hs := hn.trans (quiet_sayAll _ (.invocation index) .warning (closeWarnings v.errors))
        exact hs.retire index .wait
      · split
        · refine .cut (hn.trans ((quiet_say _ _ _ _).trans (quiet_noteFinished _ index v))) ?_
          exact fun f h => by cases h
        · exact .goesOn hn rfl
  | settle index grace deadline ending =>
    simp only [check]
    cases hv : l.invocation? index with
    | none =>
      dsimp only
      rw [endSettle_eq]
      exact .settled (quiet_retire l index .ending true)
    | some v =>
      dsimp only
      split
      · rw [endSettle_eq]
        refine .settled (Quiet.trans ?_ (quiet_retire _ index .ending true))
        exact (quiet_noteSettled l index v grace ending).retire index .ending
      · exact .goesOn (.refl l) rfl

/-- A call that was accepted is never refused later on. -/
theorem Looks.not_refused {l m : Lifecycle} {call : Call} {a : Answer}
    (h : l.Looks call m (.answered a)) (f : Failure) : a ≠ .refused f := by
  cases h with
  | reconciled _ => exact fun h => by cases h
  | vacuous _ => exact fun h => by cases h
  | finished _ => exact fun h => by cases h
  | cut _ ha => exact ha f
  | settled _ => exact fun h => by cases h

theorem quiet_endInstant (l : Lifecycle) (call : Call) : l.Quiet (l.endInstant call).1 := by
  unfold endInstant
  split
  · split
    · exact quiet_say _ _ _ _
    · exact .refl l
  · exact .refl l

theorem role_endInstant (l : Lifecycle) (call : Call) : (l.endInstant call).2.role = call.role := by
  unfold endInstant
  split
  · split <;> rfl
  · rfl

/-- What happens by itself, or because somebody posts events or sets limits. -/
inductive Drift (l : Lifecycle) : Lifecycle → Prop where
  | quiet {m : Lifecycle} : l.Quiet m → Drift l m
  | drain {index : Nat} : index ∈ l.drains → Drift l (l.settleDrain index)
  | time {t : Nat} : l.now ≤ t → Drift l { l with now := t }
  | limits (limits : Limits) : Drift l { l with limits := limits }

end Lifecycle

/-! ## The host -/

/-- What a host can ask of a lifecycle. -/
inductive HostCall where
  | before
  | start (ids : CommandIds) (sinks : List Sink)
  | finish (mode : UploadMode)
  | abandon
  | crash
  | shutdown

/-- What asking for it does. -/
def HostCall.make : HostCall → Lifecycle → Lifecycle × Progress
  | before, l => l.before
  | start ids sinks, l => l.start ids sinks
  | finish mode, l => l.finish mode
  | abandon, l => l.abandon
  | crash, l => l.crash
  | shutdown, l => l.shutdown

/-- The operation that a call stands for, if it is bound to a phase. -/
def HostCall.operation? : HostCall → Option Operation
  | before => some .before
  | start .. => some .start
  | finish _ => some .finish
  | abandon => some .abandon
  | crash | shutdown => none

/-! ## Runs -/

/-- The role of a call that is waiting. -/
def Pending.role? : Pending → Option Role
  | waiting call _ => some call.role
  | finished _ => none

namespace Run

/-- The roles of the calls that are waiting. -/
def roles (r : Run) : List Role := r.calls.filterMap Pending.role?

/-- The host waits for no call. -/
def IsFree (r : Run) : Prop := ∀ role ∈ r.roles, role = .settle .crash

/-- A host whose calls have all been answered is free. -/
theorem isFree_of_waitingCount {r : Run} (h : r.waitingCount = 0) : r.IsFree := by
  intro role hr
  obtain ⟨p, hp, hrole⟩ := List.mem_filterMap.mp hr
  have hwait := List.countP_eq_zero.mp h p hp
  cases p with
  | waiting call patience => exact absurd rfl hwait
  | finished reply => exact absurd hrole (by simp [Pending.role?])

/-- The host may make a call. Sinks that are handed over have not been watched before. -/
def Admits (r : Run) : HostCall → Prop
  | .crash | .shutdown => True
  | .start _ sinks => r.IsFree ∧ ∀ s ∈ sinks, s.watch = none
  | .before | .finish _ | .abandon => r.IsFree

/-- One thing happens in a run. -/
inductive Step (r : Run) : Run → Prop where
  | drift {l : Lifecycle} : r.lifecycle.Drift l → Step r { r with lifecycle := l }
  /-- A waiting call is looked at. -/
  | look {earlier later : List Pending} {call : Call} :
      r.calls = earlier ++ .waiting call none :: later →
        Step r ⟨(after (r.lifecycle.check call).1 (r.lifecycle.check call).2 none).1,
          earlier ++ (after (r.lifecycle.check call).1 (r.lifecycle.check call).2 none).2 :: later⟩
  /-- The instant is over for a waiting call. -/
  | word {earlier later : List Pending} {call : Call} :
      r.calls = earlier ++ .waiting call none :: later →
        Step r ⟨(r.lifecycle.endInstant call).1,
          earlier ++ .waiting (r.lifecycle.endInstant call).2 none :: later⟩
  | call (c : HostCall) : r.Admits c → Step r (r.call c.make none)
  /-- The host forgets the calls that have been answered. -/
  | forget : Step r { r with calls := r.calls.filter Pending.isWaiting }

/-- Steps lead to the run from a new lifecycle. -/
inductive Reachable : Run → Prop where
  | new (limits : Limits) (outside : Outside) : Reachable (ofLifecycle (.new limits outside))
  | step {r s : Run} : Reachable r → r.Step s → Reachable s

theorem after_none (l : Lifecycle) (progress : Progress) : (after l progress none).1 = l := by
  cases progress <;> rfl

theorem roles_after_none (l : Lifecycle) (progress : Progress) :
    [(after l progress none).2].filterMap Pending.role? = progress.roles := by
  cases progress <;> rfl

theorem roles_call (r : Run) (c : HostCall) :
    (r.call c.make none).roles = r.roles ++ (c.make r.lifecycle).2.roles := by
  have h := roles_after_none (c.make r.lifecycle).1 (c.make r.lifecycle).2
  rw [← h, roles, roles, ← List.filterMap_append]
  rfl

theorem lifecycle_call (r : Run) (c : HostCall) :
    (r.call c.make none).lifecycle = (c.make r.lifecycle).1 := after_none _ _

end Run

end EventUpload
