import EventUpload.Proofs.Lifecycle.Alarms
import EventUpload.Proofs.Stream.Running

/-!
# The sinks of the active invocation

While an invocation is active its sinks are just its channels: nobody watches them or has cancelled
them, they have accepted all its events, and an alarm was raised if one of them has failed
(`Lifecycle.Runs`). This holds in every undisturbed run (`Run.Undisturbed.runs`). It ends when the host
asks for the end of the invocation, and this file says what that comes to (`Lifecycle.finish_cases`).

`Runs` is about the active invocation, whichever it is, and about nothing if there is none. So most
steps keep it for one of two reasons, that they leave the active invocation and its stream alone
(`Runs.keeps`), or that there is no active invocation afterwards (`Runs.of_inactive`), and only sinks
that go on and deeds have anything to do with streams.

`finish_cases` and `before_cases` say what the two calls of a host come to in terms of smaller things:
of looking at a call, of posting and of starting a drain. Those who follow an invocation beyond its end
go on from there (`Proofs.Lifecycle.AfterEnd`) and do not open the operations again.
-/

set_option autoImplicit false

namespace EventUpload

namespace Lifecycle

variable {l m : Lifecycle} {i : Nat} {v : Invocation}

/-! ## While an invocation is active -/

/-- The sinks of the active invocation are its channels, and nobody watches them. -/
def Runs (l : Lifecycle) : Prop :=
  ∀ i v, l.active = some i → l.invocation? i = some v → v.stream.Running (l.Alarmed i)

theorem Runs.of_inactive (h : l.active = none) : l.Runs :=
  fun i _ ha _ => absurd (h.symm.trans ha) (by simp)

/-- Nothing has happened to the active invocation. -/
theorem Runs.keeps (h : l.Runs) (hactive : m.active = l.active)
    (hinvocations : m.invocations = l.invocations) (hlog : l.log <+: m.log) : m.Runs := by
  intro i v ha hv
  rw [invocation?, hinvocations] at hv
  exact (h i v (hactive.symm.trans ha) hv).mono fun halarm => halarm.mono hlog

theorem Runs.sinks {sinks : List Sink} {errors : List SinkError} (h : l.Runs) (outside : Outside)
    (hv : l.invocation? i = some v) (hgo : Sink.AllGoOn l.now v.sinks sinks errors) :
    (({ l.update i (·.withSinks sinks) with outside := outside } : Lifecycle).sayErrors
      (.invocation i) errors).Runs := by
  have hsaid := says_sayErrors ({ l.update i (·.withSinks sinks) with outside := outside })
    (.invocation i) errors
  intro j w ha hw
  rw [hsaid.active] at ha
  rw [hsaid.invocation?] at hw
  change (l.update i (·.withSinks sinks)).invocation? j = some w at hw
  rw [invocation?_update] at hw
  by_cases hij : i = j
  · subst hij
    rw [if_pos rfl, hv] at hw
    cases hw
    have hrunning := h i v ha hv
    refine ⟨hrunning.next, ?_⟩
    refine hgo.keeps (fun hs hstir htold => hs.stirs hstir htold) ?_ fun s hs => ?_
    · exact alarmed_sayErrors _ i
    · exact (hrunning.sinks s hs).mono fun halarm => halarm.mono hsaid.log
  · rw [if_neg hij] at hw
    exact (h j w ha hw).mono fun halarm => halarm.mono hsaid.log

theorem Runs.deed (h : l.Runs) (i : Nat) (d : StreamDeed) :
    (l.updateStream i (d.apply · l.now)).Runs := by
  intro j w ha hw
  change (l.update i _).invocation? j = some w at hw
  rw [invocation?_update] at hw
  by_cases hij : i = j
  · subst hij
    rw [if_pos rfl] at hw
    obtain ⟨v, hv, rfl⟩ := Option.map_eq_some_iff.mp hw
    exact (h i v ha hv).deed d l.now
  · rw [if_neg hij] at hw
    exact h j w ha hw

theorem Stirs.runs (hs : l.Stirs m) (h : l.Runs) : m.Runs := by
  cases hs with
  | sinks outside hv hgo => exact h.sinks outside hv hgo
  | strays strays outside errors =>
    have hsaid := says_sayErrors ({ l with strays := strays, outside := outside }) .newcomer errors
    exact h.keeps hsaid.active (invocations_sayErrors _ _ _) hsaid.log
  | deed i d => exact h.deed i d
  | @drain i hi =>
    exact h.keeps (calm_settleDrain l i).active (invocations_settleDrain l i) (log_settleDrain l i)
  | time hle => exact h
  | limits limits => exact h

/-! ## The end of an invocation -/

/-- The lifecycle in which an invocation has been closed and published. -/
def ended (l : Lifecycle) (i : Nat) (mode : UploadMode) : Lifecycle :=
  ({ l with phase := .closing, active := none } : Lifecycle).closeAndPublish i mode none

theorem active_ended (l : Lifecycle) (i : Nat) (mode : UploadMode) :
    (l.ended i mode).active = none :=
  (quiet_closeStream { l with phase := .closing, active := none } i none).active

theorem phase_ended (l : Lifecycle) (i : Nat) (mode : UploadMode) :
    (l.ended i mode).phase = .closing :=
  (quiet_closeStream { l with phase := .closing, active := none } i none).phase

theorem invocation?_ended (hv : l.invocation? i = some v) (mode : UploadMode) :
    (l.ended i mode).invocation? i = some ({ v with
      stream := v.stream.close l.now (some .internal)
      mode := mode }.withSinks
        ((v.stream.close l.now (some .internal)).sinks.map (Sink.startWatch · l.now))) := by
  have hv' : ({ l with phase := .closing, active := none } : Lifecycle).invocation? i = some v := hv
  exact invocation?_closeAndPublish hv' mode none

/-- Ending the active invocation is waiting for it, or saying something and starting its drain. -/
theorem finish_cases (hp : l.phase = .active) (ha : l.active = some i) (mode : UploadMode)
    (hv : (l.ended i mode).invocation? i = some v) :
    (∃ start deadline noticed longest nextWord, l.finish mode =
      (l.ended i mode).check (.finish i start deadline noticed longest nextWord)) ∨
    ∃ m n a, (l.ended i mode).Says m ∧
      ({ m with drains := m.drains ++ [i] } : Lifecycle).Says n ∧
      l.finish mode = (n.leaveClosing, .answered a) := by
  have hended : ({ l with phase := .closing, active := none } :
      Lifecycle).closeAndPublish i mode none = l.ended i mode := rfl
  unfold finish
  rw [if_neg (by simp [hp, Operation.phase]), ha]
  dsimp only
  rw [hended, hv]
  have hsaid := Says.foldl (fun (l : Lifecycle) (s : Sink) =>
    says_tell l (.invocation i) (.notice (.closed s.name))) v.sinks (l.ended i mode)
  cases mode with
  | blocking => exact .inl ⟨_, _, _, _, _, rfl⟩
  | nonBlocking => exact .inr ⟨_, _, _, hsaid, says_note _ _ _, rfl⟩
  | fullyAsync => exact .inr ⟨_, _, _, hsaid, says_note _ _ _, rfl⟩

/-- When an invocation ends none is active. -/
theorem active_finish (hp : l.phase = .active) (ha : l.active = some i) (mode : UploadMode)
    (hv : (l.ended i mode).invocation? i = some v) : (l.finish mode).1.active = none := by
  rcases finish_cases hp ha mode hv with
    ⟨start, deadline, noticed, longest, nextWord, heq⟩ | ⟨m, n, a, hm, hn, heq⟩
  · rw [heq]
    exact (looks_check _ _).active.trans (active_ended l i mode)
  · rw [heq]
    show n.leaveClosing.active = none
    rw [active_leaveClosing, hn.active]
    exact hm.active.trans (active_ended l i mode)

/-! ## What the host asks for -/

/-- Asking for the next invocation is waiting for the last one, if there is anything to wait for. -/
theorem before_cases (hp : l.phase = .idle) : l.before.1 = l.inPhase .waitingPrevious ∨
    ∃ j grace deadline,
      l.before = (l.inPhase .waitingPrevious).check (.reconcile j grace deadline) := by
  rw [Lifecycle.before, if_neg (by simp [hp, Operation.phase])]
  dsimp only
  split
  · exact .inl rfl
  · exact .inr ⟨_, _, _, rfl⟩

theorem runs_before (hp : l.phase = .idle) (ha : l.active = none) : l.before.1.Runs := by
  refine .of_inactive ?_
  rcases before_cases hp with heq | ⟨j, grace, deadline, heq⟩
  · rw [heq]
    exact ha
  · rw [heq]
    exact (looks_check (l.inPhase .waitingPrevious) _).active.trans ha

/-- The sinks of an invocation that starts are its channels. -/
theorem runs_start (hp : l.phase = .waitingPrevious) (ids : CommandIds) {sinks : List Sink}
    (hnew : ∀ s ∈ sinks, ∃ bound name destination,
      s = .new bound (.channel (.new name destination))) : (l.start ids sinks).1.Runs := by
  rw [Lifecycle.start, if_neg (by simp [hp, Operation.phase])]
  intro i v ha hv
  cases ha
  have hlast : (l.invocations ++ [⟨ids, .new sinks, .blocking⟩])[l.invocations.length]? =
      some (⟨ids, .new sinks, .blocking⟩ : Invocation) := List.getElem?_concat_length
  cases hv.symm.trans hlast
  exact .new hnew

theorem runs_finish (hp : l.phase = .active) (ha : l.active = some i)
    (hv : l.invocation? i = some v) (mode : UploadMode) : (l.finish mode).1.Runs :=
  .of_inactive (active_finish hp ha mode (invocation?_ended hv mode))

theorem runs_abandon (hp : l.phase = .waitingPrevious) (ha : l.active = none) :
    l.abandon.1.Runs := by
  refine .of_inactive ?_
  rw [Lifecycle.abandon, if_neg (by simp [hp, Operation.phase])]
  exact ha

end Lifecycle

open Lifecycle

namespace Run

variable {r s : Run}

/-- While somebody waits nothing is active. -/
theorem Idles.runs (hs : r.Idles s) (ho : Orderly r.lifecycle r.roles) (h : r.lifecycle.Runs) :
    s.lifecycle.Runs := by
  cases hs with
  | stirs hs => exact hs.runs h
  | look hcalls =>
    have hnone := ho.alone (List.ne_nil_of_mem (role_mem_roles hcalls))
    rw [after_none]
    exact .of_inactive ((looks_check _ _).active.trans hnone)
  | word hcalls =>
    have hnone := ho.alone (List.ne_nil_of_mem (role_mem_roles hcalls))
    exact .of_inactive ((quiet_endInstant _ _).active.trans hnone)
  | refused hc hp =>
    obtain ⟨⟨strays, hsame⟩, -⟩ := refused_call hc hp
    rw [hsame]
    exact h
  | forget => exact h

/-- As long as nobody ends the process, the stream of the active invocation is running. -/
theorem Undisturbed.runs (h : r.Undisturbed) : r.lifecycle.Runs := by
  induction h with
  | new limits outside => exact .of_inactive rfl
  | idles hr hs ih => exact hs.runs hr.orderly ih
  | @call r c hr hf hc ih =>
    -- A call that another phase would have to accept is refused, and a refused call changes nothing
    -- here.
    have hinactive (hp : r.lifecycle.phase ≠ .active) : r.lifecycle.active = none := by
      cases ha : r.lifecycle.active with
      | none => rfl
      | some i => exact absurd (hr.orderly.active i ha).1 hp
    have hrefused {operation : Operation} (ho : c.operation? = some operation)
        (hp : r.lifecycle.phase ≠ operation.phase) : (r.call c.make none).lifecycle.Runs :=
      (Idles.refused ho hp).runs hr.orderly ih
    cases c with
    | before =>
      by_cases hp : r.lifecycle.phase = .idle
      · rw [lifecycle_call]
        exact runs_before hp (hinactive (by simp [hp]))
      · exact hrefused rfl hp
    | start ids sinks =>
      by_cases hp : r.lifecycle.phase = .waitingPrevious
      · rw [lifecycle_call]
        exact runs_start hp ids hc
      · exact hrefused rfl hp
    | finish mode =>
      by_cases hp : r.lifecycle.phase = .active
      · have ho := hr.roles_eq_nil hf ▸ hr.orderly
        obtain ⟨i, v, ha, hv⟩ := ho.active_of_phase hp
        rw [lifecycle_call]
        exact runs_finish hp ha hv mode
      · exact hrefused rfl hp
    | abandon =>
      by_cases hp : r.lifecycle.phase = .waitingPrevious
      · rw [lifecycle_call]
        exact runs_abandon hp (hinactive (by simp [hp]))
      · exact hrefused rfl hp
    | crash => exact hc.elim
    | shutdown => exact hc.elim

end Run

end EventUpload
