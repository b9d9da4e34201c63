import EventUpload.Command.Uploader
import EventUpload.Proofs.Lifecycle.Replies
import EventUpload.Proofs.Stream.Deed

/-!
# Hooks around commands

A host calls an uploader before and after its commands, and when its process ends; it may do so in any
order, as often as it likes, and with options that cannot be used. `Uploader.Hosted` has every uploader
that such a sequence of calls leads to. Between two calls anything may happen to the sinks and outside
(`Uploader.Meanwhile`); only the listener of a stream is nobody else's to take away.

An uploader keeps its running command apart from the lifecycle. `Uploader.Standing` says how the two fit
together once a call has been answered: the running command is the active invocation, which has a
listener, and the lifecycle waits for nothing. Every call keeps this, so it holds throughout
(`Hosted.standing`), and from it follows what a host may rely on (`Hosted.in_step`).

A call before a command goes through two phases of the lifecycle, and in between it may find that the
options are of no use or that no connection can be made. Each way out has to come back to a phase in
which the next call is accepted: a command that starts does so by being active, and one that is given up
by being abandoned (`rejectOptions`). `exists_before` cuts the call at the end of its wait, so that what
comes after it (`opened`) is looked at once and not for each state that the call may find.

The calls here are waited for. A host that drops one may leave the lifecycle waiting for a start, and
that is the subject of `Command/Attended`, with less that can be said.
-/

set_option autoImplicit false

namespace EventUpload

open Lifecycle

/-! ## Listeners

A listener can only be lost by a deed of its stream, and only the host has streams in its hands. -/

namespace Lifecycle

variable {l m : Lifecycle} {i : Nat}

/-- The stream of an invocation has a listener for captured output. -/
def Listens (l : Lifecycle) (i : Nat) : Prop :=
  ∃ v, l.invocation? i = some v ∧ v.stream.listener.isSome = true

/-- Nothing that goes on by itself touches a listener. -/
theorem Passes.listens (h : l.Passes m) (hl : l.Listens i) : m.Listens i := by
  obtain ⟨v, hv, hlistener⟩ := hl
  obtain ⟨w, hw, sinks, rfl, -⟩ := h.invocation? hv
  exact ⟨_, hw, hlistener⟩

theorem Listens.updateStream (hl : l.Listens i) {f : Stream → Stream} (j : Nat)
    (hf : ∀ s : Stream, s.listener.isSome = true → (f s).listener.isSome = true) :
    (l.updateStream j f).Listens i := by
  obtain ⟨v, hv, hlistener⟩ := hl
  by_cases hj : j = i
  · subst hj
    exact ⟨_, invocation?_update_self hv _, hf _ hlistener⟩
  · refine ⟨v, ?_, hlistener⟩
    rw [Lifecycle.updateStream, invocation?_update, if_neg hj, hv]

end Lifecycle

/-! ## The calls of a host

A hook is answered before the next one, and the process may be left at any of them. What happens between
two hooks is not under the control of the host and is described by `Meanwhile`. -/

/-- A call of the host around its commands. -/
inductive Hook where
  | before (command : String) (options : UploadOptions) (ids : CommandIds)
  | after
  | shutdown
  | crash

namespace Uploader

variable {u v : Uploader} {crashed : Prop} {connector : Connector} {hooks : List Hook}

/-- The uploader when the call has been answered. -/
def answer (u : Uploader) : Hook → Uploader
  | .before command options ids => (u.before command options ids none).1
  | .after => (u.after none).1
  | .shutdown => u.shutdown
  | .crash => u.crash

/-- What goes on while no call is being answered. Sinks, drains and the outside do whatever they like
and time passes; nobody takes a listener away. -/
inductive Meanwhile (u : Uploader) : Uploader → Prop where
  | drift {l : Lifecycle} : u.lifecycle.Drift l → (∀ i, u.lifecycle.Listens i → l.Listens i) →
      Meanwhile u { u with lifecycle := l }

/-- The uploaders to which calls of a host lead, one call after the other. -/
inductive Hosted (connector : Connector) : List Hook → Uploader → Prop where
  | new (outside : Outside) : Hosted connector [] (.new connector outside)
  | hook {hooks : List Hook} {u : Uploader} (hook : Hook) :
      Hosted connector hooks u → Hosted connector (hooks ++ [hook]) (u.answer hook)
  | meanwhile {hooks : List Hook} {u v : Uploader} :
      Hosted connector hooks u → u.Meanwhile v → Hosted connector hooks v

/-- The listener for the output of the running command. -/
def listener? (u : Uploader) : Option Listener := do
  let c ← u.current
  let v ← u.lifecycle.invocation? c.index
  v.stream.listener

/-! ## The invariant

`phase` leaves out only the phase of waiting: a call that has been answered has either started a command
or abandoned it. -/

/-- No call is being answered: the running command is the active invocation, which has a listener. -/
structure Standing (u : Uploader) (crashed : Prop) : Prop where
  orderly : Orderly u.lifecycle []
  active : u.lifecycle.active = u.current.map RunningCommand.index
  listens : ∀ i, u.lifecycle.active = some i → u.lifecycle.Listens i
  phase : u.lifecycle.phase ≠ .waitingPrevious
  crashed : u.lifecycle.phase = .crashed ↔ crashed

namespace Standing

theorem new (connector : Connector) (outside : Outside) :
    (Uploader.new connector outside).Standing False where
  orderly := .new .standard outside
  active := rfl
  listens := fun i hi => absurd hi (by simp [Uploader.new, Lifecycle.new])
  phase := by simp [Uploader.new, Lifecycle.new]
  crashed := by simp [Uploader.new, Lifecycle.new]

/-- Without an active invocation no command is running. -/
theorem of_inactive (horderly : Orderly u.lifecycle []) (hactive : u.lifecycle.active = none)
    (hcurrent : u.current = none) (hphase : u.lifecycle.phase ≠ .waitingPrevious)
    (hcrashed : u.lifecycle.phase = .crashed ↔ crashed) : u.Standing crashed where
  orderly := horderly
  active := by rw [hactive, hcurrent]; rfl
  listens := fun i hi => absurd (hactive.symm.trans hi) (by simp)
  phase := hphase
  crashed := hcrashed

theorem active_iff (h : u.Standing crashed) : u.lifecycle.phase = .active ↔ u.current.isSome := by
  have hsome : u.current.isSome = u.lifecycle.active.isSome := by
    rw [h.active, Option.isSome_map]
  rw [hsome, Option.isSome_iff_exists]
  constructor
  · intro hp
    obtain ⟨i, -, hi, -⟩ := h.orderly.active_of_phase hp
    exact ⟨i, hi⟩
  · rintro ⟨i, hi⟩
    exact (h.orderly.active i hi).1

theorem listener_iff (h : u.Standing crashed) : u.listener?.isSome = u.current.isSome := by
  cases hc : u.current with
  | none => simp [listener?, hc]
  | some c =>
    have hactive : u.lifecycle.active = some c.index := by rw [h.active, hc]; rfl
    obtain ⟨v, hv, hlistener⟩ := h.listens _ hactive
    simpa [listener?, hc, hv] using hlistener

theorem not_closing (h : u.Standing crashed) : u.lifecycle.phase ≠ .closing :=
  fun hp => absurd (h.orderly.closing hp) (by simp)

theorem idle_iff (h : u.Standing crashed) :
    u.lifecycle.phase = .idle ↔ u.current = none ∧ ¬ crashed := by
  rw [← Option.not_isSome_iff_eq_none, ← h.active_iff, ← h.crashed]
  have hwaiting := h.phase
  have hclosing := h.not_closing
  cases hp : u.lifecycle.phase <;> simp_all

theorem meanwhile (h : u.Standing crashed) (hm : u.Meanwhile v) : v.Standing crashed := by
  obtain ⟨hdrift, hlistens⟩ := hm
  exact {
    orderly := h.orderly.drift hdrift
    active := hdrift.active.trans h.active
    listens := fun i hi => hlistens i (h.listens i (hdrift.active.symm.trans hi))
    phase := hdrift.phase ▸ h.phase
    crashed := hdrift.phase ▸ h.crashed }

end Standing

/-! ## Before a command

The sinks of a command are opened when the previous uploads are settled, so the lifecycle is waiting for
a start all along. Nothing that is done then touches it but for posts and the outside. -/

/-- Opening files only touches what lies outside, and nobody watches the sinks yet. -/
theorem watch_openFiles (files : List (Encoding × FileOptions)) (outside : Outside) :
    ∀ s ∈ (openFiles files outside).2.1, s.watch = none := by
  induction files generalizing outside with
  | nil => exact fun s hs => absurd hs (by simp [openFiles])
  | cons file rest ih =>
    unfold openFiles
    split
    · intro s hs
      rcases List.mem_cons.mp hs with rfl | hs
      · rfl
      · exact ih _ s hs
    · exact ih outside

theorem quiet_sayOmitted (l : Lifecycle) (omitted : List OmittedFile) :
    l.Quiet (l.sayOmitted omitted) := by
  refine Quiet.foldl (fun l o => ?_) omitted l
  exact (quiet_note l _ _).trans (quiet_say _ _ _ _)

theorem quiet_connect (u : Uploader) (options : BackendOptions) :
    u.lifecycle.Quiet (u.connect options).1.lifecycle := by
  have hmake : u.lifecycle.Quiet (connect.make u options).1.lifecycle := by
    unfold connect.make
    dsimp only
    split
    · exact .refl _
    · exact quiet_say _ _ _ _
  unfold connect
  split
  · split
    · exact .refl _
    · exact hmake
  · exact hmake

/-- Opening the sinks of a command only posts something and reaches outside. -/
theorem quiet_sinksFor (u : Uploader) (options : UploadOptions) (ids : CommandIds) :
    u.lifecycle.Quiet (u.sinksFor options ids).1.lifecycle := by
  have hfiles (l : Lifecycle) (outside : Outside) (omitted : List OmittedFile) :
      l.Quiet ({ l with outside := outside }.sayOmitted omitted) :=
    ((Quiet.refl l).around l.strays outside).trans (quiet_sayOmitted _ omitted)
  unfold sinksFor
  cases options.backend with
  | none => exact hfiles _ _ _
  | some b =>
    have hconnect := quiet_connect u b
    dsimp only
    generalize u.connect b = connected at hconnect
    obtain ⟨v, _ | connection⟩ := connected
    · exact hconnect.trans (hfiles _ _ _)
    · exact (hconnect.trans (hfiles _ _ _)).trans (quiet_sayAll _ _ _ _)

theorem watch_sinksFor (u : Uploader) (options : UploadOptions) (ids : CommandIds) :
    ∀ s ∈ (u.sinksFor options ids).2, s.watch = none := by
  unfold sinksFor
  cases options.backend with
  | none => exact watch_openFiles _ _
  | some b =>
    dsimp only
    generalize u.connect b = connected
    obtain ⟨v, _ | connection⟩ := connected
    · exact watch_openFiles _ _
    · intro s hs
      rcases List.mem_append.mp hs with hs | hs
      · exact watch_openFiles _ _ s hs
      · obtain rfl := List.mem_singleton.mp hs
        rfl

/-- What a call before a command does once the previous uploads have been settled. -/
def opened (u : Uploader) (command : String) (options : UploadOptions) (ids : CommandIds) :
    Uploader × HostReply (List String) :=
  match options.check with
  | .error f => u.rejectOptions f
  | .ok () =>
    let (u, sinks) := if options.allows command then u.sinksFor options ids else (u, [])
    u.startCommand options ids sinks

theorem before_of_answered {command : String} {options : UploadOptions} {ids : CommandIds}
    {m : Lifecycle} {t : Nat} (h : Run.perform { u.lifecycle with limits := options.limits }
      HostCall.before.make none = (m, .answer .ok t)) :
    u.before command options ids none =
      ({ u with lifecycle := m } : Uploader).opened command options ids := by
  have h' : Run.perform { u.lifecycle with limits := options.limits } Lifecycle.before none =
      (m, .answer .ok t) := h
  unfold before
  dsimp only
  rw [h']
  rfl

/-- A call before a command is refused unless the lifecycle is idle; what it leaves are the limits. -/
theorem before_of_ne (hne : u.lifecycle.phase ≠ .idle) (command : String) (options : UploadOptions)
    (ids : CommandIds) (patience : Option Nat) : u.before command options ids patience =
      ({ u with lifecycle := { u.lifecycle with limits := options.limits } },
        .refused (Failure.outOfOrder .before u.lifecycle.phase).exit) := by
  have h : Run.perform { u.lifecycle with limits := options.limits } Lifecycle.before patience = _ :=
    perform_before_of_ne (l := { u.lifecycle with limits := options.limits }) hne patience
  unfold before
  dsimp only
  rw [h]

theorem startCommand_eq (hp : u.lifecycle.phase = .waitingPrevious) (options : UploadOptions)
    (ids : CommandIds) (sinks : List Sink) :
    u.startCommand options ids sinks =
      ({ u with
          lifecycle := (u.lifecycle.start ids sinks).1.updateStream u.lifecycle.invocations.length
            (·.attach (.empty options.outputBuffer options.outputChunk))
          current := some ⟨u.lifecycle.invocations.length, ids, options, sinks.map Sink.name⟩ },
        .ok (sinks.map Sink.name)) := by
  unfold startCommand Lifecycle.start
  rw [if_neg (by simp [hp, Operation.phase])]

theorem modify_concat {α : Type} (as : List α) (a : α) (f : α → α) :
    (as ++ [a]).modify as.length f = as ++ [f a] := by
  induction as with
  | nil => rfl
  | cons b as ih => simpa using ih

/-- A command starts with a new stream over its sinks, which has a listener. -/
theorem invocations_startCommand (hp : u.lifecycle.phase = .waitingPrevious) (options : UploadOptions)
    (ids : CommandIds) (sinks : List Sink) :
    (u.startCommand options ids sinks).1.lifecycle.invocations = u.lifecycle.invocations ++
      [⟨ids, (Stream.new sinks).attach (.empty options.outputBuffer options.outputChunk),
        .blocking⟩] := by
  have hstart : u.lifecycle.start ids sinks = _ :=
    if_neg (not_not_intro (hp : u.lifecycle.phase = Operation.start.phase))
  rw [startCommand_eq hp, hstart]
  exact modify_concat _ _ _

theorem rejectOptions_eq (hp : u.lifecycle.phase = .waitingPrevious) (f : Failure) :
    u.rejectOptions f =
      ({ u with lifecycle := { u.lifecycle.say .newcomer .error f.message with phase := .idle } },
        .refused f.exit) := by
  have hwaiting : ¬ (u.lifecycle.say .newcomer .error f.message).phase ≠ Operation.abandon.phase :=
    fun hne => hne hp
  unfold rejectOptions Lifecycle.abandon
  dsimp only
  rw [if_neg hwaiting]

/-- An invocation that has just started is active, and no other. -/
theorem active_start {l : Lifecycle} (hp : l.phase = .waitingPrevious) (ids : CommandIds)
    (sinks : List Sink) : (l.start ids sinks).1.active = some l.invocations.length ∧
      (l.start ids sinks).1.phase = .active ∧
      (l.start ids sinks).1.invocation? l.invocations.length = some ⟨ids, .new sinks, .blocking⟩ := by
  unfold Lifecycle.start
  rw [if_neg (by simp [hp, Operation.phase])]
  exact ⟨rfl, rfl, List.getElem?_concat_length⟩

/-- A command that starts leaves the uploader in the phase that goes with having a current command. -/
theorem Standing.startCommand (horderly : Orderly u.lifecycle [])
    (hp : u.lifecycle.phase = .waitingPrevious) (hcrashed : ¬ crashed) (options : UploadOptions)
    (ids : CommandIds) {sinks : List Sink} (hs : ∀ s ∈ sinks, s.watch = none) :
    (u.startCommand options ids sinks).1.Standing crashed := by
  obtain ⟨hactive, hphase, hnew⟩ := active_start hp ids sinks
  have hstart : HostCall.make (.start ids sinks) u.lifecycle =
      ((u.lifecycle.start ids sinks).1, .answered (.started (sinks.map Sink.name))) := by
    simp only [HostCall.make, Lifecycle.start]
    rw [if_neg (by simp [hp, Operation.phase])]
    rfl
  have hstarted := horderly.answered (c := .start ids sinks) ⟨Run.isFree_ofLifecycle _, hs⟩ hstart
  have hattached : (u.lifecycle.start ids sinks).1.Quiet
      ((u.lifecycle.start ids sinks).1.updateStream u.lifecycle.invocations.length
        (·.attach (.empty options.outputBuffer options.outputChunk))) :=
    quiet_updateStream fun s => Sink.forall₂_onward_refl s.sinks
  rw [startCommand_eq hp]
  exact {
    orderly := hstarted.quiet hattached
    active := hactive
    listens := fun i hi => by
      cases hactive.symm.trans hi
      exact ⟨_, invocation?_update_self hnew _, rfl⟩
    phase := by
      show (u.lifecycle.start ids sinks).1.phase ≠ .waitingPrevious
      simp [hphase]
    crashed := by
      show (u.lifecycle.start ids sinks).1.phase = .crashed ↔ crashed
      simp [hphase, hcrashed] }

theorem Standing.rejectOptions (horderly : Orderly u.lifecycle [])
    (hp : u.lifecycle.phase = .waitingPrevious) (hcurrent : u.current = none)
    (hcrashed : ¬ crashed) (f : Failure) : (u.rejectOptions f).1.Standing crashed := by
  have hactive : u.lifecycle.active = none := by
    cases ha : u.lifecycle.active with
    | none => rfl
    | some i => exact absurd (hp.symm.trans (horderly.active i ha).1) (by simp)
  have hsaid := horderly.quiet (quiet_say u.lifecycle .newcomer .error f.message)
  rw [rejectOptions_eq hp]
  refine .of_inactive (hsaid.toIdle hactive ?_) hactive hcurrent (by simp) (by simp [hcrashed])
  show u.lifecycle.phase ≠ .crashed
  simp [hp]

/-- Asking for a command while none is running: the uploads of the previous one are settled within the
grace, and then the command is opened. -/
theorem exists_before (h : u.Standing crashed) (hidle : u.lifecycle.phase = .idle) (command : String)
    (options : UploadOptions) (ids : CommandIds) :
    ∃ m, Orderly m [] ∧ m.phase = .waitingPrevious ∧
      m.now ≤ u.lifecycle.now + options.limits.previous ∧
      u.before command options ids none =
        ({ u with lifecycle := m } : Uploader).opened command options ids := by
  have horderly : Orderly { u.lifecycle with limits := options.limits } [] :=
    h.orderly.drift (.limits options.limits)
  obtain ⟨m, d, hperform, hd, hphase, -⟩ :=
    exists_perform_before (l := { u.lifecycle with limits := options.limits }) hidle
  have hleft := horderly.perform (c := .before) (Run.isFree_ofLifecycle _)
  rw [hperform] at hleft
  refine ⟨m, hleft, hphase, ?_, before_of_answered hperform⟩
  rw [Run.now_perform hperform]
  exact Nat.add_le_add_left hd u.lifecycle.now

theorem Standing.opened (horderly : Orderly u.lifecycle [])
    (hp : u.lifecycle.phase = .waitingPrevious) (hcurrent : u.current = none)
    (hcrashed : ¬ crashed) (command : String) (options : UploadOptions) (ids : CommandIds) :
    (u.opened command options ids).1.Standing crashed := by
  unfold Uploader.opened
  cases options.check with
  | error f => exact .rejectOptions horderly hp hcurrent hcrashed f
  | ok _ =>
    dsimp only
    split
    · have hsinks := quiet_sinksFor u options ids
      exact .startCommand (horderly.quiet hsinks) (hsinks.phase.trans hp) hcrashed options ids
        (watch_sinksFor u options ids)
    · exact .startCommand horderly hp hcrashed options ids (fun s hs => absurd hs (by simp))

/-- **A call before a command** leaves a command running, or leaves everything as it was but for the
limits: it is refused unless none is running. -/
theorem Standing.before (h : u.Standing crashed) (command : String) (options : UploadOptions)
    (ids : CommandIds) : (u.before command options ids none).1.Standing crashed := by
  by_cases hidle : u.lifecycle.phase = .idle
  · obtain ⟨hcurrent, hcrashed⟩ := h.idle_iff.mp hidle
    obtain ⟨m, horderly, hp, -, heq⟩ := exists_before h hidle command options ids
    rw [heq]
    exact .opened (u := { u with lifecycle := m }) horderly hp hcurrent hcrashed command options ids
  · rw [before_of_ne hidle]
    exact h.meanwhile (.drift (.limits options.limits) fun _ hi => hi)

/-- Options that can be used are answered by a start, whatever has become of the sinks. -/
theorem opened_of_valid (hp : u.lifecycle.phase = .waitingPrevious) {options : UploadOptions}
    (hvalid : options.check = .ok ()) (command : String) (ids : CommandIds) :
    ∃ v names, u.opened command options ids = (v, .ok names) ∧
      v.lifecycle.now = u.lifecycle.now := by
  have hstart {v : Uploader} (hv : v.lifecycle.phase = .waitingPrevious) (sinks : List Sink) :
      ∃ w names, v.startCommand options ids sinks = (w, .ok names) ∧
        w.lifecycle.now = v.lifecycle.now := by
    refine ⟨_, _, startCommand_eq hv options ids sinks, ?_⟩
    show (v.lifecycle.start ids sinks).1.now = v.lifecycle.now
    rw [Lifecycle.start, if_neg (by simp [hv, Operation.phase])]
    rfl
  unfold opened
  rw [hvalid]
  dsimp only
  split
  · have hsinks := quiet_sinksFor u options ids
    obtain ⟨w, names, heq, hnow⟩ := hstart (hsinks.phase.trans hp) (u.sinksFor options ids).2
    exact ⟨w, names, heq, hnow.trans hsinks.now⟩
  · exact hstart hp []

/-! ## After a command, and the end of the process

These calls end the active invocation, if there is one, and so the running command as well. -/

/-- What the end of an invocation leaves behind is all that is left of a command, but for posts. -/
theorem after_of_running {c : RunningCommand} (hc : u.current = some c) :
    (u.after none).1.current = none ∧
      (Run.perform u.lifecycle (HostCall.finish c.options.mode).make none).1.Quiet
        (u.after none).1.lifecycle := by
  unfold after
  rw [hc]
  dsimp only
  rw [show Run.perform u.lifecycle (·.finish c.options.mode) none =
    Run.perform u.lifecycle (HostCall.finish c.options.mode).make none from rfl]
  generalize Run.perform u.lifecycle (HostCall.finish c.options.mode).make none = left
  obtain ⟨l, reply⟩ := left
  cases reply with
  | dropped t => exact ⟨rfl, .refl l⟩
  | answer a t =>
    -- Whether the connection is kept makes no difference here.
    dsimp only
    generalize hv : (if c.options.keepConnections = true then _ else _ : Uploader) = v
    have hleft : v.current = none ∧ v.lifecycle = l := by
      rw [← hv]
      split <;> exact ⟨rfl, rfl⟩
    obtain ⟨hcurrent, rfl⟩ := hleft
    cases a with
    | report r =>
      refine ⟨?_, ?_⟩
      · cases farewell c <;> exact hcurrent
      · cases farewell c with
        | none => exact quiet_note _ _ _
        | some text => exact (quiet_say _ _ _ _).trans (quiet_note _ _ _)
    | refused f => exact ⟨hcurrent, .refl _⟩
    | ok => exact ⟨hcurrent, .refl _⟩
    | started names => exact ⟨hcurrent, .refl _⟩

theorem Standing.after (h : u.Standing crashed) : (u.after none).1.Standing crashed := by
  cases hc : u.current with
  | none =>
    have heq : u.after none = (u, .ok ⟨.blocking, []⟩) := by
      unfold Uploader.after
      rw [hc]
    rw [heq]
    exact h
  | some c =>
    obtain ⟨hcurrent, hquiet⟩ := after_of_running hc
    have hp : u.lifecycle.phase = .active := h.active_iff.mpr (by rw [hc]; rfl)
    have horderly := h.orderly.perform (c := .finish c.options.mode) (Run.isFree_ofLifecycle _)
    obtain ⟨hactive, hidle⟩ := perform_finish h.orderly hp c.options.mode
    have hnot : ¬ crashed := fun hc => by
      have := h.crashed.mpr hc
      rw [hp] at this
      exact absurd this (by simp)
    refine .of_inactive (horderly.quiet hquiet) (hquiet.active.trans hactive) hcurrent ?_ ?_
    · simp [hquiet.phase.trans hidle]
    · simp [hquiet.phase.trans hidle, hnot]

/-- Only a crash leaves the process crashed, and nothing leads out of it. -/
theorem Standing.leave (h : u.Standing crashed) (ending : Ending) :
    (u.leave ending.call.make).Standing (crashed ∨ ending = .crash) := by
  have horderly := h.orderly.perform (admits_ending u.lifecycle ending)
  obtain ⟨hactive, hphase⟩ := perform_ending h.orderly h.phase ending
  refine .of_inactive horderly hactive rfl ?_ ?_
  · show (Run.perform u.lifecycle ending.call.make none).1.phase ≠ .waitingPrevious
    rw [hphase]
    split
    · simp
    · cases ending <;> simp [Ending.final]
  · show (Run.perform u.lifecycle ending.call.make none).1.phase = .crashed ↔ _
    rw [hphase, ← h.crashed]
    split
    · next hcrash => simp [hcrash]
    · next hcrash => cases ending <;> simp [Ending.final, hcrash]

/-! ## Sequences of calls

The invariant holds of a new uploader and is kept by every hook and by what happens meanwhile. -/

theorem Standing.of_iff {crashed' : Prop} (h : u.Standing crashed) (hiff : crashed ↔ crashed') :
    u.Standing crashed' :=
  { h with crashed := h.crashed.trans hiff }

/-- Every call keeps the uploader and its lifecycle together. -/
theorem Standing.answer (h : u.Standing crashed) (hook : Hook) :
    (u.answer hook).Standing (crashed ∨ hook = .crash) := by
  cases hook with
  | before command options ids => exact (h.before command options ids).of_iff (by simp)
  | after => exact h.after.of_iff (by simp)
  | shutdown => exact (h.leave .shutdown).of_iff (by simp)
  | crash => exact (h.leave .crash).of_iff (by simp)

/-- **Between its calls a host finds the uploader in step with its lifecycle.** -/
theorem Hosted.standing (h : Hosted connector hooks u) : u.Standing (.crash ∈ hooks) := by
  induction h with
  | new outside => exact (Standing.new connector outside).of_iff (by simp)
  | hook hook _ ih => exact (ih.answer hook).of_iff (by simp [eq_comm])
  | meanwhile _ hm ih => exact ih.meanwhile hm

/-- Calls may follow each other at once. -/
theorem Hosted.foldl (h : Hosted connector hooks u) (more : List Hook) :
    Hosted connector (hooks ++ more) (more.foldl answer u) := by
  induction more generalizing hooks u with
  | nil => rwa [List.append_nil]
  | cons hook more ih =>
    rw [List.append_cons]
    exact ih (h.hook hook)

/-- **What a host may rely on between its calls**, whatever calls it has made and whatever has become of
its sinks: a command is running, and has a listener, exactly if the lifecycle is active; the lifecycle
neither waits to be told to start nor is it closing; and if no command is running and there was no
crash, then a call with options that can be used starts a command within the grace that they give. -/
theorem Hosted.in_step (h : Hosted connector hooks u) :
    (u.current.isSome ↔ u.lifecycle.phase = .active) ∧
    (u.listener?.isSome ↔ u.lifecycle.phase = .active) ∧
    u.lifecycle.phase ≠ .waitingPrevious ∧ u.lifecycle.phase ≠ .closing ∧
    (u.current = none → .crash ∉ hooks →
      ∀ command options ids, options.check = .ok () →
        ∃ v names, u.before command options ids none = (v, .ok names) ∧
          v.lifecycle.now ≤ u.lifecycle.now + options.limits.previous) := by
  have hstanding := h.standing
  refine ⟨hstanding.active_iff.symm, ?_, hstanding.phase, hstanding.not_closing, ?_⟩
  · rw [hstanding.listener_iff]
    exact hstanding.active_iff.symm
  · intro hcurrent hcrash command options ids hvalid
    have hidle := hstanding.idle_iff.mpr ⟨hcurrent, hcrash⟩
    obtain ⟨m, -, hp, hnow, hbefore⟩ := exists_before hstanding hidle command options ids
    obtain ⟨v, names, hopened, hv⟩ :=
      opened_of_valid (u := { u with lifecycle := m }) hp hvalid command ids
    exact ⟨v, names, hbefore.trans hopened, hv.symm ▸ hnow⟩

/-- Options with a backend. -/
def remote : UploadOptions := { UploadOptions.standard with backend := some (.at "http://localhost") }

def noRoute : Connector := fun _ _ => .error "no route"

/-- A command whose options cannot be used, one whose backend cannot be reached, and a shutdown while
that one is running. -/
def troubled : List Hook :=
  [.before "build" { remote with outputChunk := 0 } ⟨"request", "first"⟩,
    .before "build" remote ⟨"request", "second"⟩, .shutdown]

def afterTrouble : Uploader := troubled.foldl answer (.new noRoute .fresh)

/-- Nothing of this keeps the next command from starting. -/
theorem in_step_troubled : Hosted noRoute troubled afterTrouble ∧
    afterTrouble.current = none ∧ .crash ∉ troubled ∧ remote.check = .ok () ∧
    ∃ v names, afterTrouble.before "build" remote ⟨"request", "third"⟩ none = (v, .ok names) ∧
      v.lifecycle.now ≤ afterTrouble.lifecycle.now + 5000 := by
  have hhosted : Hosted noRoute troubled afterTrouble := (Hosted.new .fresh).foldl troubled
  have hcrash : .crash ∉ troubled := by simp [troubled]
  exact ⟨hhosted, rfl, hcrash, rfl,
    hhosted.in_step.2.2.2.2 rfl hcrash "build" remote ⟨"request", "third"⟩ rfl⟩

/-! ## What goes on between the calls

The host posts events and writes output to the stream of its command, and lets time pass. -/

theorem isSome_listener_apply {s : Stream} (hs : s.listener.isSome = true) (now : Nat)
    (d : StreamDeed) : (d.apply s now).listener.isSome = true := by
  obtain ⟨l, hl⟩ := Option.isSome_iff_exists.mp hs
  rw [d.apply_eq]
  show (d.listener s).isSome = true
  unfold StreamDeed.listener
  rw [hl]
  cases d with
  | attach listener => rfl
  | write channel bytes => rfl
  | resolve sink half outcome => rfl
  | post e => dsimp only; split <;> rfl
  | flush => dsimp only; split <;> rfl
  | close reason => dsimp only; split <;> rfl

theorem meanwhile_deed (u : Uploader) (i : Nat) (d : StreamDeed) : u.Meanwhile
    { u with lifecycle := u.lifecycle.updateStream i (d.apply · u.lifecycle.now) } :=
  .drift (.quiet (quiet_updateStream fun s => d.onward s u.lifecycle.now))
    fun _ hi => hi.updateStream i fun _ hs => isSome_listener_apply hs u.lifecycle.now d

theorem meanwhile_post (u : Uploader) (e : Event) : u.Meanwhile (u.post e) := by
  unfold post
  split
  · exact .drift (.quiet (.refl _)) fun _ hi => hi
  · next c _ =>
    dsimp only
    split
    · exact .drift (.quiet (quiet_note _ _ _)) fun _ hi => hi
    · exact meanwhile_deed u c.index (.post e)

theorem meanwhile_write (u : Uploader) (channel : OutputChannel) (bytes : List UInt8) :
    u.Meanwhile (u.write channel bytes) := by
  unfold write
  split
  · exact .drift (.quiet (.refl _)) fun _ hi => hi
  · next c _ => exact meanwhile_deed u c.index (.write channel bytes)

/-- Letting time pass is one thing after another that goes on while no call is being answered. -/
theorem Hosted.pass (h : Hosted connector hooks u) (span : Nat) :
    Hosted connector hooks { u with lifecycle := Run.pass u.lifecycle span } := by
  have hclosed : Run.Closed fun r =>
      r.calls = [] ∧ Hosted connector hooks { u with lifecycle := r.lifecycle } := {
    nodup := fun hr => hr.2.standing.orderly.drains.1
    sinks := fun hr => ⟨hr.1, hr.2.meanwhile (.drift (.quiet (quiet_settleSinks _))
      fun _ => (passes_afterSinks _).listens)⟩
    drain := fun hi hr => ⟨hr.1, hr.2.meanwhile (.drift (.drain hi)
      fun _ => (passes_settleDrain _ _).listens)⟩
    time := fun hle hr => ⟨hr.1, hr.2.meanwhile (.drift (.time hle) fun _ hi => hi)⟩
    look := fun hr => absurd hr.1 (by simp)
    word := fun hr => absurd hr.1 (by simp)
    forget := fun hr => ⟨by simp [hr.1], hr.2⟩ }
  exact (hclosed.pass ⟨rfl, h⟩ span).2

end Uploader

end EventUpload
