import EventUpload.Proofs.Command.Attended
import EventUpload.Proofs.Lifecycle.Invariants
import EventUpload.Proofs.Sink.Writes

/-!
# Commands that open nothing

A command whose options cannot be used is given up before anything is opened for it, and one that is not
among the allowed commands streams to no sinks. Both come after the previous uploads have been settled,
so nothing of these is outstanding any more, and nobody has touched their files but their own sinks
(`unopened`).

Only a host that has no command running, and has not crashed, can have uploads outstanding at all
(`Hosted.outstanding_none`): in any other state there is nothing to be settled.

That nothing is opened is said of the whole call, for every state and every patience (`OpensNothing`).
Files can only be said to have been written by those who have them open already, since sinks of the
previous command may come to write while their uploads are settled; none is created and none is emptied.
-/

set_option autoImplicit false

namespace EventUpload

open Lifecycle

/-! ## What is outstanding

The uploads of the previous command have been waited for by the time anything is decided about the new
one. -/

theorem Lifecycle.Drift.outstanding_none {l m : Lifecycle} (h : l.Drift m) (hl : l.outstanding? = none) :
    m.outstanding? = none := by
  cases h with
  | quiet hq => exact outstanding?_eq_none.mpr (hq.vacant (outstanding?_eq_none.mp hl))
  | drain _ => exact (passes_settleDrain l _).outstanding?_eq_none hl
  | time _ => exact hl
  | limits _ => exact hl

namespace Uploader

variable {u : Uploader} {connector : Connector} {hooks : List Hook}

/-- No call gets through to a lifecycle that has crashed. -/
theorem outstanding_answer_crashed {crashed : Prop} (h : u.Standing crashed)
    (hcrashed : u.lifecycle.phase = .crashed) (hook : Hook) :
    (u.answer hook).lifecycle.outstanding? = u.lifecycle.outstanding? := by
  cases hook with
  | before command options ids =>
    have hne : u.lifecycle.phase ≠ .idle := by simp [hcrashed]
    rw [answer, before_of_ne hne]
    rfl
  | after =>
    have hcurrent : u.current = none := by
      rw [← Option.not_isSome_iff_eq_none, ← h.active_iff]
      simp [hcrashed]
    rw [answer, Uploader.after, hcurrent]
  | shutdown =>
    exact congrArg (·.1.outstanding?) (Run.perform_answered _ (make_ending_crashed hcrashed .shutdown))
  | crash =>
    exact congrArg (·.1.outstanding?) (Run.perform_answered _ (make_ending_crashed hcrashed .crash))

/-- Nothing is outstanding after a crash. -/
theorem Hosted.outstanding_crashed (h : Hosted connector hooks u)
    (hcrashed : u.lifecycle.phase = .crashed) : u.lifecycle.outstanding? = none := by
  induction h with
  | new outside => exact absurd hcrashed (by simp [Uploader.new, Lifecycle.new])
  | @hook hooks u hook h ih =>
    have hstanding := h.standing
    by_cases hbefore : u.lifecycle.phase = .crashed
    · exact (outstanding_answer_crashed hstanding hbefore hook).trans (ih hbefore)
    · rcases (hstanding.answer hook).crashed.mp hcrashed with hmem | rfl
      · exact absurd (hstanding.crashed.mpr hmem) hbefore
      · exact hstanding.orderly.outstanding_perform_ending hbefore .crash
  | meanwhile _ hm ih =>
    obtain ⟨hdrift, -⟩ := hm
    exact hdrift.outstanding_none (ih (hdrift.phase.symm.trans hcrashed))

/-- **Only between two commands** uploads can be outstanding. -/
theorem Hosted.outstanding_none (h : Hosted connector hooks u) (hne : u.lifecycle.phase ≠ .idle) :
    u.lifecycle.outstanding? = none := by
  have hstanding := h.standing
  cases hp : u.lifecycle.phase with
  | idle => exact absurd hp hne
  | waitingPrevious => exact absurd hp hstanding.phase
  | closing => exact absurd hp hstanding.not_closing
  | crashed => exact h.outstanding_crashed hp
  | active =>
    obtain ⟨i, -, hi, -⟩ := hstanding.orderly.active_of_phase hp
    exact outstanding?_eq_none.mpr (hstanding.orderly.vacant (by simp [hi]))

/-! ## What is opened

What may have been opened shows in the outside and in the connections. -/

/-- Nothing has been opened: no connection was made or lost, no file has come or gone, and none has become
shorter. -/
structure OpensNothing (u v : Uploader) : Prop where
  connects : v.connects = u.connects
  kept : v.kept = u.kept
  files : u.lifecycle.outside.files.Writes (fun _ => True) v.lifecycle.outside.files

/-- While the previous uploads are settled, their sinks write to their files. -/
theorem writes_perform_before (l : Lifecycle) (patience : Option Nat) :
    l.outside.files.Writes (fun _ => True)
      (Run.perform l Lifecycle.before patience).1.outside.files := by
  have habides : Abides fun m => l.outside.files.Writes (fun _ => True) m.outside.files :=
    abides_outside (fun _ _ _ => trivial)
      (Destination.abides_writes (fun _ => True) l.outside.files).channel
  exact habides.perform Lifecycle.before (habides.before (.refl l.outside.files)) patience

theorem rejectOptions_aside (u : Uploader) (f : Failure) :
    (u.rejectOptions f).1.connects = u.connects ∧ (u.rejectOptions f).1.kept = u.kept ∧
      (u.rejectOptions f).1.lifecycle.outside = u.lifecycle.outside := by
  obtain ⟨phase, exit, hrejected⟩ := exists_rejectOptions u f
  rw [hrejected]
  exact ⟨rfl, rfl, rfl⟩

theorem startCommand_aside (u : Uploader) (options : UploadOptions) (ids : CommandIds)
    (sinks : List Sink) : (u.startCommand options ids sinks).1.connects = u.connects ∧
      (u.startCommand options ids sinks).1.kept = u.kept ∧
      (u.startCommand options ids sinks).1.lifecycle.outside = u.lifecycle.outside := by
  by_cases hp : u.lifecycle.phase = .waitingPrevious
  · have hstart : u.lifecycle.start ids sinks = _ :=
      if_neg (not_not_intro (hp : u.lifecycle.phase = Operation.start.phase))
    rw [startCommand_eq hp, hstart]
    exact ⟨rfl, rfl, rfl⟩
  · have hrefused : u.lifecycle.start ids sinks = _ := if_pos hp
    unfold startCommand
    rw [hrefused]
    exact ⟨rfl, rfl, rfl⟩

/-- What comes after the wait does not reach outside. -/
theorem opened_aside (u : Uploader) {command : String} {options : UploadOptions}
    (hnot : options.check ≠ .ok () ∨ options.allows command = false) (ids : CommandIds) :
    (u.opened command options ids).1.connects = u.connects ∧
      (u.opened command options ids).1.kept = u.kept ∧
      (u.opened command options ids).1.lifecycle.outside = u.lifecycle.outside := by
  unfold opened
  split
  · exact rejectOptions_aside u _
  · next hvalid =>
    have hallows := hnot.resolve_left (fun hne => hne hvalid)
    dsimp only
    rw [if_neg (by simp [hallows])]
    exact startCommand_aside u options ids []

/-- Whatever becomes of the call, it opens nothing. -/
theorem opensNothing_before (u : Uploader) {command : String} {options : UploadOptions}
    (hnot : options.check ≠ .ok () ∨ options.allows command = false) (ids : CommandIds)
    (patience : Option Nat) : u.OpensNothing (u.before command options ids patience).1 := by
  have hwrites := writes_perform_before { u.lifecycle with limits := options.limits } patience
  obtain ⟨m, reply, hperform, hdropped | ⟨f, hrefused⟩ | hopened⟩ :=
    before_cases u command options ids patience
  · rw [hperform] at hwrites
    rw [hdropped]
    exact ⟨rfl, rfl, hwrites⟩
  · rw [hperform] at hwrites
    rw [hrefused]
    exact ⟨rfl, rfl, hwrites⟩
  · rw [hperform] at hwrites
    obtain ⟨hconnects, hkept, houtside⟩ := opened_aside ({ u with lifecycle := m }) hnot ids
    rw [hopened]
    exact ⟨hconnects, hkept, houtside ▸ hwrites⟩

/-- Nothing is started meanwhile. -/
theorem length_perform_before (l : Lifecycle) :
    (Run.perform l Lifecycle.before none).1.invocations.length = l.invocations.length := by
  have hunasked := abides_unasked l.invocations
  have hsame : List.Forall₂ Invocation.Unasked l.invocations l.invocations :=
    List.forall₂_same.mpr fun v _ => .refl v
  have hperformed := hunasked.perform Lifecycle.before (hunasked.before hsame) none
  exact hperformed.length_eq.symm

theorem opened_of_error {options : UploadOptions} {f : Failure} (hp : u.lifecycle.phase = .waitingPrevious)
    (hcheck : options.check = .error f) (command : String) (ids : CommandIds) :
    u.opened command options ids = ({ u with lifecycle :=
      { u.lifecycle.say .newcomer .error f.message with phase := .idle } }, .refused f.exit) := by
  rw [opened, hcheck]
  exact rejectOptions_eq hp f

/-- What a command that is not allowed starts with. -/
structure StartsWithout (u v : Uploader) (options : UploadOptions) (ids : CommandIds) : Prop where
  current : v.current = some ⟨u.lifecycle.invocations.length, ids, options, []⟩
  phase : v.lifecycle.phase = .active
  invocations : v.lifecycle.invocations = u.lifecycle.invocations ++
    [⟨ids, (Stream.new []).attach (.empty options.outputBuffer options.outputChunk), .blocking⟩]
  outside : v.lifecycle.outside = u.lifecycle.outside
  pending : v.lifecycle.pending = u.lifecycle.pending
  now : v.lifecycle.now = u.lifecycle.now
  connects : v.connects = u.connects
  kept : v.kept = u.kept

/-- A stream without sinks leaves nothing outstanding that was not outstanding before. -/
theorem StartsWithout.outstanding_none {v : Uploader} {options : UploadOptions} {ids : CommandIds}
    (h : u.StartsWithout v options ids) (hu : u.lifecycle.outstanding? = none) :
    v.lifecycle.outstanding? = none := by
  refine outstanding?_eq_none.mpr fun i hi w hw => ?_
  rw [invocation?, h.invocations] at hw
  rcases Nat.lt_or_ge i u.lifecycle.invocations.length with hold | hnew
  · rw [List.getElem?_append_left hold] at hw
    exact outstanding?_eq_none.mp hu i (h.pending.symm.trans hi) w hw
  · rw [List.getElem?_append_right hnew] at hw
    obtain rfl := List.mem_singleton.mp (List.mem_of_getElem? hw)
    rfl

theorem opened_of_not_allowed {command : String} {options : UploadOptions}
    (hp : u.lifecycle.phase = .waitingPrevious) (hcheck : options.check = .ok ())
    (hnot : options.allows command = false) (ids : CommandIds) :
    (u.opened command options ids).2 = .ok [] ∧
      u.StartsWithout (u.opened command options ids).1 options ids := by
  have hopened : u.opened command options ids = u.startCommand options ids [] := by
    rw [opened, hcheck]
    dsimp only
    rw [if_neg (by simp [hnot])]
  have hstart : u.lifecycle.start ids [] = _ :=
    if_neg (not_not_intro (hp : u.lifecycle.phase = Operation.start.phase))
  have hinvocations := invocations_startCommand hp options ids []
  rw [hopened]
  rw [startCommand_eq hp, hstart] at hinvocations ⊢
  exact ⟨rfl, ⟨rfl, rfl, hinvocations, rfl, rfl, rfl, rfl, rfl⟩⟩

/-- Options that cannot be used are a fault of the environment. -/
theorem code_of_check {options : UploadOptions} {f : Failure} (h : options.check = .error f) :
    f.exit.code = .environmental := by
  unfold UploadOptions.check at h
  split at h
  · exact absurd h (by simp)
  · cases h
    rfl

/-- The previous uploads are settled, and then the options are given up or a command starts without sinks. -/
theorem reconciled_unopened (hidle : u.lifecycle.phase = .idle) {command : String}
    {options : UploadOptions} (ids : CommandIds)
    (hnot : options.check ≠ .ok () ∨ options.allows command = false) : ∃ m t,
      Run.perform { u.lifecycle with limits := options.limits } Lifecycle.before none =
        (m, .answer .ok t) ∧
      m.outstanding? = none ∧ m.now ≤ u.lifecycle.now + options.limits.previous ∧
      m.invocations.length = u.lifecycle.invocations.length ∧
      (∀ f, options.check = .error f →
        f.exit.code = .environmental ∧
        u.before command options ids none = ({ u with lifecycle :=
          { m.say .newcomer .error f.message with phase := .idle } }, .refused f.exit)) ∧
      (options.check = .ok () →
        (u.before command options ids none).2 = .ok [] ∧
        ({ u with lifecycle := m } : Uploader).StartsWithout
          (u.before command options ids none).1 options ids) := by
  obtain ⟨m, d, hperform, hd, hp, hnone⟩ :=
    exists_perform_before (l := { u.lifecycle with limits := options.limits }) hidle
  have hlength := length_perform_before { u.lifecycle with limits := options.limits }
  have hperform' : Run.perform { u.lifecycle with limits := options.limits } Lifecycle.before none = _ :=
    hperform
  rw [hperform'] at hlength
  refine ⟨m, _, hperform, hnone, ?_, hlength, fun f hcheck => ?_, fun hvalid => ?_⟩
  · rw [Run.now_perform hperform]
    exact Nat.add_le_add_left hd u.lifecycle.now
  · rw [before_of_answered hperform]
    exact ⟨code_of_check hcheck, opened_of_error (u := { u with lifecycle := m }) hp hcheck command ids⟩
  · have hallows := hnot.resolve_left (fun hne => hne hvalid)
    rw [before_of_answered hperform]
    exact opened_of_not_allowed (u := { u with lifecycle := m }) hp hvalid hallows ids

theorem outstanding_before (hidle : u.lifecycle.phase = .idle) {command : String}
    {options : UploadOptions} (ids : CommandIds)
    (hnot : options.check ≠ .ok () ∨ options.allows command = false) :
    (u.before command options ids none).1.lifecycle.outstanding? = none := by
  obtain ⟨m, t, -, hnone, -, -, herror, hvalid⟩ := reconciled_unopened hidle ids hnot
  cases hcheck : options.check with
  | error f =>
    rw [(herror f hcheck).2]
    exact hnone
  | ok _ => exact (hvalid hcheck).2.outstanding_none hnone

/-- **A command that cannot or may not upload opens nothing**, in whatever state the call finds the
uploader and whether the host waits for the answer or not. While another command is running, or after a
crash, it is refused. Otherwise the previous uploads are settled first: within the grace nothing is
outstanding any more. Then options that cannot be used are answered by one error to the user and a refusal
that blames the environment, and the lifecycle is idle with no stream started; and a command that is not
allowed starts with a stream to no sinks.

A host that waits for its answers only has uploads outstanding while no command is running, so it never
finds any outstanding after the call. -/
theorem unopened (u : Uploader) (command : String) (options : UploadOptions) (ids : CommandIds)
    (hnot : options.check ≠ .ok () ∨ options.allows command = false) :
    (∀ patience, u.OpensNothing (u.before command options ids patience).1) ∧
    (u.lifecycle.phase ≠ .idle → ∀ patience, ∃ exit : ProcessExit, exit.code = .internal ∧
      u.before command options ids patience =
        ({ u with lifecycle := { u.lifecycle with limits := options.limits } }, .refused exit)) ∧
    (u.lifecycle.phase = .idle → ∃ m t,
      Run.perform { u.lifecycle with limits := options.limits } Lifecycle.before none =
        (m, .answer .ok t) ∧
      m.outstanding? = none ∧ m.now ≤ u.lifecycle.now + options.limits.previous ∧
      m.invocations.length = u.lifecycle.invocations.length ∧
      (∀ f, options.check = .error f →
        f.exit.code = .environmental ∧
        u.before command options ids none = ({ u with lifecycle :=
          { m.say .newcomer .error f.message with phase := .idle } }, .refused f.exit)) ∧
      (options.check = .ok () →
        (u.before command options ids none).2 = .ok [] ∧
        ({ u with lifecycle := m } : Uploader).StartsWithout
          (u.before command options ids none).1 options ids)) ∧
    (∀ {connector : Connector} {hooks : List Hook}, Hosted connector hooks u →
      (u.lifecycle.outstanding?.isSome → u.current = none ∧ .crash ∉ hooks) ∧
      (u.before command options ids none).1.lifecycle.outstanding? = none) := by
  refine ⟨opensNothing_before u hnot ids, fun hne patience =>
    ⟨(Failure.outOfOrder .before u.lifecycle.phase).exit, rfl, before_of_ne hne _ _ _ _⟩, ?_, ?_⟩
  · intro hidle
    exact reconciled_unopened hidle ids hnot
  · intro connector hooks h
    refine ⟨fun hsome => h.standing.idle_iff.mp ?_, ?_⟩
    · by_contra hne
      exact absurd hsome (by simp [h.outstanding_none hne])
    · by_cases hidle : u.lifecycle.phase = .idle
      · exact outstanding_before hidle ids hnot
      · rw [before_of_ne hidle]
        exact h.outstanding_none hidle

/-- After some trouble a command comes whose chunks of output would be empty, and one that is not allowed. -/
theorem unopened_troubled :
    ({ remote with outputChunk := 0 } : UploadOptions).check ≠ .ok () ∧
    remote.allows "clean" = false ∧
    afterTrouble.OpensNothing
      (afterTrouble.before "build" { remote with outputChunk := 0 } ⟨"request", "third"⟩ none).1 ∧
    afterTrouble.OpensNothing (afterTrouble.before "clean" remote ⟨"request", "third"⟩ none).1 := by
  have hchunk : ({ remote with outputChunk := 0 } : UploadOptions).check ≠ .ok () := by decide
  have hclean : remote.allows "clean" = false := by decide
  exact ⟨hchunk, hclean,
    (afterTrouble.unopened "build" { remote with outputChunk := 0 } ⟨"request", "third"⟩
      (.inl hchunk)).1 none,
    (afterTrouble.unopened "clean" remote ⟨"request", "third"⟩ (.inr hclean)).1 none⟩

end Uploader

end EventUpload
