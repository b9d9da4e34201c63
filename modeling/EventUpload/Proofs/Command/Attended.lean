import EventUpload.Proofs.Command.Hooks
import EventUpload.Proofs.Lifecycle.Settling

/-!
# A host and its commands

`Uploader.Attended` has the uploaders that a host comes by: it makes its calls one after the other, with
whatever options, and may lose patience with each of them; between two calls it posts events, writes
output, does something to a stream or lets time pass, while the outside changes as it likes
(`Uploader.Interlude`). The options of the commands that were started are kept in order.

Unlike the sequences of calls in `Uploader.Hosted`, these may leave a call unanswered, so the lifecycle
can be left waiting for a start. What stays true is that a command only runs in the active phase
(`Attended.active`).

Interludes are functions and not a relation. A theorem about a call that should make no difference
compares two uploaders to which the same happens afterwards, and for that one must be able to say what
happens without looking at the uploader. `Interlude.keeps` is the general lemma: an interlude is a
remark, a deed, a change of the outside or time, and whatever these four leave alone it does.

A call before a command has an answer or is dropped, and in both cases the lifecycle is asked for the
next invocation from then on (`perform_before_idle`). That is an induction over the wait with calls of
one kind (`Run.Asked`), for a host whose patience may end at any instant.
-/

set_option autoImplicit false

namespace EventUpload

/-! ## Time without calls

Between the calls there is no waiting call to be looked at, so all that happens is settling and moving
on. -/

/-- What is kept from one instant to the next is kept while time passes. -/
theorem Run.pass_keeps {P : Lifecycle → Prop} (hsettle : ∀ {l : Lifecycle}, P l → P l.settle)
    (htime : ∀ {l : Lifecycle} (t : Nat), P l → P { l with now := t }) {l : Lifecycle} (h : P l)
    (span : Nat) : P (Run.pass l span) := by
  have hgo (moves : Nat) (horizon : Nat) (wish : Run → Bool) :
      ∀ l, P l → P (go horizon wish moves (ofLifecycle l)).lifecycle := by
    induction moves with
    | zero =>
      intro l hl
      rw [go, settle_ofLifecycle]
      exact hsettle hl
    | succ moves ih =>
      intro l hl
      rw [go, settle_ofLifecycle]
      dsimp only
      split
      · exact hsettle hl
      · split
        · exact ih _ (htime _ (hsettle hl))
        · exact hsettle hl
  exact hgo _ _ _ l h

/-! ## Waiting before a command

A call may be dropped at any instant, and then the lifecycle stays in the phase of waiting. Runs of this
kind have no other calls, so the invariant has only the phase and the form of the calls. -/

/-- A call before a command: it waits for the previous uploads, or it is over. -/
inductive Pending.Asks : Pending → Prop where
  | waiting (i grace deadline : Nat) (patience : Option Nat) :
      Asks (.waiting (.reconcile i grace deadline) patience)
  | answered (t : Nat) : Asks (.finished (.answer .ok t))
  | dropped (t : Nat) : Asks (.finished (.dropped t))

/-- A lifecycle that is asked for the next invocation, and for nothing else. -/
structure Run.Asked (r : Run) : Prop where
  phase : r.lifecycle.phase = .waitingPrevious
  calls : ∀ p ∈ r.calls, p.Asks

namespace Run

/-- Looking at the previous uploads answers the call or leaves it waiting, and the phase is the same. -/
theorem asks_check {l : Lifecycle} (hp : l.phase = .waitingPrevious) (i grace deadline : Nat)
    (patience : Option Nat) :
    (after (l.check (.reconcile i grace deadline)).1 (l.check (.reconcile i grace deadline)).2
        patience).1.phase = .waitingPrevious ∧
      (after (l.check (.reconcile i grace deadline)).1 (l.check (.reconcile i grace deadline)).2
        patience).2.Asks := by
  simp only [Lifecycle.check]
  split
  · exact ⟨hp, .answered _⟩
  · next v _ =>
    split
    · next warning _ =>
      exact ⟨((Lifecycle.says_endReconcile l i warning).phase.trans
        (Lifecycle.calm_retire l i .newcomer true).phase).trans hp, .answered _⟩
    · simp only [after, giveUp]
      split
      · exact ⟨hp, .dropped _⟩
      · exact ⟨hp, .waiting i grace deadline patience⟩

namespace Asked

theorem checkCalls {calls : List Pending} {l : Lifecycle} (h : Asked ⟨l, calls⟩) :
    Asked ⟨(Run.checkCalls l calls).1, (Run.checkCalls l calls).2⟩ := by
  obtain ⟨hp, hcalls⟩ := h
  induction calls generalizing l with
  | nil => exact ⟨hp, hcalls⟩
  | cons p rest ih =>
    have hrest := fun q hq => hcalls q (List.mem_cons_of_mem p hq)
    cases hcalls p (by simp) with
    | waiting i grace deadline patience =>
      obtain ⟨hp, hasks⟩ := asks_check hp i grace deadline patience
      have hleft := ih hp hrest
      rw [checkCalls_waiting]
      exact ⟨hleft.phase, List.forall_mem_cons.mpr ⟨hasks, hleft.calls⟩⟩
    | answered t => exact ⟨(ih hp hrest).phase, List.forall_mem_cons.mpr ⟨.answered t, (ih hp hrest).calls⟩⟩
    | dropped t => exact ⟨(ih hp hrest).phase, List.forall_mem_cons.mpr ⟨.dropped t, (ih hp hrest).calls⟩⟩

theorem settleRounds (rounds : Nat) {r : Run} (h : r.Asked) : (Run.settleRounds rounds r).Asked := by
  have hsettled : Asked ⟨r.lifecycle.settle, r.calls⟩ :=
    ⟨(Lifecycle.settle_phase _).trans h.phase, h.calls⟩
  induction rounds generalizing r with
  | zero => exact hsettled
  | succ rounds ih =>
    have hnext := hsettled.checkCalls
    unfold Run.settleRounds
    dsimp only
    split
    · exact ih hnext ⟨(Lifecycle.settle_phase _).trans hnext.phase, hnext.calls⟩
    · exact hnext

theorem leaveInstant {r : Run} (h : r.Asked) : r.leaveInstant.Asked := by
  obtain ⟨l, calls⟩ := r
  have hsame : Run.endInstant l calls = (l, calls) := by
    obtain ⟨-, hcalls⟩ := h
    dsimp only at hcalls
    induction calls with
    | nil => rfl
    | cons p rest ih =>
      have hrest := ih fun q hq => hcalls q (List.mem_cons_of_mem p hq)
      cases hcalls p (by simp) with
      | waiting i grace deadline patience =>
        simp only [Run.endInstant, Lifecycle.endInstant, hrest]
      | answered t => simp only [Run.endInstant, hrest]
      | dropped t => simp only [Run.endInstant, hrest]
  unfold Run.leaveInstant
  rw [hsame]
  exact h

theorem atInstant {r : Run} (h : r.Asked) (t : Nat) : (r.atInstant t).Asked := ⟨h.phase, h.calls⟩

theorem go (horizon : Nat) (wish : Run → Bool) (moves : Nat) {r : Run} (h : r.Asked) :
    (Run.go horizon wish moves r).Asked := by
  induction moves generalizing r with
  | zero => exact h.settleRounds _
  | succ moves ih =>
    have hsettled : r.settle.Asked := h.settleRounds _
    unfold Run.go
    dsimp only
    split
    · exact hsettled
    · split
      · exact ih (hsettled.leaveInstant.atInstant _)
      · exact hsettled

end Asked

/-- **An idle lifecycle that is asked for the next invocation** waits for its start from then on, whether
the host has the patience to hear the answer or not. -/
theorem perform_before_idle {l : Lifecycle} (hidle : l.phase = .idle) (patience : Option Nat) :
    ∃ m t, m.phase = .waitingPrevious ∧
      (perform l Lifecycle.before patience = (m, .answer .ok t) ∨
        perform l Lifecycle.before patience = (m, .dropped t)) := by
  have hmade : Asked ((ofLifecycle l).call Lifecycle.before patience) := by
    have hphase : ¬ l.phase ≠ Operation.before.phase := fun hne => hne hidle
    unfold call ofLifecycle Lifecycle.before
    dsimp only
    rw [if_neg hphase]
    split
    · exact ⟨rfl, List.forall_mem_singleton.mpr (.answered l.now)⟩
    · obtain ⟨hp, hasks⟩ := asks_check (l := { l with phase := .waitingPrevious }) rfl _
        l.limits.previous (l.now + l.limits.previous) patience
      exact ⟨hp, List.forall_mem_singleton.mpr hasks⟩
  obtain ⟨⟨m, calls⟩, hr, hp, hcalls⟩ : ∃ r : Run,
      (if ((ofLifecycle l).call Lifecycle.before patience).waitingCount = 0
        then (ofLifecycle l).call Lifecycle.before patience
        else ((ofLifecycle l).call Lifecycle.before patience).await) = r ∧ r.Asked := by
    refine ⟨_, rfl, ?_⟩
    split
    · exact hmade
    · exact hmade.go _ _ _
  unfold perform
  dsimp only
  rw [hr]
  cases calls with
  | nil => exact ⟨m, m.now, hp, .inr rfl⟩
  | cons p rest =>
    cases hcalls p (by simp) with
    | waiting i grace deadline patience => exact ⟨m, m.now, hp, .inr rfl⟩
    | answered t => exact ⟨m, t, hp, .inl rfl⟩
    | dropped t => exact ⟨m, t, hp, .inr rfl⟩

end Run

/-! ## Replies

Only a call that was answered with the names of its sinks has started a command, and only then are its
options among those that were served. -/

/-- The options of the command that a call has started, if it has started one. -/
def HostReply.started {α : Type} (options : UploadOptions) :
    HostReply α → List UploadOptions
  | .ok _ => [options]
  | .refused _ => []
  | .dropped => []

namespace Uploader

variable {connector : Connector} {served : List UploadOptions} {u : Uploader}

/-! ## Between the calls

What a host does to a stream and what time brings are of different kinds, but they have in common that
they are about the lifecycle alone. -/

/-- What happens while no call is being answered. -/
inductive Interlude where
  | post (e : Event)
  | write (channel : OutputChannel) (bytes : List UInt8)
  | deed (index : Nat) (d : StreamDeed)
  | outside (change : Outside → Outside)
  | pass (span : Nat)

/-- The uploader after the interlude. -/
def Interlude.apply (u : Uploader) : Interlude → Uploader
  | post e => u.post e
  | write channel bytes => u.write channel bytes
  | deed i d => { u with lifecycle := u.lifecycle.updateStream i (d.apply · u.lifecycle.now) }
  | outside change =>
    { u with lifecycle := { u.lifecycle with outside := change u.lifecycle.outside } }
  | pass span => { u with lifecycle := Run.pass u.lifecycle span }

/-- Interludes happen to the lifecycle alone. -/
theorem Interlude.apply_eq (u : Uploader) (i : Interlude) :
    i.apply u = { u with lifecycle := (i.apply u).lifecycle } := by
  cases i with
  | post e =>
    show u.post e = { u with lifecycle := (u.post e).lifecycle }
    unfold Uploader.post
    split
    · rfl
    · dsimp only
      split <;> rfl
  | write channel bytes =>
    show u.write channel bytes = { u with lifecycle := (u.write channel bytes).lifecycle }
    unfold Uploader.write
    split <;> rfl
  | deed i d => rfl
  | outside change => rfl
  | pass span => rfl

theorem Interlude.current_apply (u : Uploader) (i : Interlude) : (i.apply u).current = u.current := by
  rw [i.apply_eq]

/-- What remarks, what is done to streams, the outside and time leave alone is kept. -/
theorem Interlude.keeps {P : Lifecycle → Prop}
    (hnote : ∀ {l : Lifecycle} (whom : Addressee) (r : Remark), P l → P (l.note whom r))
    (hdeed : ∀ {l : Lifecycle} (i : Nat) (d : StreamDeed),
      P l → P (l.updateStream i (d.apply · l.now)))
    (houtside : ∀ {l : Lifecycle} (outside : Outside), P l → P { l with outside := outside })
    (hpass : ∀ {l : Lifecycle} (span : Nat), P l → P (Run.pass l span))
    (h : P u.lifecycle) (i : Interlude) : P (i.apply u).lifecycle := by
  cases i with
  | post e =>
    show P (u.post e).lifecycle
    unfold Uploader.post
    split
    · exact h
    · next c _ =>
      dsimp only
      split
      · exact hnote _ _ h
      · exact hdeed c.index (.post e) h
  | write channel bytes =>
    show P (u.write channel bytes).lifecycle
    unfold Uploader.write
    split
    · exact h
    · next c _ => exact hdeed c.index (.write channel bytes) h
  | deed i d => exact hdeed i d h
  | outside change => exact houtside _ h
  | pass span => exact hpass span h

/-- What the host does to streams, and the passing of time, is nothing to phase and limits. -/
theorem Interlude.aside (u : Uploader) (i : Interlude) :
    (i.apply u).lifecycle.phase = u.lifecycle.phase ∧
      (i.apply u).lifecycle.limits = u.lifecycle.limits := by
  refine i.keeps (P := fun l => l.phase = u.lifecycle.phase ∧ l.limits = u.lifecycle.limits)
    (fun _ _ hl => hl) (fun _ _ hl => hl) (fun _ hl => hl) (fun {l} span hl => ?_) ⟨rfl, rfl⟩
  refine Run.pass_keeps (P := fun l => l.phase = u.lifecycle.phase ∧ l.limits = u.lifecycle.limits)
    (fun {l} hl => ?_) (fun _ hl => hl) hl span
  rw [Lifecycle.settle_phase, Lifecycle.settle_limits]
  exact hl

theorem current_foldl_apply (is : List Interlude) (u : Uploader) :
    (is.foldl Interlude.apply u).current = u.current := by
  induction is generalizing u with
  | nil => rfl
  | cons i is ih => exact (ih (i.apply u)).trans (i.current_apply u)

theorem limits_foldl_apply (is : List Interlude) (u : Uploader) :
    (is.foldl Interlude.apply u).lifecycle.limits = u.lifecycle.limits := by
  induction is generalizing u with
  | nil => rfl
  | cons i is ih => exact (ih (i.apply u)).trans (i.aside u).2

/-! ## Sequences of calls

The calls may come in any order, so the ones that are refused are among them. -/

/-- The uploaders that a host comes by, with the options of the commands that were started. -/
inductive Attended (connector : Connector) : List UploadOptions → Uploader → Prop where
  | new (outside : Outside) : Attended connector [] (.new connector outside)
  | before {served : List UploadOptions} {u : Uploader} (command : String)
      (options : UploadOptions) (ids : CommandIds) (patience : Option Nat) :
      Attended connector served u →
        Attended connector (served ++ (u.before command options ids patience).2.started options)
          (u.before command options ids patience).1
  | after {served : List UploadOptions} {u : Uploader} (patience : Option Nat) :
      Attended connector served u → Attended connector served (u.after patience).1
  | shutdown {served : List UploadOptions} {u : Uploader} :
      Attended connector served u → Attended connector served u.shutdown
  | crash {served : List UploadOptions} {u : Uploader} :
      Attended connector served u → Attended connector served u.crash
  | interlude {served : List UploadOptions} {u : Uploader} (i : Interlude) :
      Attended connector served u → Attended connector served (i.apply u)

/-! ## Running commands

A command only runs in the active phase, whatever the host has dropped. The calls are taken apart for
this, and their cases serve for other properties of a host as well. -/

/-- **The end of a command** is the end of its invocation. Then something may be posted, and unless the
host has lost patience the connection is only kept if the options say so. -/
theorem exists_after {c : RunningCommand} (hc : u.current = some c) (patience : Option Nat) :
    ∃ m reply, Run.perform u.lifecycle (·.finish c.options.mode) patience = (m, reply) ∧
      (u.after patience = ({ u with lifecycle := m, current := none }, .dropped) ∨
        ∃ l kept answer, m.Says l ∧ (kept = u.kept ∨ kept = none) ∧
          (c.options.keepConnections = false → kept = none) ∧ answer ≠ .dropped ∧
          u.after patience =
            ({ u with lifecycle := l, kept := kept, current := none }, answer)) := by
  unfold Uploader.after
  rw [hc]
  dsimp only
  generalize Run.perform u.lifecycle (·.finish c.options.mode) patience = left
  obtain ⟨m, reply⟩ := left
  refine ⟨m, reply, rfl, ?_⟩
  cases reply with
  | dropped t => exact .inl rfl
  | answer a t =>
    right
    -- Whether the connections are kept or closed, the uploader differs only in what it has kept.
    obtain ⟨kept, hkept, hlost, heq⟩ : ∃ kept, (kept = u.kept ∨ kept = none) ∧
        (c.options.keepConnections = false → kept = none) ∧
        (if c.options.keepConnections then ({ u with lifecycle := m, current := none } : Uploader)
          else { u with lifecycle := m, kept := none, current := none }) =
          { u with lifecycle := m, kept := kept, current := none } := by
      cases c.options.keepConnections with
      | true => exact ⟨u.kept, .inl rfl, nofun, rfl⟩
      | false => exact ⟨none, .inr rfl, fun _ => rfl, rfl⟩
    dsimp only
    rw [heq]
    cases a with
    | ok => exact ⟨m, kept, .ok _, .refl m, hkept, hlost, nofun, rfl⟩
    | started names => exact ⟨m, kept, .ok _, .refl m, hkept, hlost, nofun, rfl⟩
    | refused f => exact ⟨m, kept, .refused _, .refl m, hkept, hlost, nofun, rfl⟩
    | report r =>
      cases farewell c with
      | none => exact ⟨_, kept, .ok r, Lifecycle.says_note m _ _, hkept, hlost, nofun, rfl⟩
      | some text =>
        exact ⟨_, kept, .ok r, (Lifecycle.says_say m (.invocation c.index) .info text).trans
          (Lifecycle.says_note _ _ _), hkept, hlost, nofun, rfl⟩

theorem current_after (u : Uploader) (patience : Option Nat) : (u.after patience).1.current = none := by
  cases hc : u.current with
  | none =>
    unfold Uploader.after
    rw [hc]
    exact hc
  | some c =>
    obtain ⟨m, reply, -, hdropped | ⟨l, kept, answer, -, -, -, -, hanswered⟩⟩ := exists_after hc patience
    · rw [hdropped]
    · rw [hanswered]

/-- A command that has been started runs in the active phase. -/
theorem active_startCommand (hcurrent : u.current = none) (options : UploadOptions) (ids : CommandIds)
    (sinks : List Sink) (hsome : (u.startCommand options ids sinks).1.current.isSome) :
    (u.startCommand options ids sinks).1.lifecycle.phase = .active := by
  by_cases hp : u.lifecycle.phase = .waitingPrevious
  · rw [startCommand_eq hp]
    exact (active_start hp ids sinks).2.1
  · have hrefused : u.lifecycle.start ids sinks = _ := if_pos hp
    unfold startCommand at hsome
    rw [hrefused] at hsome
    exact absurd hsome (by simp [hcurrent, Lifecycle.refuse])

/-- A call before a command ends with the wait for the previous uploads, or goes on to open the command. -/
theorem before_cases (u : Uploader) (command : String) (options : UploadOptions) (ids : CommandIds)
    (patience : Option Nat) : ∃ m reply,
      Run.perform { u.lifecycle with limits := options.limits } Lifecycle.before patience = (m, reply) ∧
      (u.before command options ids patience = ({ u with lifecycle := m }, .dropped) ∨
        (∃ f : Failure,
          u.before command options ids patience = ({ u with lifecycle := m }, .refused f.exit)) ∨
        u.before command options ids patience =
          ({ u with lifecycle := m } : Uploader).opened command options ids) := by
  unfold before
  dsimp only
  generalize Run.perform { u.lifecycle with limits := options.limits } Lifecycle.before patience = left
  obtain ⟨m, reply⟩ := left
  refine ⟨m, reply, rfl, ?_⟩
  cases reply with
  | dropped t => exact .inl rfl
  | answer a t =>
    cases a with
    | refused f => exact .inr (.inl ⟨f, rfl⟩)
    | ok => exact .inr (.inr rfl)
    | started names => exact .inr (.inr rfl)
    | report r => exact .inr (.inr rfl)

/-- When no command is running, the call is dropped, or goes on to open the command in the right phase. -/
theorem before_idle (hidle : u.lifecycle.phase = .idle) (command : String) (options : UploadOptions)
    (ids : CommandIds) (patience : Option Nat) : ∃ m t, m.phase = .waitingPrevious ∧
      (Run.perform { u.lifecycle with limits := options.limits } Lifecycle.before patience =
          (m, .answer .ok t) ∧
        u.before command options ids patience =
          ({ u with lifecycle := m } : Uploader).opened command options ids ∨
      Run.perform { u.lifecycle with limits := options.limits } Lifecycle.before patience =
          (m, .dropped t) ∧
        u.before command options ids patience = ({ u with lifecycle := m }, .dropped)) := by
  obtain ⟨m, t, hp, hanswered | hdropped⟩ :=
    Run.perform_before_idle (l := { u.lifecycle with limits := options.limits }) hidle patience
  · refine ⟨m, t, hp, .inl ⟨hanswered, ?_⟩⟩
    unfold before
    dsimp only
    rw [hanswered]
    rfl
  · refine ⟨m, t, hp, .inr ⟨hdropped, ?_⟩⟩
    unfold before
    dsimp only
    rw [hdropped]

theorem current_connect (u : Uploader) (options : BackendOptions) :
    (u.connect options).1.current = u.current := by
  have hmake : (connect.make u options).1.current = u.current := by
    unfold connect.make
    dsimp only
    split <;> rfl
  unfold connect
  split
  · split
    · rfl
    · exact hmake
  · exact hmake

theorem current_sinksFor (u : Uploader) (options : UploadOptions) (ids : CommandIds) :
    (u.sinksFor options ids).1.current = u.current := by
  unfold sinksFor
  cases options.backend with
  | none => rfl
  | some b =>
    have hconnect := current_connect u b
    dsimp only
    generalize u.connect b = connected at hconnect
    obtain ⟨v, _ | connection⟩ := connected <;> exact hconnect

/-- Options that cannot be used are given up with an error, and no command is running then. -/
theorem exists_rejectOptions (u : Uploader) (f : Failure) : ∃ phase exit,
    u.rejectOptions f = ({ u with lifecycle :=
      { u.lifecycle.say .newcomer .error f.message with phase := phase } }, .refused exit) := by
  by_cases hp : u.lifecycle.phase = .waitingPrevious
  · exact ⟨_, _, rejectOptions_eq hp f⟩
  · have habandon : (u.lifecycle.say .newcomer .error f.message).abandon = _ := if_pos hp
    refine ⟨u.lifecycle.phase, (Failure.outOfOrder .abandon u.lifecycle.phase).exit, ?_⟩
    unfold rejectOptions
    dsimp only
    rw [habandon]
    rfl

theorem active_opened (hcurrent : u.current = none) (command : String) (options : UploadOptions)
    (ids : CommandIds) (hsome : (u.opened command options ids).1.current.isSome) :
    (u.opened command options ids).1.lifecycle.phase = .active := by
  unfold opened at hsome ⊢
  split at hsome
  · next f _ =>
    obtain ⟨phase, exit, hrejected⟩ := exists_rejectOptions u f
    rw [hrejected] at hsome
    exact absurd hsome (by simp [hcurrent])
  · have hsinks : (if options.allows command then u.sinksFor options ids else (u, [])).1.current =
        none := by
      split
      · exact (current_sinksFor u options ids).trans hcurrent
      · exact hcurrent
    exact active_startCommand hsinks options ids _ hsome

/-- **A command only runs in the active phase**, whatever calls the host has dropped. -/
theorem Attended.active (h : Attended connector served u) :
    u.current.isSome → u.lifecycle.phase = .active := by
  induction h with
  | new outside => exact fun hsome => absurd hsome (by simp [Uploader.new])
  | @before served u command options ids patience _ ih =>
    by_cases hidle : u.lifecycle.phase = .idle
    · have hcurrent : u.current = none := by
        cases hc : u.current with
        | none => rfl
        | some c => exact absurd ((ih (by simp [hc])).symm.trans hidle) (by simp)
      obtain ⟨m, reply, -, hdropped | ⟨f, hrefused⟩ | hopened⟩ :=
        before_cases u command options ids patience
      · rw [hdropped]
        exact fun hsome => absurd hsome (by simp [hcurrent])
      · rw [hrefused]
        exact fun hsome => absurd hsome (by simp [hcurrent])
      · rw [hopened]
        exact active_opened (u := { u with lifecycle := m }) hcurrent command options ids
    · rw [before_of_ne hidle]
      exact ih
  | @after served u patience _ ih =>
    rw [current_after]
    exact fun hsome => absurd hsome (by simp)
  | shutdown _ ih => exact fun hsome => absurd hsome (by simp [Uploader.shutdown, Uploader.leave])
  | crash _ ih => exact fun hsome => absurd hsome (by simp [Uploader.crash, Uploader.leave])
  | @interlude served u i _ ih =>
    rw [i.current_apply, (i.aside u).1]
    exact ih

end Uploader

end EventUpload
