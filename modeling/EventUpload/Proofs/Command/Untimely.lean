import EventUpload.Proofs.Command.Attended
import EventUpload.Proofs.Lifecycle.Limits
import EventUpload.Proofs.Output.Taking

/-!
# A call before a command that comes too early

A host may ask for a command while another one is running, or after a crash. It is refused; but its
options have been looked at by then, and their limits hold from there on. Everything else is as it was:
the lifecycle with the pending uploads, the running command with its listener, and the connection that
is kept (`Attended.untimely`).

So the end of the running command waits and reports as it would have done without the call, unless it is
blocking and the options give another cap for such a wait. A shorter one cuts the wait of a command
whose own options ask for a longer one (`not_unheeded_hastyNeighbour`).

"As without the call" is an equation between two uploaders after the same interludes and the same end of
the command: they are equal but for the limits. It holds for everything that a host may do in between,
because nothing that happens while no call begins looks at the limits (`Lifecycle/Limits`). The
hypothesis about the cap is there for the one that the end of a blocking command looks at, and
`not_unheeded_hastyNeighbour` shows that it cannot be done without.
-/

set_option autoImplicit false

namespace EventUpload

/-- As long as nothing is written, the last event is all that is handed over at the end. -/
theorem Stream.post_last_of_empty {s : Stream} {e : Event} {buffer chunk : Nat}
    (hopen : s.closed = false) (hlast : e.last = true)
    (hlistener : s.listener = some (.empty buffer chunk)) (now : Nat) :
    s.post now e = (s.hand e).shut now := by
  have hdrain : s.drain = s := by
    obtain ⟨sinks, next, listener, snapshot, abort⟩ := s
    cases hlistener
    simp only [drain, Listener.take_empty, List.map_nil, List.foldl_nil]
  rw [post, hopen, if_neg (by simp), if_pos hlast, hdrain]

namespace Uploader

variable {connector : Connector} {served : List UploadOptions}

/-- The uploader under other limits. -/
def withLimits (u : Uploader) (limits : Limits) : Uploader :=
  { u with lifecycle := u.lifecycle.withLimits limits }

variable (u : Uploader) (limits : Limits)

/-! ## What does not look at limits -/

/-- What happens between the hooks looks at no limit. -/
theorem Interlude.apply_withLimits (i : Interlude) :
    i.apply (u.withLimits limits) = (i.apply u).withLimits limits := by
  have hcurrent : (u.withLimits limits).current = u.current := rfl
  cases i with
  | post e =>
    show (u.withLimits limits).post e = (u.post e).withLimits limits
    have hinvocation (i : Nat) :
      (u.withLimits limits).lifecycle.invocation? i = u.lifecycle.invocation? i := rfl
    unfold Uploader.post
    rw [hcurrent]
    cases u.current with
    | none => rfl
    | some c =>
      dsimp only
      rw [hinvocation]
      split <;> rfl
  | write channel bytes =>
    show (u.withLimits limits).write channel bytes = (u.write channel bytes).withLimits limits
    unfold Uploader.write
    rw [hcurrent]
    cases u.current <;> rfl
  | deed i d => rfl
  | outside change => rfl
  | pass span =>
    exact congrArg (fun l => { u with lifecycle := l }) (Run.pass_withLimits u.lifecycle limits span)

theorem foldl_apply_withLimits (is : List Interlude) :
    is.foldl Interlude.apply (u.withLimits limits) =
      (is.foldl Interlude.apply u).withLimits limits := by
  induction is generalizing u with
  | nil => rfl
  | cons i is ih =>
    rw [List.foldl_cons, List.foldl_cons, i.apply_withLimits]
    exact ih (i.apply u)

/-- The end of a command only looks at the cap of a blocking wait. -/
theorem after_withLimits (hcap : ∀ c, u.current = some c → c.options.mode = .blocking →
      limits.blocking = u.lifecycle.limits.blocking) (patience : Option Nat) :
    (u.withLimits limits).after patience =
      ((u.after patience).1.withLimits limits, (u.after patience).2) := by
  have hcurrent : (u.withLimits limits).current = u.current := rfl
  have hlifecycle : (u.withLimits limits).lifecycle = u.lifecycle.withLimits limits := rfl
  unfold after
  rw [hcurrent]
  cases hc : u.current with
  | none => rfl
  | some c =>
    dsimp only
    have hperform := Run.perform_withLimits u.lifecycle limits (·.finish c.options.mode)
      (Lifecycle.finish_withLimits u.lifecycle limits (hcap c hc)) patience
    rw [hlifecycle, hperform]
    generalize Run.perform u.lifecycle (·.finish c.options.mode) patience = left
    obtain ⟨l, reply⟩ := left
    cases reply with
    | dropped t => rfl
    | answer a t =>
      dsimp only
      cases a with
      | report r => cases c.options.keepConnections <;> cases farewell c <;> rfl
      | refused f => cases c.options.keepConnections <;> rfl
      | ok => cases c.options.keepConnections <;> rfl
      | started names => cases c.options.keepConnections <;> rfl

/-! ## The refusal -/

variable {u}

/-- **A call before a command while another one is running, or after a crash, is refused as out of order
and changes nothing but the limits.** Whatever happens then, the end of the running command waits and
reports as if there had been no such call, provided that a blocking one finds the cap it had. -/
theorem Attended.untimely (h : Attended connector served u)
    (hbusy : u.current.isSome ∨ u.lifecycle.phase = .crashed) (command : String)
    (options : UploadOptions) (ids : CommandIds) (patience : Option Nat) :
    ∃ exit : ProcessExit, exit.code = .internal ∧
      u.before command options ids patience = (u.withLimits options.limits, .refused exit) ∧
      ((∀ c, u.current = some c → c.options.mode = .blocking →
          options.limits.blocking = u.lifecycle.limits.blocking) →
        ∀ (interludes : List Interlude) (wait : Option Nat),
          (interludes.foldl Interlude.apply (u.withLimits options.limits)).after wait =
            (((interludes.foldl Interlude.apply u).after wait).1.withLimits options.limits,
              ((interludes.foldl Interlude.apply u).after wait).2)) := by
  have hne : u.lifecycle.phase ≠ .idle := by
    rcases hbusy with hrunning | hcrashed
    · simp [h.active hrunning]
    · simp [hcrashed]
  refine ⟨(Failure.outOfOrder .before u.lifecycle.phase).exit, rfl, before_of_ne hne _ _ _ _, ?_⟩
  intro hcap interludes wait
  rw [foldl_apply_withLimits]
  refine after_withLimits _ _ (fun c hc hmode => ?_) wait
  rw [current_foldl_apply] at hc
  rw [limits_foldl_apply]
  exact hcap c hc hmode

/-- A service that takes two seconds for every delivery. -/
def leisurely : Outside := { Outside.fresh with service := { Service.willing with deliveryTime := 2000 } }

def reachable : Connector := fun _ _ => .ok .service

/-- A command that uploads to a service has started. -/
def started : Uploader :=
  ((new reachable leisurely).before "build" remote ⟨"request", "first"⟩ none).1

def openStream : Stream :=
  (Stream.new [backendSink .service (.at "http://localhost") ⟨"request", "first"⟩]).attach
    (.empty 10240 1048576)

def goodbye : Event := .lastOf "build_finished" .null

/-- The command has posted its last event. -/
def engaged : Uploader := started.post goodbye

theorem attended_engaged : Attended reachable [remote] engaged :=
  ((Attended.new leisurely).before "build" remote ⟨"request", "first"⟩ none).interlude (.post goodbye)

/-- Nothing was written, so the last event is all that is handed over. -/
theorem engaged_eq : engaged = { started with
    lifecycle := started.lifecycle.updateStream 0 fun s => (s.hand goodbye).shut 0 } := by
  have hstream : started.lifecycle.invocations =
      [⟨⟨"request", "first"⟩, openStream, .blocking⟩] := rfl
  have hpost : openStream.post 0 goodbye = (openStream.hand goodbye).shut 0 :=
    Stream.post_last_of_empty rfl rfl rfl 0
  exact congrArg (fun s : Stream => { started with lifecycle := { started.lifecycle with
    invocations := [⟨⟨"request", "first"⟩, s, .blocking⟩] } }) hpost

/-- A call with another grace and the same cap goes unheeded. -/
theorem untimely_engaged :
    Attended reachable [remote] engaged ∧ engaged.current.isSome ∧
      ∃ exit : ProcessExit, exit.code = .internal ∧
        engaged.before "test" { remote with previousGraceSecs := 1 } ⟨"request", "second"⟩ none =
          (engaged.withLimits ⟨1000, 2000, 5000, 3600000⟩, .refused exit) ∧
        ((engaged.withLimits ⟨1000, 2000, 5000, 3600000⟩).after none).2 = (engaged.after none).2 := by
  have hrunning : engaged.current.isSome := rfl
  obtain ⟨exit, hcode, hbefore, hafter⟩ := attended_engaged.untimely (.inl hrunning) "test"
    { remote with previousGraceSecs := 1 } ⟨"request", "second"⟩ none
  have hreport := congrArg Prod.snd (hafter (fun _ _ _ => rfl) [] none)
  exact ⟨attended_engaged, hrunning, exit, hcode, hbefore, hreport⟩

/-- A call whose options have a cap of one second is refused, and yet it cuts the wait at the end of the
running command, whose own options allow for an hour. -/
theorem not_unheeded_hastyNeighbour :
    ¬ ∀ {connector : Connector} {served : List UploadOptions} {u : Uploader},
      Attended connector served u → u.current.isSome →
        ∀ (command : String) (options : UploadOptions) (ids : CommandIds) (patience wait : Option Nat),
          ((u.before command options ids patience).1.after wait).2 = (u.after wait).2 := by
  intro hclaim
  have hsame := hclaim attended_engaged rfl "test" { remote with maxBlockingSecs := 1 }
    ⟨"request", "second"⟩ none none
  have houtcomes := congrArg (fun
    | .ok report => some report.outcomes
    | _ => none) hsame
  rw [engaged_eq] at houtcomes
  exact absurd houtcomes (by decide +kernel)

end Uploader

end EventUpload
