import EventUpload.Proofs.Command.Unopened
import EventUpload.Proofs.Command.Untimely
import EventUpload.Proofs.Lifecycle.Warnings

/-!
# Connections to backends

A connection that a command sends through was made by the connector, for the very options of that
command: whichever calls a host makes with whatever options, and whether it waits for the answers or not
(`Attended.connected`). Nothing that goes on behind a sink gives it another connection
(`Destination.abides_connection`), so this is true of every backend sink of every command that was ever
started.

The connection that is kept between two commands was made for the options it is kept with. So the
connector is only asked if there is none for the options at hand (`connects_before`), and what is kept
is never sent through for any others. If the connector fails, none is kept, the user is warned, and the
command uploads to its files (`Unconnected`).

The connector is a parameter: a function of the options and of how often it has been asked, so that it
may fail at any time and give another connection each time. `Connector.Made` is relative to the number
of calls so far, and what was made once stays made (`Connector.Made.mono`).

Each command has a property of its own, that it sends through nothing but what was made for its own
options, and the list of these properties grows with the commands that are started (`Linked`). It is one
of the things that are known for good (`Lifecycle/Invariants`), so waits and time need no proof here;
what is left are the calls, and of these only the one before a command opens sinks.
-/

set_option autoImplicit false

namespace EventUpload

/-- The connection through which a destination sends. -/
def Destination.connection? : Destination → Option Connection
  | .backend w => some w.connection
  | .file _ => none
  | .model .. => none

/-- The connection through which a sink sends. -/
def Sink.connection? (s : Sink) : Option Connection :=
  match s.body with
  | .channel c => c.destination.connection?
  | .responder _ => none

/-- The connector made the connection for the options, within its first so many calls. -/
def Connector.Made (connector : Connector) (connects : Nat) (b : BackendOptions) (k : Connection) :
    Prop :=
  ∃ n < connects, connector n b = .ok k

theorem Connector.Made.mono {connector : Connector} {connects later : Nat} {b : BackendOptions}
    {k : Connection} (h : connector.Made connects b k) (hle : connects ≤ later) :
    connector.Made later b k := by
  obtain ⟨n, hn, hmade⟩ := h
  exact ⟨n, Nat.lt_of_lt_of_le hn hle, hmade⟩

/-! ## What sinks do

A writer is copied whenever it does anything, and the copy keeps the connection. The property `Q` stays
open, so that the lemma serves for "was made for these options" and for anything else. -/

namespace BackendWriter

theorem connection_startDelivery (w : BackendWriter) (service : Service) (last : Bool) :
    (w.startDelivery service last).1.connection = w.connection := by
  unfold startDelivery
  dsimp only
  split
  · rfl
  · rfl

theorem connection_startWrite (w : BackendWriter) (service : Service) (e : Event) :
    (w.startWrite service e).1.connection = w.connection := by
  unfold startWrite
  dsimp only
  split
  · exact connection_startDelivery _ service false
  · rfl

theorem connection_endDelivery (w : BackendWriter) (service : Service) (web : Web) :
    (w.endDelivery service web).1.connection = w.connection := by
  unfold endDelivery
  split
  · rfl
  · dsimp only
    split <;> rfl

end BackendWriter

/-- **Whatever work a destination does**, it sends through the same connection. -/
theorem Destination.abides_connection (Q : Connection → Prop) :
    Destination.Abides (fun d => ∀ k, d.connection? = some k → Q k) fun _ => True where
  begin := by
    intro d outside work hd _
    refine ⟨fun k hk => hd k ?_, trivial⟩
    cases d with
    | model behaviour n => exact hk
    | file w => exact hk
    | backend w =>
      cases work with
      | write e => exact (congrArg some (w.connection_startWrite outside.service e)).symm.trans hk
      | flush => exact (congrArg some (w.connection_startDelivery outside.service true)).symm.trans hk
      | acknowledge => exact hk
  finish := by
    intro d outside work hd _
    refine ⟨fun k hk => hd k ?_, trivial⟩
    -- Of all that may end at a destination only a delivery touches the writer, and it keeps the
    -- connection.
    have hend (w : BackendWriter) := congrArg some (w.connection_endDelivery outside.service outside.web)
    cases d with
    | model behaviour n => exact hk
    | file w =>
      refine absurd hk ?_
      show (finishFile w outside work).1.connection? ≠ some k
      unfold finishFile
      dsimp only
      split
      · split
        · split <;> exact nofun
        · exact nofun
      · split <;> exact nofun
      · split <;> exact nofun
    | backend w =>
      cases work with
      | write e => exact (hend w).symm.trans hk
      | flush => exact (hend w).symm.trans hk
      | acknowledge => exact hk
  release := fun _ _ => trivial

theorem Channel.takes_destination (D : Destination → Prop) :
    Channel.Takes fun c => D c.destination where
  accept := by
    intro c e hc
    unfold Channel.accept
    split <;> exact hc
  close := fun hc => hc

/-! ## Opening sinks

`connect_cases` and `sinksFor_cases` are the only places that open the functions of the program. All
that follows about connections is read off their cases. -/

theorem connection?_openFiles (files : List (Encoding × FileOptions)) (outside : Outside) :
    ∀ s ∈ (openFiles files outside).2.1, s.connection? = none := by
  induction files generalizing outside with
  | nil => exact fun s hs => absurd hs (by simp [openFiles])
  | cons file rest ih =>
    unfold openFiles
    split
    · intro s hs
      rcases List.mem_cons.mp hs with rfl | hs
      · rfl
      · exact ih _ s hs
    · exact ih outside

theorem Lifecycle.says_sayOmitted (l : Lifecycle) (omitted : List OmittedFile) :
    l.Says (l.sayOmitted omitted) := by
  refine Says.foldl (fun l o => ?_) omitted l
  exact (says_note l _ _).trans (says_say _ _ _ _)

theorem Lifecycle.warningsTo_sayOmitted (l : Lifecycle) (omitted : List OmittedFile) :
    (l.sayOmitted omitted).warningsTo .newcomer =
      l.warningsTo .newcomer ++ omitted.map OmittedFile.warning := by
  unfold sayOmitted
  induction omitted generalizing l with
  | nil => simp
  | cons o omitted ih =>
    rw [List.foldl_cons, ih, warningsTo_warn, warningsTo_note]
    simp

namespace Uploader

variable {u v : Uploader} {connector : Connector} {served : List UploadOptions}
  {options : UploadOptions} {ids : CommandIds} {b : BackendOptions}

/-- A kept connection is used if it was made for the same options. Otherwise the connector is asked, and
its connection is kept if it makes one. -/
theorem connect_cases (u : Uploader) (b : BackendOptions) :
    (∃ k, u.kept = some ⟨b, k⟩ ∧ u.connect b = (u, some k)) ∨
    (∀ k, u.kept ≠ some ⟨b, k⟩) ∧
      ((∃ k, u.connector u.connects b = .ok k ∧ u.connect b =
        ({ u with connects := u.connects + 1, kept := some ⟨b, k⟩ }, some k)) ∨
      ∃ reason, u.connector u.connects b = .error reason ∧ u.connect b =
        (({ u with connects := u.connects + 1, kept := none } : Uploader).say .newcomer .warning
          (connectWarning b reason), none)) := by
  have hmake : (∃ k, u.connector u.connects b = .ok k ∧ connect.make u b =
        ({ u with connects := u.connects + 1, kept := some ⟨b, k⟩ }, some k)) ∨
      ∃ reason, u.connector u.connects b = .error reason ∧ connect.make u b =
        (({ u with connects := u.connects + 1, kept := none } : Uploader).say .newcomer .warning
          (connectWarning b reason), none) := by
    unfold connect.make
    dsimp only
    cases u.connector u.connects b with
    | ok k => exact .inl ⟨k, rfl, rfl⟩
    | error reason => exact .inr ⟨reason, rfl, rfl⟩
  unfold connect
  cases hkept : u.kept with
  | none => exact .inr ⟨nofun, hmake⟩
  | some kept =>
    obtain ⟨for', k⟩ := kept
    by_cases hb : for' = b
    · subst hb
      exact .inl ⟨k, rfl, if_pos rfl⟩
    · refine .inr ⟨fun k' heq => hb (congrArg KeptConnection.options (Option.some.inj heq)), ?_⟩
      dsimp only
      rw [if_neg hb]
      exact hmake

/-- The sinks of a command are its files, and one through the connection for its backend. -/
theorem sinksFor_cases (u : Uploader) (options : UploadOptions) (ids : CommandIds) :
    ∃ v connection l, (options.backend = none ∧ v = u ∧ connection = none ∨
        ∃ b, options.backend = some b ∧ u.connect b = (v, connection)) ∧
      Lifecycle.Says { v.lifecycle with outside := (openFiles options.files v.lifecycle.outside).1 } l ∧
      (connection = none → l.warningsTo .newcomer = v.lifecycle.warningsTo .newcomer ++
        (openFiles options.files v.lifecycle.outside).2.2.map OmittedFile.warning) ∧
      u.sinksFor options ids = ({ v with lifecycle := l },
        (openFiles options.files v.lifecycle.outside).2.1 ++
          ((options.backend.bind fun b => connection.map (backendSink · b ids)).toList)) := by
  unfold sinksFor
  cases hb : options.backend with
  | none =>
    refine ⟨u, none, _, .inl ⟨rfl, rfl, rfl⟩, Lifecycle.says_sayOmitted _ _,
      fun _ => Lifecycle.warningsTo_sayOmitted _ _, ?_⟩
    dsimp only
    rw [Option.bind_none, Option.toList_none, List.append_nil]
  | some b =>
    dsimp only
    generalize hconnect : u.connect b = connected
    obtain ⟨v, _ | k⟩ := connected
    · refine ⟨v, none, _, .inr ⟨b, rfl, hconnect⟩, Lifecycle.says_sayOmitted _ _,
        fun _ => Lifecycle.warningsTo_sayOmitted _ _, ?_⟩
      simp
    · exact ⟨v, some k, _, .inr ⟨b, rfl, hconnect⟩, (Lifecycle.says_sayOmitted _ _).trans
        (Lifecycle.says_sayAll _ _ _ _), nofun, rfl⟩

/-! ## The connections of commands

What a command sends through must have been made for its own options and not for those of another one,
so `served` has the options of every command in order, and each has its own property. -/

/-- A channel of a command only sends through a connection that was made for the command's backend. -/
def Through (connector : Connector) (connects : Nat) (options : UploadOptions) (c : Channel) : Prop :=
  ∀ k, c.destination.connection? = some k →
    ∃ b, options.backend = some b ∧ connector.Made connects b k

/-- The sinks of every command only send through connections that were made for the command's backend. -/
abbrev Linked (connector : Connector) (connects : Nat) (served : List UploadOptions)
    (l : Lifecycle) : Prop :=
  l.Keeping (served.map (Through connector connects)) (fun _ => True) fun _ => True

/-- So do the sinks of every command that was started, and the connection that is kept was made for the
options it is kept with. -/
structure Connected (connector : Connector) (served : List UploadOptions) (u : Uploader) : Prop where
  connector_eq : u.connector = connector
  kept : ∀ b k, u.kept = some ⟨b, k⟩ → connector.Made u.connects b k
  current : ∀ c, u.current = some c → served[c.index]? = some c.options
  sinks : Linked connector u.connects served u.lifecycle

/-- What the sinks of commands send through is nobody else's concern. -/
theorem abides_through (connector : Connector) (connects : Nat) (served : List UploadOptions) :
    Lifecycle.Abides (Linked connector connects served) := by
  refine Lifecycle.abides_keeping (fun C hC => ?_) ⟨fun _ _ _ => ⟨trivial, trivial⟩,
    fun _ _ => ⟨trivial, trivial⟩⟩
  obtain ⟨options, -, rfl⟩ := List.mem_map.mp hC
  exact (Destination.abides_connection _).channel

theorem takes_through (connector : Connector) (connects : Nat) (served : List UploadOptions) :
    ∀ C ∈ served.map (Through connector connects), Channel.Takes C := by
  intro C hC
  obtain ⟨options, -, rfl⟩ := List.mem_map.mp hC
  exact Channel.takes_destination fun d => ∀ k, d.connection? = some k →
    ∃ b, options.backend = some b ∧ connector.Made connects b k

namespace Connected

theorem length_eq (h : Connected connector served u) :
    served.length = u.lifecycle.invocations.length := by
  rw [← h.sinks.invocations.length_eq, List.length_map]

/-- Everything is still as it was made when the connector has been asked again. -/
theorem keeping_mono {l : Lifecycle} {connects later : Nat} (hle : connects ≤ later)
    (h : Linked connector connects served l) : Linked connector later served l := by
  refine ⟨?_, h.strays, h.outside⟩
  have hinvocations := h.invocations
  rw [List.forall₂_map_left_iff] at hinvocations ⊢
  refine hinvocations.imp fun options v hv s hs c hc k hk => ?_
  obtain ⟨b, hb, hmade⟩ := hv s hs c hc k hk
  exact ⟨b, hb, hmade.mono hle⟩

/-- Something happens to the lifecycle alone. -/
theorem withLifecycle (h : Connected connector served u) {l : Lifecycle}
    (hl : Linked connector u.connects served l) : Connected connector served { u with lifecycle := l } :=
  ⟨h.connector_eq, h.kept, h.current, hl⟩

/-! ### Before a command

Each function on the way from the call to a running command, in the order in which they are called. That
the new sinks go through the right connection is shown in `sinksFor`, where they are made. -/

theorem connect (h : Connected connector served u) {connection : Option Connection}
    (heq : u.connect b = (v, connection)) : Connected connector served v ∧
      ∀ k, connection = some k → connector.Made v.connects b k := by
  rcases u.connect_cases b with ⟨k, hkept, hsame⟩ | ⟨-, ⟨k, hmade, hnew⟩ | ⟨reason, -, hfailed⟩⟩
  · cases heq.symm.trans hsame
    refine ⟨h, fun k' hk => ?_⟩
    cases hk
    exact h.kept b k hkept
  · cases heq.symm.trans hnew
    have hmade : connector.Made (u.connects + 1) b k :=
      ⟨u.connects, Nat.lt_succ_self _, h.connector_eq ▸ hmade⟩
    refine ⟨⟨h.connector_eq, fun b' k' hk => ?_, h.current, keeping_mono (Nat.le_succ _) h.sinks⟩,
      fun k' hk => ?_⟩
    · cases hk
      exact hmade
    · cases hk
      exact hmade
  · cases heq.symm.trans hfailed
    have hsaid := (abides_through connector u.connects served).posts h.sinks
      (Lifecycle.says_say u.lifecycle .newcomer .warning (connectWarning b reason))
    exact ⟨⟨h.connector_eq, nofun, h.current, keeping_mono (Nat.le_succ _) hsaid⟩, nofun⟩

/-- Making the sinks of a command keeps the uploader connected, and what they send goes through
connections that were made for these options. -/
theorem sinksFor (h : Connected connector served u) (options : UploadOptions) (ids : CommandIds) :
    Connected connector served (u.sinksFor options ids).1 ∧
      ∀ s ∈ (u.sinksFor options ids).2,
        s.Has (Through connector (u.sinksFor options ids).1.connects options) := by
  obtain ⟨v, connection, l, hopened, hsays, -, heq⟩ := u.sinksFor_cases options ids
  have hv : Connected connector served v ∧ ∀ b k, options.backend = some b → connection = some k →
      connector.Made v.connects b k := by
    rcases hopened with ⟨hnone, rfl, rfl⟩ | ⟨b, hb, hconnect⟩
    · exact ⟨h, nofun⟩
    · obtain ⟨hv, hmade⟩ := h.connect hconnect
      refine ⟨hv, fun b' k hb' hk => ?_⟩
      cases hb.symm.trans hb'
      exact hmade k hk
  obtain ⟨hv, hmade⟩ := hv
  have hfiles : Linked connector v.connects served
      { v.lifecycle with outside := (openFiles options.files v.lifecycle.outside).1 } :=
    ⟨hv.sinks.invocations, hv.sinks.strays, trivial⟩
  rw [heq]
  refine ⟨hv.withLifecycle ((abides_through connector v.connects served).posts hfiles hsays),
    fun s hs c hc k hk => ?_⟩
  have hsends : s.connection? = some k := by
    unfold Sink.connection?
    rw [hc]
    exact hk
  rcases List.mem_append.mp hs with hfile | hbackend
  · exact absurd (connection?_openFiles _ _ s hfile) (by simp [hsends])
  · obtain ⟨b, hb, hsink⟩ := Option.bind_eq_some_iff.mp (Option.mem_toList.mp hbackend)
    obtain ⟨k', hk', rfl⟩ := Option.map_eq_some_iff.mp hsink
    cases hsends
    exact ⟨b, hb, hmade b _ hb hk'⟩

theorem startCommand (h : Connected connector served u) (options : UploadOptions) (ids : CommandIds)
    {sinks : List Sink} (hs : ∀ s ∈ sinks, s.Has (Through connector u.connects options)) :
    Connected connector (served ++ (u.startCommand options ids sinks).2.started options)
      (u.startCommand options ids sinks).1 := by
  by_cases hp : u.lifecycle.phase = .waitingPrevious
  · have hinvocations := invocations_startCommand hp options ids sinks
    have hnew : (served ++ [options])[u.lifecycle.invocations.length]? = some options := by
      rw [← h.length_eq, List.getElem?_concat_length]
    rw [startCommand_eq hp] at hinvocations ⊢
    refine ⟨h.connector_eq, h.kept, fun c hc => ?_, ?_, fun _ _ _ _ => trivial, trivial⟩
    · cases hc
      exact hnew
    · rw [hinvocations]
      show List.Forall₂ _ ((served ++ [options]).map _) _
      rw [List.map_append]
      exact List.rel_append h.sinks.invocations (.cons hs .nil)
  · have hrefused : u.lifecycle.start ids sinks = _ := if_pos hp
    unfold Uploader.startCommand
    rw [hrefused]
    dsimp only [Lifecycle.refuse, HostReply.started]
    rw [List.append_nil]
    exact h.withLifecycle ⟨h.sinks.invocations, fun _ _ _ _ => trivial, trivial⟩

theorem opened (h : Connected connector served u) (command : String) (options : UploadOptions)
    (ids : CommandIds) : Connected connector
      (served ++ (u.opened command options ids).2.started options) (u.opened command options ids).1 := by
  unfold Uploader.opened
  split
  · next f _ =>
    obtain ⟨phase, exit, hrejected⟩ := exists_rejectOptions u f
    have habides := abides_through connector u.connects served
    rw [hrejected, HostReply.started, List.append_nil]
    exact h.withLifecycle (habides.phase phase (habides.posts h.sinks (Lifecycle.says_say _ _ _ _)))
  · dsimp only
    split
    · obtain ⟨hsinks, hthrough⟩ := h.sinksFor options ids
      exact hsinks.startCommand options ids hthrough
    · exact h.startCommand options ids fun s hs => absurd hs List.not_mem_nil

theorem before (h : Connected connector served u) (command : String) (options : UploadOptions)
    (ids : CommandIds) (patience : Option Nat) : Connected connector
      (served ++ (u.before command options ids patience).2.started options)
      (u.before command options ids patience).1 := by
  have habides := abides_through connector u.connects served
  have hlimits : Linked connector u.connects served { u.lifecycle with limits := options.limits } :=
    ⟨h.sinks.invocations, h.sinks.strays, trivial⟩
  have hperformed := habides.perform Lifecycle.before (habides.before hlimits) patience
  obtain ⟨m, reply, hperform, hdropped | ⟨f, hrefused⟩ | hopened⟩ :=
    before_cases u command options ids patience
  · rw [hperform] at hperformed
    rw [hdropped, HostReply.started, List.append_nil]
    exact h.withLifecycle hperformed
  · rw [hperform] at hperformed
    rw [hrefused, HostReply.started, List.append_nil]
    exact h.withLifecycle hperformed
  · rw [hperform] at hperformed
    rw [hopened]
    exact (h.withLifecycle hperformed).opened command options ids

/-! ### After a command, and the end of the process

Connections may be dropped here, which leaves those of earlier commands alone: a sink has its own copy. -/

/-- After a command the connections are kept or closed, and none is made. -/
theorem after (h : Connected connector served u) (patience : Option Nat) :
    Connected connector served (u.after patience).1 := by
  cases hc : u.current with
  | none =>
    have hsame : u.after patience = (u, .ok ⟨.blocking, []⟩) := by
      unfold Uploader.after
      rw [hc]
    rw [hsame]
    exact h
  | some c =>
    have habides := abides_through connector u.connects served
    have hperformed := habides.perform (·.finish c.options.mode)
      (h.sinks.finish habides (takes_through connector u.connects served) c.options.mode) patience
    obtain ⟨m, reply, hperform, hdropped | ⟨l, kept, answer, hsays, hkept, -, -, hanswered⟩⟩ :=
      exists_after hc patience
    · rw [hperform] at hperformed
      rw [hdropped]
      exact ⟨h.connector_eq, h.kept, fun _ hc => absurd hc (by simp), hperformed⟩
    · rw [hperform] at hperformed
      rw [hanswered]
      refine ⟨h.connector_eq, fun b k hk => ?_, fun _ hc => absurd hc (by simp),
        habides.posts hperformed hsays⟩
      rcases hkept with rfl | rfl
      · exact h.kept b k hk
      · exact absurd hk (by simp)

theorem leave (h : Connected connector served u) {operation : Lifecycle → Lifecycle × Progress}
    (hmade : Linked connector u.connects served (operation u.lifecycle).1) :
    Connected connector served (u.leave operation) :=
  ⟨h.connector_eq, fun _ _ hk => absurd hk (by simp [Uploader.leave]),
    fun _ hc => absurd hc (by simp [Uploader.leave]),
    (abides_through connector u.connects served).perform operation hmade none⟩

theorem shutdown (h : Connected connector served u) : Connected connector served u.shutdown :=
  h.leave (h.sinks.shutdown (abides_through connector u.connects served)
    (takes_through connector u.connects served))

theorem crash (h : Connected connector served u) : Connected connector served u.crash :=
  h.leave (h.sinks.crash (abides_through connector u.connects served)
    (takes_through connector u.connects served))

theorem interlude (h : Connected connector served u) (i : Interlude) :
    Connected connector served (i.apply u) := by
  have habides := abides_through connector u.connects served
  have htakes := takes_through connector u.connects served
  rw [i.apply_eq]
  refine h.withLifecycle (i.keeps (fun _ _ hl => habides.posts hl (Lifecycle.says_note _ _ _))
    (fun i d hl => hl.deed htakes i d) (fun _ hl => ⟨hl.invocations, hl.strays, trivial⟩)
    (fun span hl => habides.pass hl span) h.sinks)

end Connected

/-- **Every command sends through connections that were made for it**, whichever calls a host makes. -/
theorem Attended.connected (h : Attended connector served u) : Connected connector served u := by
  induction h with
  | new outside =>
    exact ⟨rfl, fun _ _ hk => absurd hk (by simp [Uploader.new]),
      fun _ hc => absurd hc (by simp [Uploader.new]), .nil, fun _ _ _ _ => trivial, trivial⟩
  | before command options ids patience _ ih => exact ih.before command options ids patience
  | after patience _ ih => exact ih.after patience
  | shutdown _ ih => exact ih.shutdown
  | crash _ ih => exact ih.crash
  | interlude i _ ih => exact ih.interlude i

/-! ## When the connector is asked

The count of calls is part of the uploader, so that it can be said of a call how often it has asked. -/

/-- **A call before a command asks the connector at most once**, and not at all unless the command may
upload to a backend for whose options no connection is kept. -/
theorem connects_before (u : Uploader) (command : String) (options : UploadOptions) (ids : CommandIds)
    (patience : Option Nat) :
    (u.before command options ids patience).1.connects = u.connects ∨
      (u.before command options ids patience).1.connects = u.connects + 1 ∧
        options.check = .ok () ∧ options.allows command = true ∧
        ∃ b, options.backend = some b ∧ ∀ k, u.kept ≠ some ⟨b, k⟩ := by
  have hopened (u : Uploader) : (u.opened command options ids).1.connects = u.connects ∨
      (u.opened command options ids).1.connects = u.connects + 1 ∧
        options.check = .ok () ∧ options.allows command = true ∧
        ∃ b, options.backend = some b ∧ ∀ k, u.kept ≠ some ⟨b, k⟩ := by
    unfold Uploader.opened
    split
    · exact .inl (rejectOptions_aside u _).1
    · next hvalid =>
      dsimp only
      split
      · next hallows =>
        obtain ⟨v, connection, l, hconnect, -, -, heq⟩ := u.sinksFor_cases options ids
        rw [heq, (startCommand_aside _ options ids _).1]
        dsimp only
        rcases hconnect with ⟨-, rfl, -⟩ | ⟨b, hb, hconnect⟩
        · exact .inl rfl
        · rcases u.connect_cases b with ⟨k, -, hsame⟩ | ⟨hnone, ⟨k, -, hnew⟩ | ⟨reason, -, hfailed⟩⟩
          · cases hconnect.symm.trans hsame
            exact .inl rfl
          · cases hconnect.symm.trans hnew
            exact .inr ⟨rfl, hvalid, hallows, b, hb, hnone⟩
          · cases hconnect.symm.trans hfailed
            exact .inr ⟨rfl, hvalid, hallows, b, hb, hnone⟩
      · exact .inl (startCommand_aside u options ids []).1
  obtain ⟨m, reply, -, hdropped | ⟨f, hrefused⟩ | heq⟩ := before_cases u command options ids patience
  · rw [hdropped]
    exact .inl rfl
  · rw [hrefused]
    exact .inl rfl
  · rw [heq]
    exact hopened { u with lifecycle := m }

theorem connects_after (u : Uploader) (patience : Option Nat) :
    (u.after patience).1.connects = u.connects := by
  cases hc : u.current with
  | none =>
    unfold Uploader.after
    rw [hc]
  | some c =>
    obtain ⟨m, reply, -, hdropped | ⟨l, kept, answer, -, -, -, -, hanswered⟩⟩ := exists_after hc patience
    · rw [hdropped]
    · rw [hanswered]

/-! ## When the connector fails

A failing connector does not fail the command. What the command is left with is described as a whole, so
that it can be seen that only the backend is missing. -/

/-- What a command starts with if the connector fails: none is kept, the user is warned once of that and
once of each file that is left out, and the stream has the sinks of the other files. -/
structure Unconnected (u v : Uploader) (options : UploadOptions) (ids : CommandIds) (b : BackendOptions)
    (reason : String) : Prop where
  kept : v.kept = none
  connects : v.connects = u.connects + 1
  warnings : v.lifecycle.warningsTo .newcomer = u.lifecycle.warningsTo .newcomer ++
    connectWarning b reason ::
      (openFiles options.files u.lifecycle.outside).2.2.map OmittedFile.warning
  phase : v.lifecycle.phase = .active
  current : v.current = some ⟨u.lifecycle.invocations.length, ids, options,
    (openFiles options.files u.lifecycle.outside).2.1.map Sink.name⟩
  invocations : v.lifecycle.invocations = u.lifecycle.invocations ++
    [⟨ids, (Stream.new (openFiles options.files u.lifecycle.outside).2.1).attach
      (.empty options.outputBuffer options.outputChunk), .blocking⟩]

theorem warningsTo_startCommand (hp : u.lifecycle.phase = .waitingPrevious) (options : UploadOptions)
    (ids : CommandIds) (sinks : List Sink) (whom : Addressee) :
    (u.startCommand options ids sinks).1.lifecycle.warningsTo whom = u.lifecycle.warningsTo whom := by
  have hstart : u.lifecycle.start ids sinks = _ :=
    if_neg (not_not_intro (hp : u.lifecycle.phase = Operation.start.phase))
  rw [startCommand_eq hp, hstart]
  exact (Lifecycle.warningsTo_notice whom _ _ _).trans (Lifecycle.warningsTo_note whom _ _ _)

/-- The sinks of a command whose connector fails are its files. -/
theorem sinksFor_of_failure (hb : options.backend = some b) (hkept : ∀ k, u.kept ≠ some ⟨b, k⟩)
    {reason : String} (hfail : u.connector u.connects b = .error reason) (ids : CommandIds) :
    ∃ l, u.sinksFor options ids =
        ({ u with lifecycle := l, connects := u.connects + 1, kept := none },
          (openFiles options.files u.lifecycle.outside).2.1) ∧
      l.phase = u.lifecycle.phase ∧ l.invocations = u.lifecycle.invocations ∧
      l.warningsTo .newcomer = u.lifecycle.warningsTo .newcomer ++ connectWarning b reason ::
        (openFiles options.files u.lifecycle.outside).2.2.map OmittedFile.warning := by
  obtain ⟨v, connection, l, hconnect, ⟨posts, rfl⟩, hwarnings, heq⟩ := u.sinksFor_cases options ids
  -- Of all that can come of the connection, it can only be the failure.
  obtain ⟨rfl, rfl⟩ : v = ({ u with connects := u.connects + 1, kept := none } : Uploader).say .newcomer
      .warning (connectWarning b reason) ∧ connection = none := by
    rcases hconnect with ⟨hnone, -, -⟩ | ⟨b', hb', hconnect⟩
    · exact absurd (hb.symm.trans hnone) nofun
    · cases hb.symm.trans hb'
      rcases u.connect_cases b with ⟨k, hk, -⟩ | ⟨-, ⟨k, hk, -⟩ | ⟨reason', hreason, hfailed⟩⟩
      · exact absurd hk (hkept k)
      · exact absurd (hfail.symm.trans hk) nofun
      · cases hfail.symm.trans hreason
        cases hconnect.symm.trans hfailed
        exact ⟨rfl, rfl⟩
  have hwarned := Lifecycle.warningsTo_warn .newcomer u.lifecycle .newcomer (connectWarning b reason)
  rw [if_pos rfl] at hwarned
  refine ⟨_, heq.trans (Prod.ext rfl ?_), rfl, rfl, ?_⟩
  · rw [hb]
    exact List.append_nil _
  · refine (hwarnings rfl).trans ?_
    rw [List.append_cons]
    exact congrArg (· ++ _) hwarned

/-- If the connector fails there is a command all the same: its sinks are those for files, and one
warning says what has failed. -/
theorem unconnected_opened (hp : u.lifecycle.phase = .waitingPrevious) {command : String}
    (hcheck : options.check = .ok ()) (hallows : options.allows command = true)
    (hb : options.backend = some b) (hkept : ∀ k, u.kept ≠ some ⟨b, k⟩) {reason : String}
    (hfail : u.connector u.connects b = .error reason) (ids : CommandIds) :
    (u.opened command options ids).2 =
        .ok ((openFiles options.files u.lifecycle.outside).2.1.map Sink.name) ∧
      u.Unconnected (u.opened command options ids).1 options ids b reason := by
  obtain ⟨l, hsinks, hphase, hinvocations, hwarnings⟩ := sinksFor_of_failure hb hkept hfail ids
  have hopened : u.opened command options ids =
      ({ u with lifecycle := l, connects := u.connects + 1, kept := none } : Uploader).startCommand
        options ids (openFiles options.files u.lifecycle.outside).2.1 := by
    rw [opened, hcheck]
    dsimp only
    rw [if_pos hallows, hsinks]
  obtain ⟨v, hv⟩ : ∃ v : Uploader,
    v = { u with lifecycle := l, connects := u.connects + 1, kept := none } := ⟨_, rfl⟩
  have hl : v.lifecycle = l := by rw [hv]
  have hp' : v.lifecycle.phase = .waitingPrevious := by rw [hl, hphase, hp]
  have hstarted := invocations_startCommand hp' options ids
    (openFiles options.files u.lifecycle.outside).2.1
  have hwarned := warningsTo_startCommand hp' options ids
    (openFiles options.files u.lifecycle.outside).2.1 .newcomer
  rw [← hv] at hopened
  rw [← hopened, hl] at hstarted hwarned
  have hstart := hopened.trans (startCommand_eq hp' options ids _)
  refine ⟨congrArg Prod.snd hstart, ⟨?_, ?_, hwarned.trans hwarnings, ?_, ?_, ?_⟩⟩
  · rw [hstart, hv]
  · rw [hstart, hv]
  · rw [hstart]
    exact (active_start hp' ids _).2.1
  · rw [hstart, hl, hinvocations]
  · rw [hstarted, hinvocations]

/-- When no command is running, a call that the host has the patience for starts the command. -/
theorem unconnected_before (hidle : u.lifecycle.phase = .idle) {command : String}
    (hcheck : options.check = .ok ()) (hallows : options.allows command = true)
    (hb : options.backend = some b) (hkept : ∀ k, u.kept ≠ some ⟨b, k⟩) {reason : String}
    (hfail : u.connector u.connects b = .error reason) (ids : CommandIds) (patience : Option Nat)
    (hanswered : (u.before command options ids patience).2 ≠ .dropped) : ∃ m t,
      Run.perform { u.lifecycle with limits := options.limits } Lifecycle.before patience =
        (m, .answer .ok t) ∧
      (u.before command options ids patience).2 =
        .ok ((openFiles options.files m.outside).2.1.map Sink.name) ∧
      ({ u with lifecycle := m } : Uploader).Unconnected (u.before command options ids patience).1
        options ids b reason := by
  obtain ⟨m, t, hp, ⟨hperform, heq⟩ | ⟨-, hdropped⟩⟩ := before_idle hidle command options ids patience
  · rw [heq]
    exact ⟨m, t, hperform, unconnected_opened (u := { u with lifecycle := m }) hp hcheck hallows hb hkept
      hfail ids⟩
  · exact absurd (congrArg Prod.snd hdropped) hanswered

theorem before_ne_dropped (hidle : u.lifecycle.phase = .idle) (command : String)
    (options : UploadOptions) (ids : CommandIds) :
    (u.before command options ids none).2 ≠ .dropped := by
  obtain ⟨m, d, hperform, -, hp, -⟩ :=
    Lifecycle.exists_perform_before (l := { u.lifecycle with limits := options.limits }) hidle
  rw [before_of_answered hperform]
  unfold Uploader.opened
  split
  · next f _ =>
    obtain ⟨phase, exit, hrejected⟩ := exists_rejectOptions ({ u with lifecycle := m } : Uploader) f
    rw [hrejected]
    exact nofun
  · dsimp only
    split
    · have hsinks := quiet_sinksFor ({ u with lifecycle := m } : Uploader) options ids
      rw [startCommand_eq (hsinks.phase.trans hp)]
      exact nofun
    · rw [startCommand_eq (u := { u with lifecycle := m }) hp]
      exact nofun

/-! ## What a host can rely on -/

/-- **Connections are made for the commands that send through them**, whichever calls a host has made and
dropped, with whatever options, and however often the connector has failed.

What a sink of a command sends through was made by the connector for the backend of that command's own
options, and what is kept was made for the options it is kept with. Only a call before a command asks the
connector, at most once, and not if a connection for the same options is kept. If the connector fails,
none is kept, the user is warned once of it, and the command starts with its files. Once a command is over
whose options do not ask for it, no connection is kept, and none after the end of the process. -/
theorem Attended.connections (h : Attended connector served u) :
    (∀ {i : Nat} {v : Invocation} {s : Sink} {k : Connection},
      u.lifecycle.invocation? i = some v → s ∈ v.sinks → s.connection? = some k →
        ∃ options b, served[i]? = some options ∧ options.backend = some b ∧
          connector.Made u.connects b k) ∧
    (∀ c, u.current = some c → served[c.index]? = some c.options) ∧
    (∀ b k, u.kept = some ⟨b, k⟩ → connector.Made u.connects b k) ∧
    (∀ command options ids patience,
      (u.before command options ids patience).1.connects = u.connects ∨
        (u.before command options ids patience).1.connects = u.connects + 1 ∧
          options.check = .ok () ∧ options.allows command = true ∧
          ∃ b, options.backend = some b ∧ ∀ k, u.kept ≠ some ⟨b, k⟩) ∧
    (∀ patience, (u.after patience).1.connects = u.connects) ∧
    u.shutdown.connects = u.connects ∧ u.crash.connects = u.connects ∧
    (∀ i : Interlude, (i.apply u).connects = u.connects) ∧
    (∀ {command : String} {options : UploadOptions} {b : BackendOptions} {reason : String}
      (ids : CommandIds) (patience : Option Nat),
      u.lifecycle.phase = .idle → options.check = .ok () → options.allows command = true →
      options.backend = some b → (∀ k, u.kept ≠ some ⟨b, k⟩) →
      connector u.connects b = .error reason →
        (u.before command options ids none).2 ≠ .dropped ∧
        ((u.before command options ids patience).2 ≠ .dropped → ∃ m t,
          Run.perform { u.lifecycle with limits := options.limits } Lifecycle.before patience =
            (m, .answer .ok t) ∧
          (u.before command options ids patience).2 =
            .ok ((openFiles options.files m.outside).2.1.map Sink.name) ∧
          ({ u with lifecycle := m } : Uploader).Unconnected
            (u.before command options ids patience).1 options ids b reason)) ∧
    (∀ c patience, u.current = some c → c.options.keepConnections = false →
      (u.after patience).2 ≠ .dropped → (u.after patience).1.kept = none) ∧
    u.shutdown.kept = none ∧ u.crash.kept = none := by
  have hconnected := h.connected
  refine ⟨fun hv hs hk => ?_, hconnected.current, hconnected.kept, u.connects_before, u.connects_after,
    rfl, rfl, fun i => by rw [i.apply_eq], ?_, fun c patience hc hflag hanswered => ?_, rfl, rfl⟩
  · obtain ⟨C, hC, hsinks⟩ := hconnected.sinks.exists_invocation hv
    rw [List.getElem?_map] at hC
    obtain ⟨options, hoptions, rfl⟩ := Option.map_eq_some_iff.mp hC
    unfold Sink.connection? at hk
    split at hk
    · next c hc =>
      obtain ⟨b, hb, hmade⟩ := hsinks _ hs c hc _ hk
      exact ⟨options, b, hoptions, hb, hmade⟩
    · exact absurd hk nofun
  · intro command options b reason ids patience hidle hcheck hallows hb hkept hfail
    rw [← hconnected.connector_eq] at hfail
    exact ⟨before_ne_dropped hidle command options ids,
      unconnected_before hidle hcheck hallows hb hkept hfail ids patience⟩
  · obtain ⟨m, reply, -, hdropped | ⟨l, kept, answer, -, -, hlost, -, heq⟩⟩ := exists_after hc patience
    · exact absurd (congrArg Prod.snd hdropped) hanswered
    · rw [heq]
      exact hlost hflag

/-- A command that uploads to a service through a connection that is not kept, and one whose backend cannot
be reached. -/
theorem connections_engaged :
    Attended reachable [remote] engaged ∧
    (∃ v s, engaged.lifecycle.invocation? 0 = some v ∧ s ∈ v.sinks ∧ s.connection? = some .service ∧
      ∃ options b, [remote][0]? = some options ∧ options.backend = some b ∧
        reachable.Made engaged.connects b .service) ∧
    engaged.kept = some ⟨.at "http://localhost", .service⟩ ∧ (engaged.after none).1.kept = none ∧
    Attended noRoute [] (new noRoute .fresh) ∧
    ∃ m t, Run.perform { Lifecycle.new .standard .fresh with limits := remote.limits }
        Lifecycle.before none = (m, .answer .ok t) ∧
      ((new noRoute .fresh).before "build" remote ⟨"request", "first"⟩ none).2 = .ok [] ∧
      ({ new noRoute .fresh with lifecycle := m } : Uploader).Unconnected
        ((new noRoute .fresh).before "build" remote ⟨"request", "first"⟩ none).1 remote
        ⟨"request", "first"⟩ (.at "http://localhost") "no route" := by
  have hrunning : Attended noRoute [] (new noRoute .fresh) := .new .fresh
  have hcommand : engaged.current = some ⟨0, ⟨"request", "first"⟩, remote, [backendSinkName]⟩ := rfl
  have hanswered : (engaged.after none).2 ≠ .dropped := by
    rw [engaged_eq]
    intro hdropped
    have himpatient := congrArg (fun
      | .dropped => true
      | _ => false) hdropped
    exact absurd himpatient (by decide +kernel)
  obtain ⟨hsends, -, -, -, -, -, -, -, -, hover, -⟩ := attended_engaged.connections
  obtain ⟨-, -, -, -, -, -, -, -, hfails, -⟩ := hrunning.connections
  refine ⟨attended_engaged, ?_, rfl, hover _ none hcommand rfl hanswered, hrunning, ?_⟩
  · have hv : engaged.lifecycle.invocation? 0 =
        some ⟨⟨"request", "first"⟩, (openStream.hand goodbye).shut 0, .blocking⟩ := by
      rw [engaged_eq]
      rfl
    exact ⟨_, _, hv, List.mem_singleton.mpr rfl, rfl, hsends hv (List.mem_singleton.mpr rfl) rfl⟩
  · obtain ⟨hmade, hleft⟩ := @hfails "build" remote (.at "http://localhost") "no route"
      ⟨"request", "first"⟩ none rfl rfl rfl rfl nofun rfl
    exact hleft hmade

end Uploader

end EventUpload
