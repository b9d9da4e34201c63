import EventUpload.Command.Sinks
import EventUpload.Lifecycle.Run

/-!
# Commands

An uploader is what a host calls before and after every command, and when its process ends. Before a
command the uploads of the previous one are settled, the options are checked, and the sinks are
opened; after it the sinks are closed as the options say. The connection to a backend is kept as
long as the next command asks for the same one: only then it is used again.

Problems of single sinks are told to the user. What a host gets as a refusal is options that cannot
be used, and calls out of order.
-/

set_option autoImplicit false

namespace EventUpload

/-- How connections to backends are made: given how many were made before. -/
abbrev Connector := Nat → BackendOptions → Except String Connection

def Connector.web : Connector := fun _ options => .ok (.web (.new options.endpoint))

/-- A connection that is kept, with the options it was made for. -/
structure KeptConnection where
  options : BackendOptions
  connection : Connection
deriving BEq, DecidableEq, Repr

structure RunningCommand where
  index : Nat
  ids : CommandIds
  options : UploadOptions
  sinks : List String
deriving Repr

/-- What a host calls around its commands. -/
structure Uploader where
  lifecycle : Lifecycle
  connector : Connector
  /-- How many connections were made or tried. -/
  connects : Nat
  kept : Option KeptConnection
  current : Option RunningCommand

/-- What the host gets from a call: an answer, a refusal, or nothing if it lost patience. -/
inductive HostReply (α : Type) where
  | ok (a : α)
  | refused (exit : ProcessExit)
  | dropped
deriving Repr

namespace Uploader

def new (connector : Connector) (outside : Outside) : Uploader :=
  ⟨.new .standard outside, connector, 0, none, none⟩

def say (u : Uploader) (whom : Addressee) (kind : MessageKind) (text : String) : Uploader :=
  { u with lifecycle := u.lifecycle.say whom kind text }

/-! ## Before a command -/

def connectWarning (options : BackendOptions) (reason : String) : String :=
  "Unable to connect to '" ++ options.endpoint ++ "'. Omitting build event backend: " ++ reason

/-- The connection for a command: the kept one if it was made for the same options, else a new one,
which is then kept. -/
def connect (u : Uploader) (options : BackendOptions) : Uploader × Option Connection :=
  match u.kept with
  | some kept => if kept.options = options then (u, some kept.connection) else make
  | none => make
where
  make : Uploader × Option Connection :=
    let result := u.connector u.connects options
    -- A failure counts as well: the next attempt is a new one.
    let u := { u with connects := u.connects + 1 }
    match result with
    | .ok connection => ({ u with kept := some ⟨options, connection⟩ }, some connection)
    | .error reason =>
      ({ u with kept := none }.say .newcomer .warning (connectWarning options reason), none)

/-- What the user is told about the backend of a command. -/
def announcements (options : BackendOptions) (ids : CommandIds) : List String :=
  ["Streaming Build Event Protocol to '" ++ options.endpoint ++ "' with build_request_id: '"
    ++ ids.request ++ "' and invocation_id: '" ++ ids.invocation ++ "'"]
  ++ (options.resultsUrl.elim [] fun url =>
    ["Streaming build results to: " ++ url ++ ids.invocation])
  ++ (options.requestUrl.elim [] fun url =>
    ["See " ++ url ++ ids.request ++ " for more information about your request."])

def sinksFor (u : Uploader) (options : UploadOptions) (ids : CommandIds) : Uploader × List Sink :=
  let (u, backend) := match options.backend with
    | none => (u, none)
    | some b =>
      let (u, connection) := u.connect b
      (u, connection.map fun c => (b, backendSink c b ids))
  let (outside, files, omitted) := openFiles options.files u.lifecycle.outside
  let l := { u.lifecycle with outside := outside }.sayOmitted omitted
  match backend with
  | none => ({ u with lifecycle := l }, files)
  | some (b, sink) =>
    ({ u with lifecycle := l.sayAll .newcomer .info (announcements b ids) }, files ++ [sink])

def startCommand (u : Uploader) (options : UploadOptions) (ids : CommandIds) (sinks : List Sink) :
    Uploader × HostReply (List String) :=
  let index := u.lifecycle.invocations.length
  match u.lifecycle.start ids sinks with
  | (l, .answered (.refused f)) => ({ u with lifecycle := l }, .refused f.exit)
  | (l, _) =>
    let names := sinks.map Sink.name
    let listener := Listener.empty options.outputBuffer options.outputChunk
    let l := l.updateStream index (·.attach listener)
    ({ u with lifecycle := l, current := some ⟨index, ids, options, names⟩ }, .ok names)

/-- Gives up a command whose options cannot be used. -/
def rejectOptions (u : Uploader) (f : Failure) : Uploader × HostReply (List String) :=
  let l := u.lifecycle.say .newcomer .error f.message
  match l.abandon with
  | (l, .answered (.refused g)) => ({ u with lifecycle := l }, .refused g.exit)
  | (l, _) => ({ u with lifecycle := l }, .refused f.exit)

/-- Before a command. The limits of the options hold from here on. -/
def before (u : Uploader) (command : String) (options : UploadOptions) (ids : CommandIds)
    (patience : Option Nat) : Uploader × HostReply (List String) :=
  let l := { u.lifecycle with limits := options.limits }
  let (l, reply) := Run.perform l Lifecycle.before patience
  let u := { u with lifecycle := l }
  match reply with
  | .dropped _ => (u, .dropped)
  | .answer (.refused f) _ => (u, .refused f.exit)
  | .answer _ _ =>
    -- The options are only looked at when the lifecycle waits for a start, so they can be given up.
    match options.check with
    | .error f => u.rejectOptions f
    | .ok () =>
      let (u, sinks) := if options.allows command then u.sinksFor options ids else (u, [])
      u.startCommand options ids sinks

/-! ## During a command -/

/-- Hands an event to the stream of the running command, if there is one. What comes after the end
of the stream is dropped. -/
def post (u : Uploader) (e : Event) : Uploader :=
  match u.current with
  | none => u
  | some c =>
    let l := u.lifecycle
    if (l.invocation? c.index).any (·.stream.closed) then
      { u with lifecycle := l.note (.invocation c.index) (.eventDropped e.kind) }
    else { u with lifecycle := l.updateStream c.index (·.post l.now e) }

/-- Whether the stream of the running command has ended. -/
def finished (u : Uploader) : Bool :=
  (u.current.bind fun c => u.lifecycle.invocation? c.index).any (·.stream.closed)

def write (u : Uploader) (channel : OutputChannel) (bytes : List UInt8) : Uploader :=
  match u.current with
  | none => u
  | some c => { u with lifecycle := u.lifecycle.updateStream c.index (·.write channel bytes) }

/-! ## After a command -/

/-- What the user is told when a command has ended. -/
def farewell (c : RunningCommand) : Option String :=
  if c.sinks.contains backendSinkName then
    (c.options.backend.bind (·.resultsUrl)).map fun url =>
      "Streaming build results to: " ++ url ++ c.ids.invocation
  else if c.sinks.isEmpty then none
  else some "Build Event Protocol files produced successfully."

def after (u : Uploader) (patience : Option Nat) : Uploader × HostReply Report :=
  match u.current with
  | none => (u, .ok ⟨.blocking, []⟩)
  | some c =>
    -- The command is over for the host even if it loses patience with the wait.
    let u := { u with current := none }
    let (l, reply) := Run.perform u.lifecycle (·.finish c.options.mode) patience
    let u := { u with lifecycle := l }
    match reply with
    | .dropped _ => (u, .dropped)
    | .answer a _ =>
      let u := if c.options.keepConnections then u else { u with kept := none }
      match a with
      | .refused f => (u, .refused f.exit)
      | .report r =>
        let u := match farewell c with
          | some text => u.say (.invocation c.index) .info text
          | none => u
        let l := u.lifecycle.note (.invocation c.index) (.commandFinished c.ids c.sinks.length)
        ({ u with lifecycle := l }, .ok r)
      | _ => (u, .ok ⟨c.options.mode, []⟩)

/-! ## The end of the process -/

/-- Ends the process in the given way. -/
def leave (u : Uploader) (operation : Lifecycle → Lifecycle × Progress) : Uploader :=
  let (l, _) := Run.perform u.lifecycle operation none
  { u with lifecycle := l, current := none, kept := none }

def shutdown (u : Uploader) : Uploader := u.leave Lifecycle.shutdown

def crash (u : Uploader) : Uploader := u.leave Lifecycle.crash

end Uploader

end EventUpload
