import EventUpload.Command.Uploader
import EventUpload.CommandLine.Basic
import EventUpload.Console.Summary

/-!
# Replays

A replay hands the events of a recording to the stream of a command, as often as it is asked to, as
if that many commands were running one after the other. In front of the events it captures a line
of output that says how many there are; if none of them is the last of its stream, one is added.
After the last command the process ends.
-/

set_option autoImplicit false

namespace EventUpload

namespace ReplayRequest

/-- The backend that the request asks for; options that are there already are kept. -/
def backendFrom (r : ReplayRequest) (b : Option BackendOptions) : Option BackendOptions :=
  let b := match r.backend with
    | none => b
    | some endpoint => some (b.elim (.at endpoint) fun b => { b with endpoint := endpoint })
  match r.backendBound with
  | none => b
  | some secs => b.map fun b => { b with timeoutSecs := secs }

/-- Options with what the request asks for. A file that is asked for has no bound. The command is
allowed in any case. -/
def applyTo (r : ReplayRequest) (o : UploadOptions) : UploadOptions :=
  { o with
    textFile := (r.textFile.map FileOptions.at).or o.textFile
    jsonFile := (r.jsonFile.map FileOptions.at).or o.jsonFile
    binaryFile := (r.binaryFile.map FileOptions.at).or o.binaryFile
    backend := r.backendFrom o.backend
    mode := r.mode.getD o.mode
    keepConnections := r.keepConnections || o.keepConnections
    allowedCommands :=
      if o.allows r.command then o.allowedCommands else o.allowedCommands ++ [r.command] }

end ReplayRequest

namespace Uploader

/-- The line that is captured in front of the events, in the pieces in which it is written. -/
def replayBanner (count : Nat) : List String :=
  ["Replaying ", toString count, " recorded build events\n"]

/-- The event that ends a stream in which none was the last. -/
def replayEnd (count : Nat) : Event :=
  .lastOf "build_finished"
    (.ofMembers [("exit_code", .ofNat 0), ("replayed_events", .ofNat count)])

def feed (u : Uploader) (events : List Event) : Uploader :=
  let u := (replayBanner events.length).foldl (fun u piece => u.write .err (Utf8.encode piece)) u
  let u := events.foldl post u
  if u.finished then u else u.post (replayEnd events.length)

def replayCommand (u : Uploader) (command : String) (options : UploadOptions) (ids : CommandIds)
    (events : List Event) : Uploader × HostReply Report :=
  match u.before command options ids none with
  | (u, .refused exit) => (u, .refused exit)
  | (u, .dropped) => (u, .dropped)
  | (u, .ok _) => (u.feed events).after none

def noteReplayed (u : Uploader) (index : Nat) (ids : CommandIds) : Uploader :=
  { u with lifecycle := u.lifecycle.note .newcomer (.commandReplayed index ids) }

/-- Replays events as several commands, the first of which has the given number. A refusal ends the
replay. -/
def replayCommands (u : Uploader) (command : String) (options : UploadOptions)
    (events : List Event) (source : IdSource) (index : Nat) :
    (count : Nat) → Uploader × Except ProcessExit (List Summary)
  | 0 => (u, .ok [])
  | count + 1 =>
    let (ids, source) := source.command
    match u.replayCommand command options ids events with
    | (u, .refused exit) => (u, .error exit)
    | (u, .dropped) => (u, .ok [])
    | (u, .ok report) =>
      let u := u.noteReplayed index ids
      let (u, rest) := u.replayCommands command options events source (index + 1) count
      (u, rest.map (⟨index, ids.invocation, report⟩ :: ·))

/-- Replays events as the request says, at least once. -/
def replay (u : Uploader) (r : ReplayRequest) (options : UploadOptions) (source : IdSource)
    (events : List Event) : Uploader × Except ProcessExit (List Summary) :=
  match u.replayCommands r.command (r.applyTo options) events source 1 (max r.invocations 1) with
  | (u, .error exit) => (u, .error exit)
  | (u, .ok summaries) => (u.shutdown, .ok summaries)

end Uploader

end EventUpload
