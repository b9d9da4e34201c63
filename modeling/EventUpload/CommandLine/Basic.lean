import EventUpload.CommandLine.Options
import EventUpload.Lifecycle.Phase
import EventUpload.Settings.Decode

/-!
# The command line of the program

Two subcommands: one replays recorded events through the upload, the other one shows the settings.
Options for both stand in front of the subcommand, its own behind it.
-/

set_option autoImplicit false

namespace EventUpload

/-- What is to be replayed, and where to. -/
structure ReplayRequest where
  events : String
  /-- The command that every invocation runs as. -/
  command : String
  invocations : Nat
  textFile : Option String
  jsonFile : Option String
  binaryFile : Option String
  backend : Option String
  /-- The bound of the backend's upload in seconds. -/
  backendBound : Option Nat
  mode : Option UploadMode
  keepConnections : Bool
  form : String
deriving BEq, DecidableEq, Repr

/-- What the program is asked to do. -/
inductive Subcommand where
  | replay (request : ReplayRequest)
  | config (form : String)
deriving BEq, DecidableEq, Repr

structure GlobalOptions where
  workspace : String
  /-- The file of settings that takes the place of the usual ones. -/
  settingsFile : Option String
  verbose : Bool
  logLevel : Option String
  logForm : Option String
  logOutput : Option String
  logFile : Option String
deriving BEq, DecidableEq, Repr

structure CommandLine where
  options : GlobalOptions
  command : Subcommand
deriving BEq, DecidableEq, Repr

namespace GlobalOptions

def standard : GlobalOptions := ⟨".", none, false, none, none, none, none⟩

def specs : List (OptionSpec GlobalOptions) := [
  .path "workspace" fun o v => { o with workspace := v },
  .path "config" fun o v => { o with settingsFile := some v },
  .flag "verbose" fun o => { o with verbose := true },
  .text "log-level" fun o v => { o with logLevel := some v },
  .text "log-format" fun o v => { o with logForm := some v },
  .text "log-output" fun o v => { o with logOutput := some v },
  .path "log-file" fun o v => { o with logFile := some v }]

end GlobalOptions

namespace ReplayRequest

def standard : ReplayRequest :=
  ⟨"", "build", 1, none, none, none, none, none, none, false, "text"⟩

/-- The option that has to be given. -/
def eventsOption : String := "events"

def specs : List (OptionSpec ReplayRequest) := [
  .path eventsOption fun r v => { r with events := v },
  .text "command-name" fun r v => { r with command := v },
  .reading "invocations" Setting.wordOfText? fun r n => { r with invocations := n },
  .path "text-file" fun r v => { r with textFile := some v },
  .path "json-file" fun r v => { r with jsonFile := some v },
  .path "binary-file" fun r v => { r with binaryFile := some v },
  .text "backend" fun r v => { r with backend := some v },
  .reading "bes-timeout-secs" Setting.wordOfText? fun r n => { r with backendBound := some n },
  .reading "upload-mode" (fun v => (UploadMode.ofText v).toOption) fun r m =>
    { r with mode := some m },
  .flag "keep-backend-connections" fun r => { r with keepConnections := true },
  .text "format" fun r v => { r with form := v }]

def ofWords (words : List String) : Except UsageFault ReplayRequest := do
  let (r, _) ← Reading.words specs [] words (.start standard)
  let r ← r.resolve
  if r.given.contains eventsOption then return r.draft else .error .missingOption

end ReplayRequest

namespace Subcommand

def formOfWords (words : List String) : Except UsageFault String := do
  let (r, _) ← Reading.words [.text "format" fun _ v => v] [] words (.start "text")
  return (← r.resolve).draft

def named : List (String × (List String → Except UsageFault Subcommand)) := [
  ("replay", fun words => replay <$> ReplayRequest.ofWords words),
  ("config", fun words => config <$> formOfWords words)]

def helpName : String := "help"

def names : List String := helpName :: named.map Prod.fst

/-- What follows from the words behind the subcommand that asks for help: they name a subcommand,
or none. -/
def helpFault : List String → UsageFault
  | [] => .helpAsked
  | [name] => if names.contains name then .helpAsked else .unknownSubcommand
  | _ => .unknownSubcommand

def ofWords (name : String) (words : List String) : Except UsageFault Subcommand :=
  match named.lookup name with
  | some read => read words
  | none => .error (helpFault words)

end Subcommand

namespace CommandLine

/-- The command line of words, the first of which is the name of the program. The options in front
of a subcommand that have not been looked at come after those behind it. -/
def ofWords (words : List String) : Except UsageFault CommandLine := do
  let (r, found) ← Reading.words GlobalOptions.specs Subcommand.names words.tail
    (.start .standard)
  match found with
  | some (name, rest) =>
    let command ← Subcommand.ofWords name rest
    return ⟨(← r.resolve).draft, command⟩
  | none =>
    let r ← r.resolve
    if r.given.isEmpty then .error .nothingAsked else .error .missingSubcommand

end CommandLine

end EventUpload
