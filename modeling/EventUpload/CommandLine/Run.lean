import EventUpload.Command.Replay
import EventUpload.Console.Overview
import EventUpload.Console.Session
import EventUpload.Event.Recording
import EventUpload.Settings.Source

/-!
# Running the program

A run is a function of the words of the command line and of what the process finds around itself; it
yields what the process writes, the files it leaves and its exit status. The log is opened first, by
the settings as far as they can be read; then the settings are read for good and the subcommand is
carried out.
-/

set_option autoImplicit false

namespace EventUpload

/-- What a process finds. -/
structure Surroundings where
  environment : Environment
  files : FileStore
  web : Web
  ids : IdSource
  time : String

/-- What a process leaves. -/
structure RunResult where
  status : Nat
  output : String
  errors : String
  files : FileStore

inductive RunFault where
  /-- The settings cannot be read, from a named file or from the usual ones. -/
  | settings (file : Option String) (fault : SettingFault)
  | recording (path : String) (fault : RecordingFault)
  | refused (exit : ProcessExit)

namespace RunFault

def message : RunFault → String
  | settings file f => (file.elim "" fun path => "failed to load " ++ path ++ ": ") ++ f.message
  | recording path f => f.message path
  | refused exit => exit.message

def consoleMessage : RunFault → String
  | refused exit => exit.consoleMessage
  | f => f.message

def status : RunFault → Nat
  | refused exit => exit.code.number
  | _ => 1

def record (f : RunFault) : LogRecord := .plain .error "bepstream" ("Command failed: " ++ f.message)

end RunFault

/-- The record of an exit code that the uploads of a replay ask for. -/
def ExitCode.record (c : ExitCode) : LogRecord :=
  ⟨.info, "bepstream", "uploads finished with failures", [("code", .shown c.name)]⟩

def userFileRecord (path : String) : LogRecord :=
  ⟨.debug, "bepstream::config::sources::global_file", "loading global configuration",
    [("config_path", .shown path)]⟩

/-- The exit code that summaries ask for: every report that asks for one asks for the same. -/
def Summary.exitCode? (summaries : List Summary) : Option ExitCode :=
  summaries.findSome? (·.report.exitCode?)

namespace GlobalOptions

def settings (o : GlobalOptions) (s : Surroundings) : Except SettingFault Settings :=
  match o.settingsFile with
  | some name => Settings.loadFile s.files s.environment name
  | none => Settings.load s.files s.environment o.workspace

/-- The user's file of settings, if it is looked at. -/
def userFile? (o : GlobalOptions) (s : Surroundings) : Option String :=
  if o.settingsFile.isSome then none
  else (Environment.userFile? s.environment).filter s.files.holds

/-- Options of the log with what the command line says. -/
def applyTo (o : GlobalOptions) (log : LogOptions) : LogOptions :=
  { log with
    level := o.logLevel.getD (if o.verbose then "debug" else log.level)
    form := o.logForm.getD log.form
    output := o.logOutput.getD log.output
    file := o.logFile.getD log.file }

/-- The options of the log; settings that cannot be read count as the standard ones. -/
def log (o : GlobalOptions) (s : Surroundings) : LogOptions :=
  o.applyTo (match o.settings s with
    | .ok settings => settings.log
    | .error _ => .standard)

end GlobalOptions

/-- What a subcommand that succeeds has to show, and the exit code that it asks for. -/
abbrev Showing := String × Option ExitCode

/-- Replays a recording; the answer has the files afterwards and everything that was posted. -/
def ReplayRequest.perform (r : ReplayRequest) (options : UploadOptions) (s : Surroundings) :
    FileStore × List Post × Except RunFault Showing :=
  match Recording.read s.files r.events with
  | .error f => (s.files, [], .error (.recording r.events f))
  | .ok events =>
    let outside : Outside := { Outside.fresh with files := s.files, web := s.web }
    let (u, result) := (Uploader.new .web outside).replay r options s.ids events
    (u.lifecycle.release.files, u.lifecycle.log.map Posted.post, match result with
      | .error exit => .error (.refused exit)
      | .ok summaries =>
        .ok (Summary.render (.ofText r.form) summaries, Summary.exitCode? summaries))

namespace Subcommand

def perform (c : Subcommand) (settings : Settings) (s : Surroundings) :
    FileStore × List Post × Except RunFault Showing :=
  match c with
  | config form => (s.files, [], .ok (settings.render (.ofText form), none))
  | replay r => r.perform settings.upload s

end Subcommand

namespace Session

/-- Ends a session with what came of its subcommand. -/
def finish (s : Session) (files : FileStore) (result : Except RunFault Showing) : RunResult :=
  let (s, status) := match result with
    | .ok (text, none) => (s.printLine text, 0)
    | .ok (text, some code) => ((s.printLine text).record code.record, code.number)
    | .error f => ((s.record f.record).complain f.consoleMessage, f.status)
  ⟨status, s.output, s.errors, s.files files⟩

end Session

namespace CommandLine

/-- Runs a command line in a session that has been opened. -/
def runIn (c : CommandLine) (session : Session) (s : Surroundings) : RunResult :=
  let session := match c.options.userFile? s with
    | some path => session.record (userFileRecord path)
    | none => session
  match c.options.settings s with
  | .error f => session.finish s.files (.error (.settings c.options.settingsFile f))
  | .ok settings =>
    let (files, told, result) := c.command.perform settings s
    (session.posts told).finish files result

def run (c : CommandLine) (s : Surroundings) : RunResult :=
  let (complaints, opened) := (c.options.log s).openLog s.environment s.files
  let errors := String.join (complaints.map (· ++ "\n"))
  match opened with
  | .error f => ⟨1, "", errors ++ f.message ++ "\n", s.files⟩
  | .ok (log, files) => c.runIn (.start log s.time errors) { s with files := files }

end CommandLine

/-! ## Command lines that are not carried out -/

def usage : String :=
  "Usage: bepstream [OPTIONS] <COMMAND>\n\n"
  ++ "Commands:\n"
  ++ "  replay  Replay recorded events through the upload\n"
  ++ "  config  Show the settings\n"
  ++ "  help    Show this text\n\n"
  ++ "Options:\n"
  ++ String.join (GlobalOptions.specs.map fun o => "  --" ++ o.name ++ "\n")
  ++ "\nOptions of replay:\n"
  ++ String.join (ReplayRequest.specs.map fun o => "  --" ++ o.name ++ "\n")

def UsageFault.message : UsageFault → String
  | nothingAsked | helpAsked => ""
  | missingSubcommand => "error: a subcommand is required\n\n"
  | unknownSubcommand => "error: unrecognized subcommand\n\n"
  | unknownArgument => "error: unexpected argument\n\n"
  | missingOption => "error: a required option was not given\n\n"
  | missingValue => "error: an option has no value\n\n"
  | badValue => "error: invalid value of an option\n\n"
  | repeatedOption => "error: an option cannot be used multiple times\n\n"
  | unwantedValue => "error: a flag takes no value\n\n"

/-- The result of a command line that is not carried out. Help that was asked for is output. -/
def UsageFault.result (f : UsageFault) (files : FileStore) : RunResult :=
  match f with
  | helpAsked => ⟨0, usage, "", files⟩
  | f => ⟨2, "", f.message ++ usage, files⟩

/-- Runs the program on the words of a command line, the first of which is its name. -/
def runProgram (words : List String) (s : Surroundings) : RunResult :=
  match CommandLine.ofWords words with
  | .ok c => c.run s
  | .error f => f.result s.files

end EventUpload
