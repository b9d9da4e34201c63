import EventUpload.Failure
import EventUpload.Files.Store
import EventUpload.Log.Filter
import EventUpload.Log.Line
import EventUpload.Log.Options
import EventUpload.Settings.Environment
import EventUpload.Text.Quoted

/-!
# Opening the log

The options of the log say what is logged, in which form and where to; variables of the environment
go before them. A word that means nothing is a fault, but for two: a level that cannot be read is
left out with a complaint, and a form of the environment that is none is passed over. Of several
faults the one about the filter comes first, then the form, the output and the file.
-/

set_option autoImplicit false

namespace EventUpload

inductive LogPlace where
  | output
  | errors
  | file (place : Place)
deriving BEq, DecidableEq, Repr

structure OpenLog where
  filter : LogFilter
  form : LogForm
  place : LogPlace
deriving BEq, DecidableEq, Repr

inductive LogFault where
  | directive (fault : DirectiveFault)
  | form (word : String)
  | output (word : String)
  | directory (fault : FileFault)
  | file (path : String) (fault : FileFault)
deriving BEq, DecidableEq, Repr

namespace LogFault

def problem : LogFault → String
  | directive f => "Invalid log directive: " ++ f.message
  | form word => "Invalid log format: " ++ word ++ " (must be 'json' or 'text')"
  | output word => "Invalid log output: " ++ word ++ " (must be 'stdout', 'stderr' or 'file')"
  | directory f => "Failed to create log directory: " ++ f.message
  | file path f => "Failed to open log file " ++ Text.quoted path ++ ": " ++ f.message

/-- The wording of a fault as a failure of the configuration. -/
def message (f : LogFault) : String :=
  "Failed to initialize logging: " ++ (Failure.configuration [f.problem]).message

end LogFault

namespace Environment

def logFilter? (env : Environment) : Option LogFilter :=
  (env.value? "BEPSTREAM_LOG").bind fun text => (LogFilter.ofText text).toOption

def logModules (env : Environment) : List (String × String) :=
  (((env.value? "BEPSTREAM_LOG_MODULES").getD "").splitOn ",").filterMap fun piece =>
    match piece.splitOn "=" with
    | module :: level@(_ :: _) => some (Text.trim module, Text.trim (String.intercalate "=" level))
    | _ => none

def logForm? (env : Environment) : Option String :=
  (env.value? "BEPSTREAM_LOG_FORMAT").filter fun word => word = "json" || word = "text"

end Environment

namespace LogOptions

def addModule (f : LogFilter) (level : String × String) : Except LogFault LogFilter :=
  match LogDirective.ofText (level.1 ++ "=" ++ level.2) with
  | .ok d => .ok (f.add d)
  | .error fault => .error (.directive fault)

/-- The filter of the options, with the complaints about levels that cannot be read. A log that is
off stays off whatever is said about parts of the program. -/
def filter (o : LogOptions) (env : Environment) : List String × Except LogFault LogFilter :=
  match Environment.logFilter? env with
  | some f => ([], .ok f)
  | none =>
    if o.level = "off" then ([], .ok ⟨[.general none]⟩)
    else
      let (f, complaints) := LogFilter.ofTextLoosely o.level
      (complaints, (o.modules ++ Environment.logModules env).foldlM addModule f)

def isJson (o : LogOptions) (env : Environment) : Except LogFault Bool :=
  match (Environment.logForm? env).getD o.form with
  | "json" => .ok true
  | "text" => .ok false
  | word => .error (.form word)

/-- Where lines go, and the files with that of the log, which is created if need be. -/
def destination (o : LogOptions) (env : Environment) (files : FileStore) :
    Except LogFault (LogPlace × FileStore) :=
  match (env.value? "BEPSTREAM_LOG_OUTPUT").getD o.output with
  | "stdout" => .ok (.output, files)
  | "stderr" => .ok (.errors, files)
  | "file" =>
    match files.ensureAround o.file with
    | .error f => .error (.directory f)
    | .ok files =>
      match files.openFile o.file with
      | .error f => .error (.file o.file f)
      | .ok (files, place) => .ok (.file place, files)
  | word => .error (.output word)

def lineForm (o : LogOptions) (json : Bool) (place : LogPlace) : LogForm :=
  if json then .json
  else match place with
    | .file _ => .plain
    | _ => if o.colour then .coloured else .plain

/-- Opens the log; the answer has the complaints in any case. -/
def openLog (o : LogOptions) (env : Environment) (files : FileStore) :
    List String × Except LogFault (OpenLog × FileStore) :=
  let (complaints, filter) := o.filter env
  (complaints, do
    let filter ← filter
    let json ← o.isJson env
    let (place, files) ← o.destination env files
    return (⟨filter, o.lineForm json place, place⟩, files))

end LogOptions

end EventUpload
