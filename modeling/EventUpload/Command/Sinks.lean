import EventUpload.Command.Ids
import EventUpload.Options.Check
import EventUpload.Lifecycle.State

/-!
# Opening the sinks of a command

The files of the options come first, in the order of their encodings, then the backend. A file that
cannot be created is left out with a warning.
-/

set_option autoImplicit false

namespace EventUpload

/-- A sink that writes to a destination through a channel. -/
def Sink.ofDestination (name : String) (boundSecs : Nat) (d : Destination) : Sink :=
  .new (boundSecs * 1000) (.channel (.new name d))

/-- A file that is left out, and why. -/
structure OmittedFile where
  path : String
  error : SinkError
deriving DecidableEq, Repr

namespace OmittedFile

def ofFault (encoding : Encoding) (path : String) (fault : FileFault) : OmittedFile :=
  ⟨path, .construction encoding.sinkName (path ++ ": " ++ fault.message)⟩

def warning (o : OmittedFile) : String :=
  "Unable to write to '" ++ o.path ++ "'. Omitting " ++ o.error.sink ++ " build event sink: "
    ++ o.error.message

end OmittedFile

/-- Opens files; the answer has the sinks and the files that are left out. -/
def openFiles : List (Encoding × FileOptions) → Outside → Outside × List Sink × List OmittedFile
  | [], outside => (outside, [], [])
  | (encoding, file) :: rest, outside =>
    match FileWriter.create outside.files file.path encoding with
    | .ok (files, w) =>
      let (outside, sinks, omitted) := openFiles rest { outside with files := files }
      (outside, .ofDestination encoding.sinkName file.timeoutSecs (.file w) :: sinks, omitted)
    | .error fault =>
      let (outside, sinks, omitted) := openFiles rest outside
      (outside, sinks, .ofFault encoding file.path fault :: omitted)

/-- Warns about the files that are left out, each with a remark. -/
def Lifecycle.sayOmitted (l : Lifecycle) (omitted : List OmittedFile) : Lifecycle :=
  omitted.foldl (fun l o =>
    (l.note .newcomer (.sinkOmitted o.path o.error)).say .newcomer .warning o.warning) l

def backendSink (connection : Connection) (options : BackendOptions) (ids : CommandIds) : Sink :=
  .ofDestination backendSinkName options.timeoutSecs
    (.backend (.new connection options ids.request ids.invocation))

end EventUpload
