import EventUpload.Console.Line
import EventUpload.Log.Opening
import EventUpload.Log.Posts
import EventUpload.Text.Utf8

/-!
# Sessions on a console

What a process writes while it runs: results on its output, messages for the user among its errors,
and the lines of its log on either, or in a file. Messages are coloured. Notices about sinks are
only logged.
-/

set_option autoImplicit false

namespace EventUpload

/-- What a process has written. -/
structure Session where
  log : OpenLog
  time : String
  output : String
  errors : String
  /-- The lines of a log that is a file. -/
  logged : String

def Notice.consoleRecord (n : Notice) : LogRecord :=
  ⟨.debug, "bepstream::cli::output", "transport notification",
    [("notification", .shown n.describe)]⟩

namespace Session

/-- A session in which nothing has been written but some errors. -/
def start (log : OpenLog) (time errors : String) : Session := ⟨log, time, "", errors, ""⟩

def printLine (s : Session) (text : String) : Session :=
  { s with output := s.output ++ text ++ "\n" }

/-- Writes a line among the errors. -/
def complain (s : Session) (text : String) : Session :=
  { s with errors := s.errors ++ text ++ "\n" }

/-- Logs a record, if the filter lets it pass. -/
def record (s : Session) (r : LogRecord) : Session :=
  if s.log.filter.allows r then
    let line := r.line s.log.form (some s.time)
    match s.log.place with
    | .output => { s with output := s.output ++ line }
    | .errors => { s with errors := s.errors ++ line }
    | .file _ => { s with logged := s.logged ++ line }
  else s

def post (s : Session) : Post → Session
  | .message m => s.complain (m.consoleLine true)
  | .notice n => s.record n.consoleRecord
  | .remark r => s.record r.record

def posts (s : Session) (ps : List Post) : Session := ps.foldl post s

/-- The files with the log of the session, if that is one of them. -/
def files (s : Session) (store : FileStore) : FileStore :=
  match s.log.place with
  | .file place => store.append place (Utf8.encode s.logged)
  | _ => store

end Session

end EventUpload
