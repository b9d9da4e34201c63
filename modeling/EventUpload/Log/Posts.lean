import EventUpload.Log.Remarks
import EventUpload.Text.Quoted

/-!
# Posts and logs

Posts can be kept in memory or handed to the log. What is kept can be asked for by kind, and only
its warnings are logged; what is handed to the log is logged all of it, notices and progress with
the least importance.
-/

set_option autoImplicit false

namespace EventUpload

def postTarget : String := "bepstream::reporter"

def MessageKind.level : MessageKind → LogLevel
  | info => .info
  | progress => .debug
  | warning => .warn
  | error => .error

def Notice.describe : Notice → String
  | announced names => "TransportsAnnounced(" ++ Text.quotedList names ++ ")"
  | closed name => "TransportClosed(" ++ Text.quoted name ++ ")"

def Message.record (m : Message) : LogRecord := .plain m.kind.level postTarget m.text

def Notice.record (n : Notice) : LogRecord :=
  ⟨.debug, postTarget, "notification", [("notification", .shown n.describe)]⟩

def Post.record : Post → LogRecord
  | message m => m.record
  | notice n => n.record
  | remark r => r.record

/-! ## Posts that are kept -/

def messagesAmong (posts : List Post) : List Message :=
  posts.filterMap fun
    | .message m => some m
    | .notice _ | .remark _ => none

def noticesAmong (posts : List Post) : List Notice :=
  posts.filterMap fun
    | .notice n => some n
    | .message _ | .remark _ => none

def textsOfKind (kind : MessageKind) (posts : List Post) : List String :=
  ((messagesAmong posts).filter (·.kind = kind)).map Message.text

/-- The names of the sinks that have ended. -/
def closedAmong (posts : List Post) : List String :=
  (noticesAmong posts).filterMap fun
    | .closed name => some name
    | .announced _ => none

/-- What is logged about posts that are kept. -/
def keptRecords (posts : List Post) : List LogRecord :=
  ((messagesAmong posts).filter (·.kind = .warning)).map Message.record

end EventUpload
