import EventUpload.Failure
import EventUpload.Json.Value

/-!
# Reports

The report of an invocation lists how the upload to each sink stands, in the order in which the
sinks were registered. An upload that has not ended is pending; that is no failure.
-/

set_option autoImplicit false

namespace EventUpload

inductive SinkStatus where
  | succeeded
  | failed (detail : String)
  | timedOut
  | cancelled
  | pending
deriving BEq, DecidableEq, Repr

namespace SinkStatus

/-- The status of an upload with the given outcome, if it has one. -/
def ofOutcome? : Option Outcome → SinkStatus
  | none => pending
  | some .done => succeeded
  | some (.failed (.closeTimeout ..)) => timedOut
  | some (.failed (.cancelled _)) => cancelled
  | some (.failed e) => failed e.message

def label : SinkStatus → String
  | succeeded => "succeeded"
  | failed _ => "failed"
  | timedOut => "timed out"
  | cancelled => "cancelled"
  | pending => "pending"

def toJson : SinkStatus → Json
  | succeeded => .obj [("status", .str "succeeded")]
  | failed detail => .obj [("status", .str "failed"), ("detail", .str detail)]
  | timedOut => .obj [("status", .str "timed_out")]
  | cancelled => .obj [("status", .str "cancelled")]
  | pending => .obj [("status", .str "pending")]

def exitCode? : SinkStatus → Option ExitCode
  | succeeded | pending => none
  | failed _ | timedOut | cancelled => some .transient

end SinkStatus

structure SinkOutcome where
  name : String
  status : SinkStatus
deriving BEq, DecidableEq, Repr

structure Report where
  mode : UploadMode
  outcomes : List SinkOutcome
deriving BEq, DecidableEq, Repr

namespace Report

/-- The report over sinks with their outcomes, as far as they have one. -/
def ofOutcomes (mode : UploadMode) (sinks : List (String × Option Outcome)) : Report :=
  ⟨mode, sinks.map fun (name, outcome) => ⟨name, .ofOutcome? outcome⟩⟩

/-- The status of the first sink with a name. -/
def status? (r : Report) (name : String) : Option SinkStatus :=
  (r.outcomes.find? (fun o => o.name = name)).map (·.status)

def isComplete (r : Report) : Bool := r.outcomes.all (fun o => o.status = .succeeded)

/-- The exit code that the report asks for: every status that asks for one asks for the same. -/
def exitCode? (r : Report) : Option ExitCode := r.outcomes.findSome? (·.status.exitCode?)

def toJson (r : Report) : Json :=
  .obj [("mode", .str r.mode.name), ("outcomes", .arr (r.outcomes.map fun o =>
    .obj [("name", .str o.name), ("status", o.status.toJson)]))]

end Report

end EventUpload
