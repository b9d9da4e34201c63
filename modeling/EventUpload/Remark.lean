import EventUpload.Command.Ids
import EventUpload.Event.Basic
import EventUpload.Lifecycle.Phase
import EventUpload.Sink.Error

/-!
# Remarks

What the upload notes down for whoever looks after it, though the user is not told: the course of
its streams, and failures together with where they came up. A remark stands beside the messages for
the user, never in place of one.
-/

set_option autoImplicit false

namespace EventUpload

inductive Ending where
  | crash
  | shutdown
deriving BEq, DecidableEq, Repr

def Ending.name : Ending → String
  | crash => "crash"
  | shutdown => "shutdown"

inductive Remark where
  | streamStarted (ids : CommandIds) (sinks : List String)
  /-- The end of an invocation has been answered; its uploads may be outstanding. -/
  | streamFinished (ids : CommandIds) (mode : UploadMode) (outstanding : Bool)
  /-- An invocation ends although its stream has had no last event. -/
  | streamLeftOpen (ids : CommandIds)
  | streamCutOff (ids : CommandIds) (ending : Ending)
  | streamAborted (reason : AbortReason) (sinks : Nat)
  /-- An event came after the stream was closed. -/
  | eventDropped (kind : String)
  | sinkOmitted (path : String) (error : SinkError)
  | sinkFailed (error : SinkError)
  /-- An upload failed that nobody was waiting for. -/
  | drainFailed (error : SinkError)
  /-- An upload failed at the end of the process. -/
  | settleFailed (error : SinkError) (ending : Ending)
  /-- Uploads went on for longer than they may at the end of the process. -/
  | settleTooSlow (grace : Nat) (ending : Ending)
  | commandFinished (ids : CommandIds) (sinks : Nat)
  /-- A command of a replay is over; commands are counted from one. -/
  | commandReplayed (index : Nat) (ids : CommandIds)
deriving DecidableEq, Repr

end EventUpload
