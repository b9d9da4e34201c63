import EventUpload.Log.Record
import EventUpload.Message
import EventUpload.Text.Quoted

/-!
# Remarks in the log

Every remark becomes a record. Its target says which part of the program it is about, its level how
much of a matter it is.
-/

set_option autoImplicit false

namespace EventUpload

inductive Part where
  | lifecycle
  | stream
  | sink
  | opening
  | command
  | replay
deriving BEq, DecidableEq, Repr

def Part.target : Part → String
  | lifecycle => "bepstream::lifecycle::manager"
  | stream => "bepstream::streamer"
  | sink => "bepstream::transport"
  | opening => "bepstream::sinks::factory"
  | command => "bepstream::module"
  | replay => "bepstream::cli::route"

def SinkError.fields (e : SinkError) : List (String × LogValue) :=
  [("sink", .shown e.sink), ("error", .shown e.message)]

def CommandIds.field (ids : CommandIds) : String × LogValue :=
  ("invocation_id", .shown ids.invocation)

def Ending.field (e : Ending) : String × LogValue := ("phase", .text e.name)

def Ending.cutOffText : Ending → String
  | crash => "Attempting to close build event streamer on crash"
  | shutdown => "closing build event stream at shutdown"

def Remark.record : Remark → LogRecord
  | streamStarted ids sinks => ⟨.info, Part.lifecycle.target, "build event stream started",
    [ids.field, ("build_request_id", .shown ids.request),
      ("sinks", .shown (Text.quotedList sinks))]⟩
  | streamFinished ids mode outstanding => ⟨.info, Part.lifecycle.target,
    "build event stream finished",
    [ids.field, ("mode", .shown mode.name), ("outstanding", .flag outstanding)]⟩
  | streamLeftOpen ids => ⟨.warn, Part.lifecycle.target, "event stream was not properly closed",
    [ids.field]⟩
  | streamCutOff ids ending => ⟨.warn, Part.lifecycle.target, ending.cutOffText, [ids.field]⟩
  | streamAborted reason sinks => ⟨.info, Part.stream.target, "aborting build event stream",
    [("reason", .text reason.name), ("sinks", .count sinks)]⟩
  | eventDropped kind => ⟨.debug, Part.stream.target, "event posted after stream close; dropped",
    [("kind", .shown kind)]⟩
  | sinkOmitted path error => ⟨.warn, Part.opening.target, "dropping build event sink",
    [("sink", .text error.sink), ("path", .shown path), ("error", .shown error.message)]⟩
  | sinkFailed error => ⟨.warn, Part.sink.target, "build event sink failed", error.fields⟩
  | drainFailed error => ⟨.warn, Part.lifecycle.target,
    "background build event upload did not complete", error.fields⟩
  | settleFailed error ending => ⟨.warn, Part.lifecycle.target,
    "build event upload did not complete", error.fields ++ [ending.field]⟩
  | settleTooSlow grace ending => ⟨.warn, Part.lifecycle.target,
    "build event uploads still outstanding after grace period; cancelling",
    [("grace_ms", .count grace), ending.field]⟩
  | commandFinished ids sinks => ⟨.info, Part.command.target, "after_command finished",
    [ids.field, ("sinks", .count sinks)]⟩
  | commandReplayed index ids => ⟨.info, Part.replay.target, "replayed invocation",
    [("index", .count index), ids.field]⟩

end EventUpload
