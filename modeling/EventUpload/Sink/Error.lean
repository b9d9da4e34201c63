/-!
# Errors of sinks

A sink is one destination of a stream of build events. Its upload ends with an `Outcome`: done, or
one of five errors, each of which names the sink.
-/

set_option autoImplicit false

namespace EventUpload

/-- Why the upload to a sink failed. -/
inductive SinkError where
  | construction (sink reason : String)
  | transmission (sink reason : String)
  /-- The sink was not done within its bound, given in milliseconds. -/
  | closeTimeout (sink : String) (bound : Nat)
  | cancelled (sink : String)
  | aborted (sink : String)
deriving BEq, DecidableEq, Repr

namespace SinkError

def sink : SinkError → String
  | construction s _ | transmission s _ | closeTimeout s _ | cancelled s | aborted s => s

/-- The wording of an error; a bound is given in whole seconds. -/
def message : SinkError → String
  | construction s reason => "Unable to open build event sink '" ++ s ++ "': " ++ reason
  | transmission s reason => "Build event upload to '" ++ s ++ "' failed: " ++ reason
  | closeTimeout s bound =>
    "Build event upload to '" ++ s ++ "' timed out after " ++ toString (bound / 1000) ++ "s"
  | cancelled s => "Build event upload to '" ++ s ++ "' was cancelled"
  | aborted s => "Build event upload to '" ++ s ++ "' was aborted"

def isTimeout : SinkError → Bool
  | closeTimeout .. => true
  | _ => false

def isCancelled : SinkError → Bool
  | cancelled _ => true
  | _ => false

/-- Whether the sink reported the error itself. -/
def isTransmission : SinkError → Bool
  | transmission .. => true
  | _ => false

end SinkError

inductive Outcome where
  | done
  | failed (error : SinkError)
deriving BEq, DecidableEq, Repr

def Outcome.error? : Outcome → Option SinkError
  | done => none
  | failed e => some e

/-- A chain of causes as one text, the outermost first; the list has the innermost first. -/
def chainMessage (causes : List String) : String := String.intercalate ": " causes.reverse

end EventUpload
