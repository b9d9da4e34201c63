import EventUpload.Sink.Error
import EventUpload.Lifecycle.Phase

/-!
# Failures and process exits

A `Failure` is what an operation of the lifecycle or of a command answers when it refuses. A host
turns it into an `ProcessExit`, which carries the exit code of the process.
-/

set_option autoImplicit false

namespace EventUpload

/-- The kinds of process exits, the least severe first. -/
inductive ExitCode where
  | environmental
  | transient
  | internal
deriving BEq, DecidableEq, Repr

namespace ExitCode

def number : ExitCode → Nat
  | environmental => 36
  | transient => 38
  | internal => 37

def name : ExitCode → String
  | environmental => "environmental-error"
  | transient => "transient-upload-error"
  | internal => "internal-error"

end ExitCode

/-- The end of the process that a failure asks for. -/
structure ProcessExit where
  text : String
  code : ExitCode
deriving BEq, DecidableEq, Repr

def ProcessExit.message (e : ProcessExit) : String := e.text ++ " (" ++ e.code.name ++ ")"

def ProcessExit.consoleMessage (e : ProcessExit) : String :=
  e.text ++ " (exit code " ++ toString e.code.number ++ ")"

/-- Why an operation was refused. -/
inductive Failure where
  /-- The options do not fit together, or could not be loaded. -/
  | configuration (problems : List String)
  | sink (error : SinkError)
  | outOfOrder (operation : Operation) (phase : Phase)
  | abrupt (exit : ProcessExit)
deriving BEq, DecidableEq, Repr

namespace Failure

def message : Failure → String
  | configuration problems =>
    "Invalid build event upload configuration: " ++ String.intercalate "; " problems
  | sink error => error.message
  | outOfOrder operation phase =>
    "Lifecycle operation '" ++ operation.name ++ "' is not allowed in state " ++ phase.name
  | abrupt exit => exit.message

def exit : Failure → ProcessExit
  | abrupt e => e
  | f@(configuration _) => ⟨f.message, .environmental⟩
  | f@(sink error) => ⟨f.message, if error.isTimeout then .transient else .environmental⟩
  | f@(outOfOrder ..) => ⟨f.message, .internal⟩

end Failure

end EventUpload
