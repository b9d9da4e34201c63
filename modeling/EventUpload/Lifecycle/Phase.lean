/-!
# Phases, modes and limits of the upload lifecycle

One lifecycle serves all commands of a process, one invocation after the other. Its `Phase` says
which operation comes next; an `UploadMode` says how the end of an invocation waits for the sinks;
`Limits` bound every wait. Times are in milliseconds.
-/

set_option autoImplicit false

namespace EventUpload

/-- Where the lifecycle stands. -/
inductive Phase where
  | idle
  /-- The previous uploads are being settled, or have been. -/
  | waitingPrevious
  | active
  | closing
  /-- The process has crashed; nothing leads out of here. -/
  | crashed
deriving BEq, DecidableEq, Repr, Inhabited

def Phase.name : Phase → String
  | idle => "IDLE"
  | waitingPrevious => "WAITING_PREVIOUS"
  | active => "ACTIVE"
  | closing => "CLOSING"
  | crashed => "CRASHED"

/-- The operations that are bound to a phase. -/
inductive Operation where
  | before
  | start
  | finish
  | abandon
deriving BEq, DecidableEq, Repr

def Operation.name : Operation → String
  | before => "before_invocation"
  | start => "start_invocation"
  | finish => "end_invocation"
  | abandon => "abandon_invocation"

/-- The phase in which an operation is accepted. -/
def Operation.phase : Operation → Phase
  | before => .idle
  | start => .waitingPrevious
  | finish => .active
  | abandon => .waitingPrevious

/-! ## Modes -/

/-- How the end of an invocation waits for its sinks. -/
inductive UploadMode where
  /-- Wait until every sink is done. -/
  | blocking
  /-- Return at once; the next invocation waits until every sink is done. -/
  | nonBlocking
  /-- Return at once; the next invocation waits until every sink has sent its data. -/
  | fullyAsync
deriving BEq, DecidableEq, Repr, Inhabited

namespace UploadMode

def name : UploadMode → String
  | blocking => "blocking"
  | nonBlocking => "non_blocking"
  | fullyAsync => "fully_async"

def named : List (String × UploadMode) :=
  [blocking, nonBlocking, fullyAsync].map fun m => (m.name, m)

/-- A letter of a mode's name, of whatever case, or a hyphen for an underscore. -/
def foldChar (c : Char) : Char := if c = '-' then '_' else c.toLower

def ofText (text : String) : Except String UploadMode :=
  let word := String.ofList (text.toList.map foldChar)
  match (named ++ [("nowait", nonBlocking)]).lookup word with
  | some m => .ok m
  | none => .error ("unknown upload mode '" ++ word
      ++ "' (expected blocking, non_blocking or fully_async)")

end UploadMode

/-! ## Limits -/

/-- The bounds of the waits of a lifecycle. -/
structure Limits where
  /-- For the previous uploads, before an invocation starts. -/
  previous : Nat
  /-- For the outstanding uploads after a crash. -/
  crash : Nat
  /-- For the outstanding uploads at the end of the process. -/
  shutdown : Nat
  /-- For the end of a blocking invocation. -/
  blocking : Nat
deriving BEq, DecidableEq, Repr, Inhabited

def Limits.standard : Limits := ⟨5000, 2000, 5000, 3600000⟩

/-- A span for the user: in milliseconds below a second, else in whole seconds. -/
def describeSpan (ms : Nat) : String :=
  if ms < 1000 then toString ms ++ "ms" else toString (ms / 1000) ++ "s"

end EventUpload
