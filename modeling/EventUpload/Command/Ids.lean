/-!
# Identifiers

Every invocation has an identifier of its own, and belongs to a build request that may span several
invocations. Both carry the time and the number of the process; invocations are counted, so that no
two of one process have the same identifier.
-/

set_option autoImplicit false

namespace EventUpload

/-- The identifiers of a command: of the build request and of the invocation. -/
structure CommandIds where
  request : String
  invocation : String
deriving BEq, DecidableEq, Repr

/-- Where identifiers come from. -/
structure IdSource where
  /-- The time as the process writes it, in milliseconds. -/
  time : String
  process : String
  next : Nat
deriving BEq, DecidableEq, Repr

namespace IdSource

def ofProcess (time process : String) : IdSource := ⟨time, process, 1⟩

def request (s : IdSource) : String := "req-" ++ s.time ++ "-" ++ s.process

def invocation (s : IdSource) : String :=
  "inv-" ++ s.time ++ "-" ++ s.process ++ "-" ++ toString s.next

def advance (s : IdSource) : IdSource := { s with next := s.next + 1 }

def command (s : IdSource) : CommandIds × IdSource := (⟨s.request, s.invocation⟩, s.advance)

def invocations (s : IdSource) : Nat → List String
  | 0 => []
  | n + 1 => s.invocation :: s.advance.invocations n

end IdSource

end EventUpload
