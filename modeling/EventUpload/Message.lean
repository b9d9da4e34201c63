import EventUpload.Remark

/-!
# Messages and notices

What the upload tells the user: messages of four kinds, and notices about the sinks of an
invocation. Remarks are posted among them, in the order in which everything happened. Every post
carries its instant and its addressee, so that it can be said who was told what and when.
-/

set_option autoImplicit false

namespace EventUpload

inductive MessageKind where
  | info
  | progress
  | warning
  | error
deriving BEq, DecidableEq, Repr

def MessageKind.name : MessageKind → String
  | info => "info"
  | progress => "progress"
  | warning => "warning"
  | error => "error"

/-- A message to the user. -/
structure Message where
  kind : MessageKind
  text : String
deriving BEq, DecidableEq, Repr

/-- A notice about the sinks of an invocation. -/
inductive Notice where
  | announced (names : List String)
  /-- A sink that is waited for has ended, or is not waited for any longer. -/
  | closed (name : String)
deriving BEq, DecidableEq, Repr

/-- A message or a notice to the user, or a remark. -/
inductive Post where
  | message (m : Message)
  | notice (n : Notice)
  | remark (r : Remark)
deriving BEq, DecidableEq, Repr

inductive Addressee where
  | invocation (index : Nat)
  | newcomer
deriving BEq, DecidableEq, Repr

/-- A post with its instant in milliseconds and its addressee. -/
structure Posted where
  time : Nat
  addressee : Addressee
  post : Post
deriving BEq, DecidableEq, Repr

end EventUpload
