import EventUpload.Json.Record
import EventUpload.Json.Decode
import EventUpload.Json.Printer

/-!
# Build events

An event is one entry of the stream that a build reports about itself. Its sequence number is zero
until a stream gives it one; an event marked as last ends its stream. The JSON form of an event is a
record of its fields in order, in which `last_message` is left out unless it is true; read back, the
number, the payload and that mark have defaults.
-/

set_option autoImplicit false

namespace EventUpload

/-- One entry of the stream of build events. -/
structure Event where
  sequence : Nat
  time : String
  kind : String
  payload : Json
  last : Bool
deriving BEq, Repr, Inhabited

/-- The time of an event that a stream makes itself, as long as nobody has put the clock's time
there. -/
def blankTime : String := "0000-00-00T00:00:00.000Z"

namespace Event

/-- An event that is not the last one, not numbered yet and without the clock's time. -/
def ofPayload (kind : String) (payload : Json) : Event :=
  ⟨0, blankTime, kind, payload, false⟩

def lastOf (kind : String) (payload : Json) : Event :=
  { ofPayload kind payload with last := true }

def numbered (e : Event) (n : Nat) : Event := { e with sequence := n }

def toJson (e : Event) : Json :=
  .obj ([("sequence", .ofNat e.sequence), ("ts", .str e.time), ("type", .str e.kind),
    ("payload", e.payload)] ++ if e.last then [("last_message", .bool true)] else [])

/-! ## Reading -/

/-- What is known of an event while it is being read. -/
structure Draft where
  sequence : Option Nat
  time : Option String
  kind : Option String
  payload : Option Json
  last : Option Bool

/-- The event of a draft; the readers see to it that the fields without default are there. -/
def Draft.event (d : Draft) : Event :=
  ⟨d.sequence.getD 0, d.time.getD "", d.kind.getD "", d.payload.getD .null, d.last.getD false⟩

def Draft.empty : Draft := ⟨none, none, none, none, none⟩

/-- How deep the payload of an event may be nested inside its record, plus one. -/
def maxPayloadDepth : Nat := Json.maxDepth - 1

def fields : List (Json.Field Draft) := [
  ⟨"sequence", false, (·.sequence.isSome), fun d cs => do
    let (n, rest) ← Json.readWord64 cs
    return ({ d with sequence := some n }, rest)⟩,
  ⟨"ts", true, (·.time.isSome), fun d cs => do
    let (s, rest) ← Json.readString cs
    return ({ d with time := some s }, rest)⟩,
  ⟨"type", true, (·.kind.isSome), fun d cs => do
    let (s, rest) ← Json.readString cs
    return ({ d with kind := some s }, rest)⟩,
  ⟨"payload", false, (·.payload.isSome), fun d cs => do
    let (v, rest) ← Json.readValue maxPayloadDepth cs
    return ({ d with payload := some v }, rest)⟩,
  ⟨"last_message", false, (·.last.isSome), fun d cs => do
    let (b, rest) ← Json.readBool cs
    return ({ d with last := some b }, rest)⟩]

def read : Json.Reader Event := fun cs => do
  let (draft, rest) ← Json.readRecord "BuildEvent" fields Draft.empty cs
  return (draft.event, rest)

def ofText (text : String) : Except Json.Fault Event := Json.readWhole read text

def slots : List (Json.Slot Draft) := [
  ⟨"sequence", false, fun d v => do return { d with sequence := some (← Json.decodeWord "u64" v) }⟩,
  ⟨"ts", true, fun d v => do return { d with time := some (← Json.decodeString v) }⟩,
  ⟨"type", true, fun d v => do return { d with kind := some (← Json.decodeString v) }⟩,
  ⟨"payload", false, fun d v => return { d with payload := some v }⟩,
  ⟨"last_message", false, fun d v => do return { d with last := some (← Json.decodeBool v) }⟩]

def ofJson : Json.Decoder Event := fun v =>
  Draft.event <$> Json.decodeRecord "BuildEvent" slots Draft.empty v

end Event

/-! ## Aborted streams -/

/-- Why a stream was closed before its last event. -/
inductive AbortReason where
  | internal
  | userInterrupted
deriving BEq, DecidableEq, Repr

namespace AbortReason

def name : AbortReason → String
  | .internal => "internal"
  | .userInterrupted => "user_interrupted"

def description : AbortReason → String
  | .internal => "aborted due to an internal error"
  | .userInterrupted => "aborted by the user"

def ofJson : Json.Decoder AbortReason :=
  Json.decodeName ([internal, userInterrupted].map fun r => (r.name, r))

/-- The last event of an aborted stream. -/
def event (r : AbortReason) : Event :=
  .lastOf "aborted" (.ofMembers [("reason", .str r.name), ("description", .str r.description)])

end AbortReason

end EventUpload
