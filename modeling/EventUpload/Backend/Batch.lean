import EventUpload.Event.Basic

/-!
# Batches of events

A backend receives the events of an invocation in batches, each of which says where it starts in the
stream and whether it is the last one.
-/

set_option autoImplicit false

namespace EventUpload

/-- One delivery to a backend. -/
structure Batch where
  requestId : String
  invocationId : String
  projectId : Option String
  keywords : List String
  firstSequence : Nat
  events : List Event
  last : Bool
deriving BEq, Repr, Inhabited

namespace Batch

def lastNumber? (b : Batch) : Option Nat := b.events.getLast?.map (·.sequence)

/-- The batch as a record; the project is left out if there is none. -/
def toJson (b : Batch) : Json :=
  .obj ([("build_request_id", .str b.requestId), ("invocation_id", .str b.invocationId)]
    ++ (match b.projectId with
      | some p => [("project_id", .str p)]
      | none => [])
    ++ [("keywords", .arr (b.keywords.map .str)), ("first_sequence", .ofNat b.firstSequence),
      ("events", .arr (b.events.map Event.toJson)), ("last_batch", .bool b.last)])

def empty : Batch := ⟨"", "", none, [], 0, [], false⟩

open Json in
def ofJson : Decoder Batch :=
  decodeRecord "EventBatch" [
    ⟨"build_request_id", true, fun d v => do return { d with requestId := ← decodeString v }⟩,
    ⟨"invocation_id", true, fun d v => do return { d with invocationId := ← decodeString v }⟩,
    ⟨"project_id", false, fun d v => do
      return { d with projectId := ← decodeOption decodeString v }⟩,
    ⟨"keywords", false, fun d v => do return { d with keywords := ← decodeList decodeString v }⟩,
    ⟨"first_sequence", true, fun d v => do return { d with firstSequence := ← decodeWord "u64" v }⟩,
    ⟨"events", true, fun d v => do return { d with events := ← decodeList Event.ofJson v }⟩,
    ⟨"last_batch", true, fun d v => do return { d with last := ← decodeBool v }⟩]
    empty

end Batch

end EventUpload
