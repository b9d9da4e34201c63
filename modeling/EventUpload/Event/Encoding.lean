import EventUpload.Event.Basic
import EventUpload.Text.Utf8

/-!
# Encodings of events in files

A file of events is the concatenation of their encodings: a readable block per event that ends with
a line of three dashes, a line of JSON per event, or a binary frame per event. A frame is the length
of its record in four bytes, followed by the record: the sequence number in eight bytes, time, kind
and payload as texts with their length in eight bytes, and the mark of the last event in one byte.
All numbers have their low byte first.
-/

set_option autoImplicit false

namespace EventUpload

/-- The `width` lowest bytes of a number, the lowest first. -/
def littleEndian : (width : Nat) → Nat → List UInt8
  | 0, _ => []
  | width + 1, n => UInt8.ofNat (n % 256) :: littleEndian width (n / 256)

/-- The number with the given bytes, the lowest first. -/
def ofLittleEndian : List UInt8 → Nat
  | [] => 0
  | b :: bs => b.toNat + 256 * ofLittleEndian bs

/-- The record that the binary encoding keeps of an event; the payload is its JSON text. -/
structure EventRecord where
  sequence : Nat
  time : String
  kind : String
  payload : String
  last : Bool
deriving BEq, DecidableEq, Repr, Inhabited

def Event.record (e : Event) : EventRecord :=
  ⟨e.sequence, e.time, e.kind, e.payload.compact, e.last⟩

namespace EventRecord

/-- A text after its length. -/
def textBytes (s : String) : List UInt8 :=
  let bytes := Utf8.encode s
  littleEndian 8 bytes.length ++ bytes

def bytes (r : EventRecord) : List UInt8 :=
  littleEndian 8 r.sequence ++ textBytes r.time ++ textBytes r.kind ++ textBytes r.payload
    ++ [if r.last then 1 else 0]

/-- The frame of a record. -/
def frame (r : EventRecord) : List UInt8 :=
  littleEndian 4 r.bytes.length ++ r.bytes

end EventRecord

/-- How events are written into a file. -/
inductive Encoding where
  | text
  | json
  | binary
deriving BEq, DecidableEq, Repr

namespace Encoding

def name : Encoding → String
  | .text => "text"
  | .json => "json"
  | .binary => "binary"

def ofJson : Json.Decoder Encoding :=
  Json.decodeName ([text, json, binary].map fun e => (e.name, e))

/-- The readable block of an event. -/
def textBlock (e : Event) : String :=
  "sequence: " ++ toString e.sequence ++ "\ntype: " ++ e.kind ++ "\ntimestamp: " ++ e.time ++ "\n"
    ++ (if e.last then "last_message: true\n" else "")
    ++ "payload: " ++ e.payload.pretty ++ "\n---\n"

def jsonLine (e : Event) : String := e.toJson.compact ++ "\n"

/-- Why an event has no encoding. -/
inductive Refusal where
  /-- The record does not fit a frame. -/
  | tooLarge (size : Nat)
deriving BEq, DecidableEq, Repr

def Refusal.message : Refusal → String
  | .tooLarge size => "event record of " ++ toString size ++ " bytes exceeds the binary frame limit"

def encode (encoding : Encoding) (e : Event) : Except Refusal (List UInt8) :=
  match encoding with
  | .text => .ok (Utf8.encode (textBlock e))
  | .json => .ok (Utf8.encode (jsonLine e))
  | .binary =>
    let size := e.record.bytes.length
    if size < Nat.pow 2 32 then .ok e.record.frame else .error (.tooLarge size)

end Encoding

end EventUpload
