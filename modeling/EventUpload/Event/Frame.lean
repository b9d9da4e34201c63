import EventUpload.Event.Encoding

/-!
# Reading binary event files

`decodeFrames` splits a file into its frames and reads the record of each. Fewer than four bytes
that are left at the end are no frame and do not matter; a frame whose length reaches beyond the
file holds what is there; what a frame holds after its record does not matter either.
-/

set_option autoImplicit false

namespace EventUpload

inductive FrameFault where
  | cutNumber
  | cutText
  | badMark (byte : UInt8)
  | badText (fault : Utf8.Fault)
deriving DecidableEq, Repr

def FrameFault.message : FrameFault → String
  | .cutNumber => "io error: unexpected end of file"
  | .cutText => "io error: "
  | .badMark byte => "invalid u8 while decoding bool, expected 0 or 1, found " ++ toString byte.toNat
  | .badText fault => "string is not valid utf8: " ++ fault.message

/-- A number of `width` bytes, and what follows. -/
def takeNumber (width : Nat) (bytes : List UInt8) : Except FrameFault (Nat × List UInt8) :=
  if bytes.length < width then .error .cutNumber
  else .ok (ofLittleEndian (bytes.take width), bytes.drop width)

/-- A text with its length in front, and what follows. -/
def takeText (bytes : List UInt8) : Except FrameFault (String × List UInt8) := do
  let (size, bytes) ← takeNumber 8 bytes
  if bytes.length < size then .error .cutText
  else
    let text ← (Utf8.decode (bytes.take size)).mapError .badText
    return (text, bytes.drop size)

def takeMark : List UInt8 → Except FrameFault (Bool × List UInt8)
  | [] => .error .cutNumber
  | b :: bytes =>
    if b = 0 then .ok (false, bytes) else if b = 1 then .ok (true, bytes) else .error (.badMark b)

/-- The record at the front of some bytes. -/
def EventRecord.ofBytes (bytes : List UInt8) : Except FrameFault EventRecord := do
  let (sequence, bytes) ← takeNumber 8 bytes
  let (time, bytes) ← takeText bytes
  let (kind, bytes) ← takeText bytes
  let (payload, bytes) ← takeText bytes
  let (last, _) ← takeMark bytes
  return ⟨sequence, time, kind, payload, last⟩

def decodeFrames : List UInt8 → Except FrameFault (List EventRecord)
  | a :: b :: c :: d :: rest => do
    let size := ofLittleEndian [a, b, c, d]
    let record ← EventRecord.ofBytes (rest.take size)
    return record :: (← decodeFrames (rest.drop size))
  | _ => .ok []
termination_by bytes => bytes.length
decreasing_by simp only [List.length_drop, List.length_cons]; omega

end EventUpload
