/-!
# UTF-8

`encode` writes a text as bytes. Reading looks at the front of the bytes: `front` finds a whole
character there, or a run of bytes that no character starts with, or the beginning of a character
whose other bytes are not there yet. `decode` refuses anything but whole characters and says where;
`decodeLossy` puts U+FFFD for every run of bytes that is no character; `completePart` is how many
bytes come before the beginning of a character at the very end.
-/

set_option autoImplicit false

namespace EventUpload.Utf8

def encode (s : String) : List UInt8 := s.toList.flatMap String.utf8EncodeChar

/-! ## One character -/

/-- What stands at the front of some bytes. The numbers say how many bytes after the first one
belong to it. -/
inductive Front where
  | char (c : Char) (more : Nat)
  /-- Bytes that are no character and do not begin one. -/
  | broken (more : Nat)
  /-- The beginning of a character, cut short by the end of the bytes. -/
  | cut
deriving Repr, DecidableEq

/-- A byte that continues a character. -/
def isTail (b : UInt8) : Bool := 0x80 ≤ b && b ≤ 0xBF

def low (b : UInt8) : Nat := b.toNat % 64

/-- The front of bytes that begin with `a`. The second byte of a character of three or four bytes
is bounded further where its first byte is the lowest or the highest of its kind. -/
def front (a : UInt8) (rest : List UInt8) : Front :=
  if a < 0x80 then .char (Char.ofNat a.toNat) 0
  else if a < 0xC2 then .broken 0
  else if a < 0xE0 then
    match rest with
    | [] => .cut
    | b :: _ => if isTail b then .char (Char.ofNat (a.toNat % 32 * 64 + low b)) 1 else .broken 0
  else if a < 0xF0 then
    -- No overlong forms, and no surrogates.
    let least : UInt8 := if a = 0xE0 then 0xA0 else 0x80
    let most : UInt8 := if a = 0xED then 0x9F else 0xBF
    match rest with
    | [] => .cut
    | b :: rest =>
      if b < least || most < b then .broken 0
      else match rest with
        | [] => .cut
        | c :: _ =>
          if isTail c then .char (Char.ofNat ((a.toNat % 16 * 64 + low b) * 64 + low c)) 2
          else .broken 1
  else if a < 0xF5 then
    -- No overlong forms, and nothing above U+10FFFF.
    let least : UInt8 := if a = 0xF0 then 0x90 else 0x80
    let most : UInt8 := if a = 0xF4 then 0x8F else 0xBF
    match rest with
    | [] => .cut
    | b :: rest =>
      if b < least || most < b then .broken 0
      else match rest with
        | [] => .cut
        | c :: rest =>
          if !isTail c then .broken 1
          else match rest with
            | [] => .cut
            | d :: _ =>
              if isTail d then
                .char (Char.ofNat (((a.toNat % 8 * 64 + low b) * 64 + low c) * 64 + low d)) 3
              else .broken 2
  else .broken 0

/-! ## Whole texts -/

/-- Why bytes are no text: a run of bytes at an offset, or the beginning of a character at the end. -/
inductive Fault where
  | broken (length offset : Nat)
  | cut (offset : Nat)
deriving Repr, DecidableEq

def Fault.message : Fault → String
  | .broken length offset =>
    "invalid utf-8 sequence of " ++ toString length ++ " bytes from index " ++ toString offset
  | .cut offset => "incomplete utf-8 byte sequence from index " ++ toString offset

/-- The characters of bytes that start at an offset. -/
def decodeFrom (offset : Nat) : List UInt8 → Except Fault (List Char)
  | [] => .ok []
  | a :: rest =>
    match front a rest with
    | .char c more => do return c :: (← decodeFrom (offset + 1 + more) (rest.drop more))
    | .broken more => .error (.broken (1 + more) offset)
    | .cut => .error (.cut offset)
termination_by bs => bs.length
decreasing_by simp only [List.length_drop, List.length_cons]; omega

def decode (bytes : List UInt8) : Except Fault String :=
  return String.ofList (← decodeFrom 0 bytes)

/-- The character that stands for bytes that are none. -/
def replacement : Char := '\uFFFD'

/-- The characters of the bytes, with the replacement for every run that is none. -/
def lossyChars : List UInt8 → List Char
  | [] => []
  | a :: rest =>
    match front a rest with
    | .char c more => c :: lossyChars (rest.drop more)
    | .broken more => replacement :: lossyChars (rest.drop more)
    | .cut => [replacement]
termination_by bs => bs.length
decreasing_by all_goals simp only [List.length_drop, List.length_cons]; omega

def decodeLossy (bytes : List UInt8) : String := String.ofList (lossyChars bytes)

/-- How many bytes come before the beginning of a character that the end cuts short. Bytes that are
broken earlier count as complete with everything after them. -/
def completePart (bytes : List UInt8) : Nat :=
  match decodeFrom 0 bytes with
  | .error (.cut offset) => offset
  | _ => bytes.length

end EventUpload.Utf8
