/-!
# Why a JSON text is refused, and where

A `Fault` carries its cause together with the characters not read yet, so the place of a fault is
computed from the whole text only when it is reported: `Fault.message` counts lines from 1 and
columns in bytes. A cause is the end of the text, a breach of the grammar, or a well-formed value
of the wrong shape; `Cause.category` tells these three apart.
-/

set_option autoImplicit false

namespace EventUpload.Json

/-- What is wrong with a JSON text. -/
inductive Cause where
  | endInList
  | endInObject
  | endInString
  | endInValue
  | colonMissing
  | listCommaMissing
  | objectCommaMissing
  | wordBroken
  | valueMissing
  | escapeBroken
  | numberBroken
  | numberTooLarge
  | controlCharacter
  | keyNotString
  | loneSurrogate
  | pairBroken
  | trailingComma
  | trailingText
  | tooDeep
  /-- The text is well-formed so far, but a value has the wrong shape. -/
  | shape (message : String)
deriving BEq, DecidableEq, Repr, Inhabited

def Cause.message : Cause → String
  | .endInList => "EOF while parsing a list"
  | .endInObject => "EOF while parsing an object"
  | .endInString => "EOF while parsing a string"
  | .endInValue => "EOF while parsing a value"
  | .colonMissing => "expected `:`"
  | .listCommaMissing => "expected `,` or `]`"
  | .objectCommaMissing => "expected `,` or `\x7d`"
  | .wordBroken => "expected ident"
  | .valueMissing => "expected value"
  | .escapeBroken => "invalid escape"
  | .numberBroken => "invalid number"
  | .numberTooLarge => "number out of range"
  | .controlCharacter => "control character (\\u0000-\\u001F) found while parsing a string"
  | .keyNotString => "key must be a string"
  | .loneSurrogate => "lone leading surrogate in hex escape"
  | .pairBroken => "unexpected end of hex escape"
  | .trailingComma => "trailing comma"
  | .trailingText => "trailing characters"
  | .tooDeep => "recursion limit exceeded"
  | .shape message => message

inductive Category where
  | unfinished
  | malformed
  | misshapen
deriving BEq, DecidableEq, Repr

def Cause.category : Cause → Category
  | .endInList | .endInObject | .endInString | .endInValue => .unfinished
  | .shape _ => .misshapen
  | _ => .malformed

/-- A refusal: its cause, the unread characters, and how many bytes of them the report includes.
A misshapen value is `placed` as soon as the reader of the enclosing record has moved on. -/
structure Fault where
  cause : Cause
  rest : List Char
  ahead : Nat
  placed : Bool
deriving Repr, Inhabited

/-- A fault just after the last character read. -/
def Fault.here (cause : Cause) (rest : List Char) : Fault := ⟨cause, rest, 0, true⟩

/-- A fault at the next character, which the report counts as reached. -/
def Fault.next (cause : Cause) (rest : List Char) : Fault := ⟨cause, rest, 1, true⟩

/-- A misshapen record, to be placed by the reader of that record. -/
def Fault.unplaced (message : String) (rest : List Char) : Fault := ⟨.shape message, rest, 0, false⟩

def byteLength (cs : List Char) : Nat := cs.foldl (fun n c => n + c.utf8Size) 0

/-- Line and column of the byte offset `n` in a text: the line counts from 1, the column counts
the bytes since the last line break before the offset. -/
def place (text : List Char) (offset : Nat) : Nat × Nat :=
  let rec go : List Char → Nat → Nat → Nat → Nat × Nat
    | [], _, line, column => (line, column)
    | c :: rest, left, line, column =>
      if left = 0 then (line, column)
      else if left < c.utf8Size then (line, column + left)
      else if c = '\n' then go rest (left - 1) (line + 1) 0
      else go rest (left - c.utf8Size) line (column + c.utf8Size)
  go text offset 1 0

def Fault.place (f : Fault) (text : String) : Nat × Nat :=
  let total := text.utf8ByteSize
  Json.place text.toList (min total (total - byteLength f.rest + f.ahead))

def Fault.message (f : Fault) (text : String) : String :=
  let (line, column) := f.place text
  f.cause.message ++ " at line " ++ toString line ++ " column " ++ toString column

end EventUpload.Json
