import EventUpload.Text.Utf8

/-!
# Captured output

What a command writes to its standard output and its standard error is held back byte by byte and
taken from time to time. Taking leaves the beginning of a character at the very end where it is, and
cuts the rest into chunks of a bounded number of bytes, at the boundaries of characters. A chunk
holds at least one character, however many bytes that has.
-/

set_option autoImplicit false

namespace EventUpload

/-! ## Chunks -/

/-- The characters that fit into `room` bytes, and those that do not. -/
def splitAtBytes : (room : Nat) → List Char → List Char × List Char
  | _, [] => ([], [])
  | room, c :: rest =>
    if c.utf8Size ≤ room then
      let (head, tail) := splitAtBytes (room - c.utf8Size) rest
      (c :: head, tail)
    else ([], c :: rest)

/-- What is left over is no longer than what was there. -/
theorem length_splitAtBytes_le (room : Nat) (cs : List Char) :
    (splitAtBytes room cs).2.length ≤ cs.length := by
  induction cs generalizing room with
  | nil => simp [splitAtBytes]
  | cons c rest ih =>
    simp only [splitAtBytes]
    split
    · exact Nat.le_succ_of_le (ih _)
    · simp

/-- The chunks of at most `size` bytes each, or of one character. -/
def chunks (size : Nat) : List Char → List (List Char)
  | [] => []
  | c :: rest =>
    let split := splitAtBytes (size - c.utf8Size) rest
    (c :: split.1) :: chunks size split.2
termination_by cs => cs.length
decreasing_by
  exact Nat.lt_succ_of_le (length_splitAtBytes_le _ _)

def textChunks (size : Nat) (text : String) : List String :=
  (chunks (max size 1) text.toList).map String.ofList

/-! ## One captured stream -/

/-- Takes what is held of one stream: the chunks, and the bytes that stay. -/
def takeHeld (size : Nat) (held : List UInt8) : List String × List UInt8 :=
  let complete := Utf8.completePart held
  (textChunks size (Utf8.decodeLossy (held.take complete)), held.drop complete)

/-! ## Both streams -/

inductive OutputChannel where
  | out
  | err
deriving BEq, DecidableEq, Repr

/-- What is held back of the output of one command. -/
structure Listener where
  out : List UInt8
  err : List UInt8
  /-- How many bytes of one stream are held back before all is taken early. -/
  buffer : Nat
  /-- How many bytes one chunk has. -/
  chunk : Nat
deriving BEq, DecidableEq, Repr

namespace Listener

def empty (buffer chunk : Nat) : Listener := ⟨[], [], buffer, chunk⟩

def held (l : Listener) : OutputChannel → List UInt8
  | .out => l.out
  | .err => l.err

def write (l : Listener) (channel : OutputChannel) (bytes : List UInt8) : Listener :=
  match channel with
  | .out => { l with out := l.out ++ bytes }
  | .err => { l with err := l.err ++ bytes }

/-- Whether more of a stream is held than the buffer admits. -/
def isFull (l : Listener) (channel : OutputChannel) : Bool := l.buffer < (l.held channel).length

/-- Pairs of chunks; where one list is shorter its part is empty. -/
def pairChunks : List String → List String → List (String × String)
  | [], [] => []
  | [], e :: es => ("", e) :: pairChunks [] es
  | o :: os, [] => (o, "") :: pairChunks os []
  | o :: os, e :: es => (o, e) :: pairChunks os es

/-- Takes everything that can be taken, as pairs of chunks of the two streams. -/
def take (l : Listener) : Listener × List (String × String) :=
  let (outs, out) := takeHeld l.chunk l.out
  let (errs, err) := takeHeld l.chunk l.err
  ({ l with out := out, err := err }, pairChunks outs errs)

end Listener

end EventUpload
