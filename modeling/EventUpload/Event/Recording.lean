import EventUpload.Event.Basic
import EventUpload.Files.Store
import EventUpload.Text.Blank
import EventUpload.Text.Utf8

/-!
# Recordings

A recording is a text with the JSON form of one event per line. A line ends with a line feed, which
a carriage return may precede; blank lines are skipped. The first line that is no event refuses the
whole recording.
-/

set_option autoImplicit false

namespace EventUpload

/-- The lines of a text, without what ends them. -/
def Text.lines : List Char → List (List Char)
  | [] => []
  | '\n' :: rest => [] :: Text.lines rest
  | '\r' :: '\n' :: rest => [] :: Text.lines rest
  | c :: rest =>
    match Text.lines rest with
    | [] => [[c]]
    | line :: more => (c :: line) :: more

inductive RecordingFault where
  | file (fault : FileFault)
  | notText
  /-- A line that is no event, by its number from one. -/
  | badLine (number : Nat) (line : String) (fault : Json.Fault)

def RecordingFault.message (path : String) : RecordingFault → String
  | file f => "failed to read events from " ++ path ++ ": " ++ f.message
  | notText => "failed to read events from " ++ path ++ ": stream did not contain valid UTF-8"
  | badLine number line f =>
    path ++ ":" ++ toString number ++ ": invalid build event: " ++ f.message line

namespace Recording

def isBlank (line : List Char) : Bool := line.all Text.isBlankChar

/-- The events of lines, the first of which has the given number. -/
def ofLines (number : Nat) : List (List Char) → Except RecordingFault (List Event)
  | [] => .ok []
  | line :: rest =>
    if isBlank line then ofLines (number + 1) rest
    else
      let text := String.ofList line
      match Event.ofText text with
      | .error f => .error (.badLine number text f)
      | .ok e => do return e :: (← ofLines (number + 1) rest)

def ofText (text : String) : Except RecordingFault (List Event) :=
  ofLines 1 (Text.lines text.toList)

def read (files : FileStore) (path : String) : Except RecordingFault (List Event) :=
  match files.read path with
  | .error f => .error (.file f)
  | .ok bytes =>
    match Utf8.decode bytes with
    | .error _ => .error .notText
    | .ok text => ofText text

end Recording

end EventUpload
