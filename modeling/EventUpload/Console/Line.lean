import EventUpload.Message
import EventUpload.Text.Style

/-!
# Messages on the console

A message becomes one entry that starts with a label for its kind; progress has no label. On a
console with colours the label, or the whole of a progress message, is styled.
-/

set_option autoImplicit false

namespace EventUpload

def MessageKind.label : MessageKind → String
  | info => "INFO:"
  | progress => ""
  | warning => "WARNING:"
  | error => "ERROR:"

def Message.plainLine (m : Message) : String :=
  if m.kind = .progress then m.text else m.kind.label ++ " " ++ m.text

def Message.colouredLine (m : Message) : String :=
  let label := m.kind.label
  match m.kind with
  | .info => Text.styled .green label ++ " " ++ m.text
  | .progress => Text.styled .dimmed m.text
  | .warning => Text.styled .bold (Text.styled .yellow label) ++ " " ++ m.text
  | .error => Text.styled .bold (Text.styled .red label) ++ " " ++ m.text

def Message.consoleLine (colour : Bool) (m : Message) : String :=
  if colour then m.colouredLine else m.plainLine

/-- What posts leave on the console: the messages, each followed by a line break. -/
def consoleText (colour : Bool) (posts : List Post) : String :=
  String.join (posts.map fun
    | .message m => m.consoleLine colour ++ "\n"
    | .notice _ | .remark _ => "")

def sectionHeading (title : String) : String :=
  Text.styled .underlined (Text.styled .bold title)

end EventUpload
