import EventUpload.Log.Record
import EventUpload.Json.Printer
import EventUpload.Text.Quoted
import EventUpload.Text.Style

/-!
# Lines of a log

A record becomes one line: plain, coloured or as a JSON object. In text the level is right-aligned
in five columns, and control characters of the message that a terminal would obey are spelled out;
line breaks and tabs stay.
-/

set_option autoImplicit false

namespace EventUpload

inductive LogForm where
  | plain
  | coloured
  | json
deriving BEq, DecidableEq, Repr

def LogLevel.style : LogLevel → Text.Style
  | trace => .purple
  | debug => .blue
  | info => .green
  | warn => .yellow
  | error => .red

def LogLevel.column (l : LogLevel) : String :=
  String.ofList (List.replicate (5 - l.name.length) ' ') ++ l.name

def LogValue.inText : LogValue → String
  | shown s => s
  | text s => Text.quoted s
  | count n => toString n
  | flag b => if b then "true" else "false"

def LogValue.toJson : LogValue → Json
  | shown s | text s => .str s
  | count n => .ofNat n
  | flag b => .bool b

/-- A character of a message; what a terminal would obey is spelled out. -/
def spellControl (c : Char) : String :=
  let n := c.toNat
  if n = 0x1b || n = 0x07 || n = 0x08 || n = 0x0c || n = 0x7f then
    "\\x" ++ String.ofList [Json.hexDigit (n / 16), Json.hexDigit (n % 16)]
  else if 0x80 ≤ n && n ≤ 0x9f then
    "\\u\x7b" ++ String.ofList [Json.hexDigit (n / 16), Json.hexDigit (n % 16)] ++ "\x7d"
  else String.singleton c

namespace LogRecord

def messageText (r : LogRecord) : String := String.join (r.message.toList.map spellControl)

/-- A plain line; without a time it starts with the level. -/
def plainLine (r : LogRecord) (time : Option String) : String :=
  (time.elim "" (· ++ " ")) ++ r.level.column ++ " " ++ r.target ++ ": "
    ++ String.intercalate " "
      (r.messageText :: r.fields.map fun (k, v) => k ++ "=" ++ v.inText)

def colouredLine (r : LogRecord) (time : Option String) : String :=
  (time.elim "" fun t => Text.painted .dimmed t ++ " ")
    ++ Text.painted r.level.style r.level.column ++ " "
    ++ Text.painted .dimmed r.target ++ Text.painted .dimmed ":" ++ " "
    ++ String.intercalate " " (r.messageText :: r.fields.map fun (k, v) =>
      Text.painted .italic k ++ Text.painted .dimmed "=" ++ v.inText)

def toJson (r : LogRecord) (time : Option String) : Json :=
  .obj ((time.elim [] fun t => [("timestamp", .str t)])
    ++ [("level", .str r.level.name),
      ("fields", .obj (("message", .str r.message) :: r.fields.map fun (k, v) => (k, v.toJson))),
      ("target", .str r.target)])

def line (r : LogRecord) (form : LogForm) (time : Option String) : String :=
  (match form with
    | .plain => r.plainLine time
    | .coloured => r.colouredLine time
    | .json => (r.toJson time).compact) ++ "\n"

end LogRecord

end EventUpload
