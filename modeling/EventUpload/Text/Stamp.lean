import EventUpload.Event.Basic
import EventUpload.Text.Utf8

/-!
# Stamps of time

A stamp is a date and a time of day in universal time, of the calendar in which every fourth year is
a leap year, but of the full centuries only every fourth. Instants are counted in nanoseconds since
the start of 1970.
-/

set_option autoImplicit false

namespace EventUpload.Text

/-- A number in at least so many digits. -/
def inDigits (digits n : Nat) : String :=
  let text := toString n
  String.ofList (List.replicate (digits - text.length) '0') ++ text

/-- Year, month and day of a day counted since the start of 1970. Years are counted from March here,
so that the leap day is their last. -/
def dateOfDay (day : Nat) : Nat × Nat × Nat :=
  let day := day + 719468
  let era := day / 146097
  let day := day % 146097
  let year := (day - day / 1460 + day / 36524 - day / 146096) / 365
  let day := day - (365 * year + year / 4 - year / 100)
  let month := (5 * day + 2) / 153
  let day := day - (153 * month + 2) / 5 + 1
  let year := era * 400 + year
  if month < 10 then (year, month + 3, day) else (year + 1, month - 9, day)

def nanosPerSecond : Nat := 1000000000

def stampSeconds (nanos : Nat) : String :=
  let seconds := nanos / nanosPerSecond
  let (year, month, day) := dateOfDay (seconds / 86400)
  let clock := seconds % 86400
  inDigits 4 year ++ "-" ++ inDigits 2 month ++ "-" ++ inDigits 2 day ++ "T"
    ++ inDigits 2 (clock / 3600) ++ ":" ++ inDigits 2 (clock / 60 % 60) ++ ":"
    ++ inDigits 2 (clock % 60)

/-- The stamp of an instant in an event: to the millisecond. -/
def eventStamp (nanos : Nat) : String :=
  stampSeconds nanos ++ "." ++ inDigits 3 (nanos % nanosPerSecond / 1000000) ++ "Z"

/-- The stamp of an instant in a log: with three, six or nine digits of a second, or none. -/
def logStamp (nanos : Nat) : String :=
  let part := nanos % nanosPerSecond
  let fraction :=
    if part = 0 then ""
    else if part % 1000000 = 0 then "." ++ inDigits 3 (part / 1000000)
    else if part % 1000 = 0 then "." ++ inDigits 6 (part / 1000)
    else "." ++ inDigits 9 part
  stampSeconds nanos ++ fraction ++ "+00:00"

/-- Bytes with a stamp wherever one has been left blank. -/
def fillStamps (stamp : List UInt8) (bytes : List UInt8) : List UInt8 :=
  let blank := Utf8.encode blankTime
  let rec go : (skip : Nat) → List UInt8 → List UInt8
    | _, [] => []
    | skip + 1, _ :: rest => go skip rest
    | 0, b :: rest =>
      if blank.isPrefixOf (b :: rest) then stamp ++ go (blank.length - 1) rest
      else b :: go 0 rest
  go 0 bytes

end EventUpload.Text
