import EventUpload.Toml.Value

/-!
# Dates and times

A moment is a date, a time of day, or a date with a time and perhaps an offset from universal time.
It is read with its ranges checked, and kept in one spelling: `T` between date and time, as many
digits of a second as are needed, and `Z` for universal time.
-/

set_option autoImplicit false

namespace EventUpload.Toml

/-- A number of exactly so many digits. -/
def readDigits : Nat → Nat → Scan Nat
  | 0, acc, cs => some (acc, cs)
  | count + 1, acc, c :: cs =>
    if c.isDigit then readDigits count (acc * 10 + (c.toNat - '0'.toNat)) cs else none
  | _ + 1, _, [] => none

def readChar (c : Char) : Scan Unit
  | d :: cs => if c = d then some ((), cs) else none
  | [] => none

def padded (digits n : Nat) : String :=
  let text := toString n
  String.ofList (List.replicate (digits - text.length) '0') ++ text

def daysOfMonth (year month : Nat) : Nat :=
  let leap := year % 4 = 0 && (year % 100 ≠ 0 || year % 400 = 0)
  if month = 2 then if leap then 29 else 28
  else if [4, 6, 9, 11].contains month then 30
  else 31

def readDate : Scan String := fun cs => do
  let (year, cs) ← readDigits 4 0 cs
  let ((), cs) ← readChar '-' cs
  let (month, cs) ← readDigits 2 0 cs
  let ((), cs) ← readChar '-' cs
  let (day, cs) ← readDigits 2 0 cs
  if 1 ≤ month && month ≤ 12 && 1 ≤ day && day ≤ daysOfMonth year month then
    some (padded 4 year ++ "-" ++ padded 2 month ++ "-" ++ padded 2 day, cs)
  else none

def trimZeros (digits : List Char) : List Char :=
  (digits.reverse.dropWhile (· = '0')).reverse

/-- The part of a second; nine digits of it count. -/
def readFraction : Scan String
  | '.' :: cs =>
    let digits := cs.takeWhile Char.isDigit
    if digits.isEmpty then some ("", '.' :: cs)
    else
      let kept := trimZeros (digits.take 9)
      some (if kept.isEmpty then "" else "." ++ String.ofList kept, cs.dropWhile Char.isDigit)
  | cs => some ("", cs)

def readTime : Scan String := fun cs => do
  let (hour, cs) ← readDigits 2 0 cs
  let ((), cs) ← readChar ':' cs
  let (minute, cs) ← readDigits 2 0 cs
  let ((), cs) ← readChar ':' cs
  let (second, cs) ← readDigits 2 0 cs
  if hour ≤ 23 && minute ≤ 59 && second ≤ 60 then
    let (fraction, cs) ← readFraction cs
    some (padded 2 hour ++ ":" ++ padded 2 minute ++ ":" ++ padded 2 second ++ fraction, cs)
  else none

def readOffsetTail (sign : String) : Scan String := fun cs => do
  let (hours, cs) ← readDigits 2 0 cs
  let ((), cs) ← readChar ':' cs
  let (minutes, cs) ← readDigits 2 0 cs
  if hours ≤ 23 && minutes ≤ 59 then
    let sign := if hours = 0 && minutes = 0 then "+" else sign
    some (sign ++ padded 2 hours ++ ":" ++ padded 2 minutes, cs)
  else none

/-- The offset from universal time, if there is one. -/
def readOffset (cs : List Char) : String × List Char :=
  let found := match cs with
    | 'Z' :: rest | 'z' :: rest => some ("Z", rest)
    | '+' :: rest => readOffsetTail "+" rest
    | '-' :: rest => readOffsetTail "-" rest
    | _ => none
  found.getD ("", cs)

/-- The time behind a date and a mark, if there is one. -/
def readTimeAfterDate (cs : List Char) : String × List Char :=
  match cs with
  | c :: rest =>
    if c = 'T' || c = 't' || c = ' ' then
      match readTime rest with
      | some (time, rest) =>
        let (offset, rest) := readOffset rest
        ("T" ++ time ++ offset, rest)
      | none => ("", cs)
    else ("", cs)
  | [] => ("", cs)

def readMoment : Scan String := fun cs =>
  match readDate cs with
  | some (date, cs) =>
    let (time, cs) := readTimeAfterDate cs
    some (date ++ time, cs)
  | none => readTime cs

end EventUpload.Toml
