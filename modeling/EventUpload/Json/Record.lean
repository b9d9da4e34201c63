import EventUpload.Json.Reader
import EventUpload.Json.Shape

/-!
# Reading records from text

A record is read field by field as the text brings them, so the first fault in the text is the one
reported, be it a breach of the grammar or a value of the wrong shape. `readRecord` takes an object,
in which unknown members are skipped and no field may come twice, or an array of the fields in
order, which may stop short where all fields left have defaults.
-/

set_option autoImplicit false

namespace EventUpload.Json

/-- A field of a record that is being read into a draft `δ`. -/
structure Field (δ : Type) where
  key : String
  required : Bool
  given : δ → Bool
  read : δ → Reader δ

/-- A misshapen value, described by its first characters, in place of the expected one. -/
def shapeFault (expected : String) (cs : List Char) : Fault :=
  let wrong := fun (given : String) (rest : List Char) =>
    Fault.here (.shape (wrongType given expected)) rest
  let word := fun (ws : List Char) (given : String) (rest : List Char) =>
    match readWord ws rest with
    | .ok rest => wrong given rest
    | .error f => f
  let number := fun (positive : Bool) (rest : List Char) =>
    match readNumber positive rest with
    | .ok (n, rest) => wrong n.describe rest
    | .error f => f
  match cs with
  | 'n' :: rest => word ['u', 'l', 'l'] "null" rest
  | 't' :: rest => word ['r', 'u', 'e'] "boolean `true`" rest
  | 'f' :: rest => word ['a', 'l', 's', 'e'] "boolean `false`" rest
  | '-' :: rest => number false rest
  | '"' :: rest =>
    match readStringTail [] rest with
    | .ok (s, rest) => wrong ("string " ++ Text.quoted s) rest
    | .error f => f
  | '[' :: rest => wrong "sequence" ('[' :: rest)
  | '{' :: rest => wrong "map" ('{' :: rest)
  | c :: rest =>
    if isDigit c then number true (c :: rest) else .next .valueMissing (c :: rest)
  | [] => .next .endInValue []

def readString : Reader String := fun cs =>
  match skipBlanks cs with
  | '"' :: rest => readStringTail [] rest
  | rest => .error (shapeFault "a string" rest)

def readBool : Reader Bool := fun cs =>
  match skipBlanks cs with
  | 't' :: rest => do return (true, ← readWord ['r', 'u', 'e'] rest)
  | 'f' :: rest => do return (false, ← readWord ['a', 'l', 's', 'e'] rest)
  | rest => .error (shapeFault "a boolean" rest)

def readWord64 : Reader Nat := fun cs =>
  let number := fun (positive : Bool) (cs : List Char) => do
    let (n, rest) ← readNumber positive cs
    match n with
    | .whole (.ofNat n) => return (n, rest)
    | .whole n => .error (.here (.shape (wrongValue (Number.whole n).describe "u64")) rest)
    | n => .error (.here (.shape (wrongType n.describe "u64")) rest)
  match skipBlanks cs with
  | '-' :: rest => number false rest
  | c :: rest =>
    if isDigit c then number true (c :: rest) else .error (shapeFault "u64" (c :: rest))
  | [] => .error (.next .endInValue [])

/-- The first field without default that is not given, with its position. -/
def firstMissing? {δ : Type} (fields : List (Field δ)) (draft : δ) : Option (Nat × String) :=
  fields.zipIdx.findSome? fun (f, i) =>
    if f.required && !f.given draft then some (i, f.key) else none

/-- The members of a record up to the closing brace. -/
def readFields {δ : Type} (fields : List (Field δ)) : Nat → Bool → δ → Reader δ
  | 0, _, _, cs => .error (.next .endInObject cs)
  | fuel + 1, first, draft, cs => do
    match ← nextKey first cs with
    | (none, rest) => return (draft, rest)
    | (some k, rest) =>
      match fields.find? (fun f => f.key = k) with
      | none => readFields fields fuel false draft (← skipValue (← readColon rest))
      | some f =>
        if f.given draft then .error (.unplaced (duplicateField k) rest)
        else
          let (draft, rest) ← f.read draft (← readColon rest)
          readFields fields fuel false draft rest

/-- The items of a record up to the closing bracket, or up to the last field. -/
def readPositions {δ : Type} : List (Field δ) → Bool → δ → Reader δ
  | [], _, draft, cs => .ok (draft, cs)
  | f :: fields, first, draft, cs => do
    match ← nextItem first cs with
    | (false, rest) => return (draft, rest)
    | (true, rest) =>
      let (draft, rest) ← f.read draft rest
      readPositions fields false draft rest

/-- A misshapen record is reported behind its closing bracket, if that comes next. -/
def Fault.placeAt (f : Fault) (close : Char) : Fault :=
  if f.placed then f
  else match skipBlanks f.rest with
    | c :: rest => { f with rest := if c = close then rest else c :: rest, placed := true }
    | [] => { f with rest := [], placed := true }

def readRecord {δ : Type} (name : String) (fields : List (Field δ)) (empty : δ) : Reader δ :=
  fun cs =>
    match skipBlanks cs with
    | '{' :: rest =>
      let read := do
        let (draft, rest) ← readFields fields (rest.length + 1) true empty rest
        match firstMissing? fields draft with
        | some (_, key) => .error (.unplaced (missingField key) rest)
        | none => return (draft, ← endMembers rest)
      read.mapError fun f => f.placeAt '}'
    | '[' :: rest =>
      let read := do
        let (draft, rest) ← readPositions fields true empty rest
        match firstMissing? fields draft with
        | some (given, _) => .error (.unplaced (shortArray given name fields.length) rest)
        | none => return (draft, ← endItems rest)
      read.mapError fun f => f.placeAt ']'
    | rest => .error (shapeFault ("struct " ++ name) rest)

end EventUpload.Json
