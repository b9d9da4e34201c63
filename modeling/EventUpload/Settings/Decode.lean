import EventUpload.Settings.Value
import EventUpload.Json.Shape
import EventUpload.Text.Lower

/-!
# Reading data from settings

Data are read leniently: a number from a text or a truth value, a truth value from a number or a
word, a text from anything that is one datum; a real number is rounded to a whole one. A record is
read from a table, in which unknown members do not matter, or from a list of its fields in order.
-/

set_option autoImplicit false

namespace EventUpload

abbrev SettingDecoder (α : Type) := Setting → Except SettingFault α

namespace Setting

/-- A datum, or what cannot be one, in a complaint about its type. -/
def describeType : Setting → String
  | .datum _ (.whole n) => "64-bit integer \x60" ++ toString n ++ "\x60"
  | s => s.describe

def mistyped (s : Setting) (expected : String) : SettingFault :=
  .wrongType s.describeType expected none s.origin

def affirmative : List String := ["true", "on", "yes"]

def negative : List String := ["false", "off", "no"]

def toFlag : SettingDecoder Bool
  | .datum _ (.flag b) => .ok b
  | .datum _ (.whole n) => .ok (n ≠ 0)
  | .datum _ (.real x) => .ok (x != 0.0)
  | .datum origin (.text s) =>
    let word := Text.lower s
    if word = "1" || affirmative.contains word then .ok true
    else if word = "0" || negative.contains word then .ok false
    else .error (mistyped (.datum origin (.text word)) "a boolean")
  | s => .error (s.mistyped "a boolean")

/-- The unsigned number of 64 bits that a text stands for. -/
def wordOfText? (s : String) : Option Nat :=
  let digits := match s.toList with
    | '+' :: rest => rest
    | cs => cs
  if digits.isEmpty || !digits.all Char.isDigit then none
  else
    let n := digits.foldl (fun n c => n * 10 + (c.toNat - '0'.toNat)) 0
    if n < Nat.pow 2 64 then some n else none

/-- The unsigned number of 64 bits nearest to a real one; a half is rounded away from zero, and what
is no number counts as zero. -/
def wordOfReal (x : Float) : Nat := x.round.toUInt64.toNat

def toWord : SettingDecoder Nat
  | .datum _ (.whole (.ofNat n)) => .ok n
  | s@(.datum _ (.whole _)) => .error (s.mistyped "an unsigned 64 bit or less integer")
  | .datum _ (.flag b) => .ok (if b then 1 else 0)
  | .datum _ (.real x) => .ok (wordOfReal x)
  | s@(.datum _ (.text t)) =>
    let word := Text.lower t
    if affirmative.contains word then .ok 1
    else if negative.contains word then .ok 0
    else match wordOfText? t with
      | some n => .ok n
      | none => .error (s.mistyped "an integer")
  | s => .error (s.mistyped "an integer")

def toText : SettingDecoder String
  | .datum _ (.text s) => .ok s
  | .datum _ (.flag b) => .ok (if b then "true" else "false")
  | .datum _ (.whole n) => .ok (toString n)
  | .datum _ (.real x) => .ok (Decimal.plainOfDouble x)
  | s => .error (s.mistyped "a string")

def toOption {α : Type} (some? : SettingDecoder α) : SettingDecoder (Option α)
  | .datum _ .nothing => .ok none
  | s => some <$> some? s

def misshapen (s : Setting) (expected : String) : SettingFault :=
  .shape (Json.wrongType s.describe expected)

def toList {α : Type} (item : SettingDecoder α) : SettingDecoder (List α)
  | .list _ items => items.zipIdx.mapM fun (v, i) => (item v).mapError (·.inItem i)
  | s => .error (s.misshapen "a sequence")

/-- Names with data, in the order of the names. -/
def toNamed {α : Type} (item : SettingDecoder α) : SettingDecoder (List (String × α))
  | .table _ members => do
    let named ← members.mapM fun (k, v) => do return (k, ← (item v).mapError (·.inMember k))
    return named.mergeSort fun a b => a.1 ≤ b.1
  | s => .error (s.misshapen "a map")

/-- One of several names, whatever its case: a text, or a table with that name alone. -/
def toName {α : Type} (kind : String) (named : List (String × α)) : SettingDecoder α
  | .datum _ (.text s) => find s
  | .table _ [(k, _)] => find k
  | _ => .error (.shape ("value of enum " ++ kind
      ++ " should be represented by either string or table with exactly one key"))
where
  find (s : String) : Except SettingFault α :=
    match named.find? (fun n => Text.lower n.1 = Text.lower s) with
    | some (_, a) => .ok a
    | none => .error (.shape ("enum " ++ kind ++ " does not have variant constructor " ++ s))

/-- The field of a record that is put into a draft `δ`. -/
structure Slot (δ : Type) where
  key : String
  required : Bool
  put : δ → Setting → Except SettingFault δ

/-- The fields of a record in order, from the items of a list. The number is the position of the
first of the fields. -/
def toPositions {δ : Type} (name : String) (count : Nat) :
    Nat → List (Slot δ) → List Setting → δ → Except SettingFault δ
  | _, [], _, draft => .ok draft
  | i, s :: slots, [], draft =>
    if s.required then .error (.shape (Json.shortArray i name count))
    else toPositions name count (i + 1) slots [] draft
  | i, s :: slots, v :: items, draft => do
    toPositions name count (i + 1) slots items (← (s.put draft v).mapError (·.inItem i))

def toRecord {δ : Type} (name : String) (slots : List (Slot δ)) (empty : δ) : SettingDecoder δ
  | .table _ members => do
    let draft ← members.foldlM (fun draft (k, v) =>
      match slots.find? (fun s => s.key = k) with
      | some s => (s.put draft v).mapError (·.inMember k)
      | none => .ok draft) empty
    match slots.find? (fun s => s.required && !members.any (fun m => m.1 = s.key)) with
    | some s => .error (.shape (Json.missingField s.key))
    | none => return draft
  | .list _ items => toPositions name slots.length 0 slots items empty
  | s => .error (s.misshapen ("struct " ++ name))

end Setting

end EventUpload
