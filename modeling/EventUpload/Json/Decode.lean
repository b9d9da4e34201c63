import EventUpload.Json.Shape

/-!
# Reading records from values

A decoder takes a value that is there as a whole and gives a datum or the complaint about its
shape. `decodeRecord` visits the members of an object in their order, which is that of their keys;
so of two misshapen members the one with the smaller key is reported, and a missing field only
when every member given is well-shaped.
-/

set_option autoImplicit false

namespace EventUpload.Json

abbrev Decoder (α : Type) := Json → Except String α

/-- A string, called `expected` in the complaint. -/
def decodeText (expected : String) : Decoder String
  | .str s => .ok s
  | v => .error (wrongType v.describe expected)

def decodeString : Decoder String := decodeText "a string"

def decodeBool : Decoder Bool
  | .bool b => .ok b
  | v => .error (wrongType v.describe "a boolean")

/-- An unsigned integer of 64 bits, called `expected` in the complaint. -/
def decodeWord (expected : String) : Decoder Nat
  | .num (.whole (.ofNat n)) => .ok n
  | .num (.whole n) => .error (wrongValue (Number.whole n).describe expected)
  | v => .error (wrongType v.describe expected)

def decodeOption {α : Type} (some? : Decoder α) : Decoder (Option α)
  | .null => .ok none
  | v => some <$> some? v

def decodeList {α : Type} (item : Decoder α) : Decoder (List α)
  | .arr items => items.mapM item
  | v => .error (wrongType v.describe "a sequence")

/-- One of several names: the name itself, or an object that gives it the value `null`. -/
def decodeName {α : Type} (named : List (String × α)) : Decoder α
  | .str s => find s
  | .obj [(k, v)] => do
    let a ← find k
    match v with
    | .null => return a
    | v => .error (wrongType v.describe "unit")
  | .obj _ => .error (wrongValue "map" "map with a single key")
  | v => .error (wrongType v.describe "string or map")
where
  find (s : String) : Except String α :=
    match named.lookup s with
    | some a => .ok a
    | none => .error (unknownName s (named.map Prod.fst))

/-- A field of a record that is put into a draft `δ`. -/
structure Slot (δ : Type) where
  key : String
  required : Bool
  put : δ → Json → Except String δ

/-- The fields of a record in order, from the items of an array. The number is the position of the
first of the fields. -/
def decodePositions {δ : Type} (name : String) (count : Nat) :
    Nat → List (Slot δ) → List Json → δ → Except String δ
  | _, [], _, draft => .ok draft
  | i, s :: slots, [], draft =>
    if s.required then .error (shortArray i name count)
    else decodePositions name count (i + 1) slots [] draft
  | i, s :: slots, v :: items, draft => do
    decodePositions name count (i + 1) slots items (← s.put draft v)

/-- A record from an object, in which unknown members do not matter, or from an array of its fields
in order. -/
def decodeRecord {δ : Type} (name : String) (slots : List (Slot δ)) (empty : δ) : Decoder δ
  | .obj members => do
    let draft ← members.foldlM (fun draft (k, v) =>
      match slots.find? (fun s => s.key = k) with
      | some s => s.put draft v
      | none => .ok draft) empty
    match slots.find? (fun s => s.required && !members.any (fun m => m.1 = s.key)) with
    | some s => .error (missingField s.key)
    | none => return draft
  | .arr items => do
    let draft ← decodePositions name slots.length 0 slots items empty
    if items.length ≤ slots.length then return draft
    else .error ("invalid length " ++ toString items.length ++ ", expected fewer elements in array")
  | v => .error (wrongType v.describe ("struct " ++ name))

end EventUpload.Json
