/-!
# JSON values

The payload of a build event is any JSON value. An object is its members in the order in which they
are written. A record is written field by field; an object that was read has its members sorted by
the code points of the keys, with one member per key: `insertMember` puts a member at its place and
replaces one with the same key. So two objects read from texts with the same members are the same
value, and printing one needs no sorting.

A number is `whole` when it is written without fraction and exponent and lies in the range of
unsigned or signed 64-bit integers; every other number is a `real`.
-/

set_option autoImplicit false

namespace EventUpload

/-- A JSON number: an integer of at most 64 bits, or a double. -/
inductive Json.Number where
  | whole (n : Int)
  | real (x : Float)
deriving BEq, Repr, Inhabited

inductive Json where
  | null
  | bool (b : Bool)
  | num (n : Json.Number)
  | str (s : String)
  | arr (items : List Json)
  | obj (members : List (String × Json))
deriving Repr, Inhabited

namespace Json

mutual

/-- Equality of values; numbers compare as numbers do, so a value with a NaN differs from itself. -/
def beq : Json → Json → Bool
  | .null, .null => true
  | .bool a, .bool b => a == b
  | .num a, .num b => a == b
  | .str a, .str b => a == b
  | .arr a, .arr b => beqItems a b
  | .obj a, .obj b => beqMembers a b
  | _, _ => false

def beqItems : List Json → List Json → Bool
  | [], [] => true
  | a :: as, b :: bs => beq a b && beqItems as bs
  | _, _ => false

def beqMembers : List (String × Json) → List (String × Json) → Bool
  | [], [] => true
  | (k, a) :: as, (l, b) :: bs => k == l && beq a b && beqMembers as bs
  | _, _ => false

end

instance : BEq Json := ⟨beq⟩

def ofNat (n : Nat) : Json := .num (.whole n)

/-- Puts a member at its place; a member with the same key is replaced. -/
def insertMember (k : String) (v : Json) : List (String × Json) → List (String × Json)
  | [] => [(k, v)]
  | (l, w) :: rest =>
    if k < l then (k, v) :: (l, w) :: rest
    else if k = l then (k, v) :: rest
    else (l, w) :: insertMember k v rest

/-- The object with the given members; of two members with one key the later one counts. -/
def ofMembers (members : List (String × Json)) : Json :=
  .obj (members.foldl (fun acc m => insertMember m.1 m.2 acc) [])

def member? (k : String) : Json → Option Json
  | .obj members => members.lookup k
  | _ => none

mutual

/-- No real number occurs in the value. -/
def realFree : Json → Bool
  | .num (.real _) => false
  | .arr items => realFreeItems items
  | .obj members => realFreeMembers members
  | _ => true

def realFreeItems : List Json → Bool
  | [] => true
  | v :: rest => realFree v && realFreeItems rest

def realFreeMembers : List (String × Json) → Bool
  | [] => true
  | (_, v) :: rest => realFree v && realFreeMembers rest

end

end Json

end EventUpload
