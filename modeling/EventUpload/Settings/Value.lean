import EventUpload.Json.Value
import EventUpload.Toml.Value
import EventUpload.Decimal.Text
import EventUpload.Text.Quoted

/-!
# Settings

Settings come as a tree of tables and lists with data at its leaves. Every part remembers the place
it came from, for complaints; a table that was put together from several places has none.
-/

set_option autoImplicit false

namespace EventUpload

inductive Datum where
  | nothing
  | flag (b : Bool)
  | whole (n : Int)
  | real (x : Float)
  | text (s : String)
deriving Repr, Inhabited

/-- A tree of settings. -/
inductive Setting where
  | datum (origin : Option String) (d : Datum)
  | list (origin : Option String) (items : List Setting)
  | table (origin : Option String) (members : List (String × Setting))
deriving Repr, Inhabited

namespace Setting

def origin : Setting → Option String
  | datum o _ | list o _ | table o _ => o

def emptyTable : Setting := .table none []

def absent : Setting := .datum none .nothing

mutual

def ofToml (origin : Option String) : Toml → Setting
  | .text s | .moment s => .datum origin (.text s)
  | .whole n => .datum origin (.whole n)
  | .real x => .datum origin (.real x)
  | .flag b => .datum origin (.flag b)
  | .list items => .list origin (ofTomlItems origin items)
  | .table members => .table origin (ofTomlMembers origin members)

def ofTomlItems (origin : Option String) : List Toml → List Setting
  | [] => []
  | v :: rest => ofToml origin v :: ofTomlItems origin rest

def ofTomlMembers (origin : Option String) : List (String × Toml) → List (String × Setting)
  | [] => []
  | (k, v) :: rest => (k, ofToml origin v) :: ofTomlMembers origin rest

end

/-- The datum of a JSON number; a whole number that has no sign bit to spare is a real one. -/
def ofNumber : Json.Number → Datum
  | .whole n => if n < Nat.pow 2 63 then .whole n else .real (Float.ofNat n.toNat)
  | .real x => .real x

mutual

def ofJson (origin : Option String) : Json → Setting
  | .null => .datum origin .nothing
  | .bool b => .datum origin (.flag b)
  | .num n => .datum origin (ofNumber n)
  | .str s => .datum origin (.text s)
  | .arr items => .list origin (ofJsonItems origin items)
  | .obj members => .table origin (ofJsonMembers origin members)

def ofJsonItems (origin : Option String) : List Json → List Setting
  | [] => []
  | v :: rest => ofJson origin v :: ofJsonItems origin rest

def ofJsonMembers (origin : Option String) : List (String × Json) → List (String × Setting)
  | [] => []
  | (k, v) :: rest => (k, ofJson origin v) :: ofJsonMembers origin rest

end

end Setting

/-! ## Complaints -/

/-- A real number in a complaint: with a point, unless it is infinite or no number. -/
def describeReal (x : Float) : String :=
  let text := Decimal.plainOfDouble x
  if x.isNaN || x.isInf || text.toList.contains '.' then text else text ++ ".0"

def Setting.describe : Setting → String
  | .datum _ .nothing => "unit value"
  | .datum _ (.flag b) => "boolean \x60" ++ (if b then "true" else "false") ++ "\x60"
  | .datum _ (.whole n) => "integer \x60" ++ toString n ++ "\x60"
  | .datum _ (.real x) => "floating point \x60" ++ describeReal x ++ "\x60"
  | .datum _ (.text s) => "string " ++ Text.quoted s
  | .list .. => "sequence"
  | .table .. => "map"

inductive SettingFault where
  /-- A datum cannot be read as what is expected at a key. -/
  | wrongType (given expected : String) (key origin : Option String)
  | shape (message : String)
  /-- A file is not there, or is of no known form. -/
  | noFile (message : String)
  /-- A file cannot be read as what its name says. -/
  | malformed (cause origin : String)
deriving BEq, DecidableEq, Repr

namespace SettingFault

def message : SettingFault → String
  | wrongType given expected key origin =>
    "invalid type: " ++ given ++ ", expected " ++ expected
      ++ (key.elim "" fun k => " for key \x60" ++ k ++ "\x60")
      ++ (origin.elim "" fun o => " in " ++ o)
  | shape m | noFile m => m
  | malformed cause origin => cause ++ " in " ++ origin

/-- The fault of a datum inside of a list or table; `segment` is its name there. -/
def below (segment : String) (dotted : Bool) : SettingFault → SettingFault
  | wrongType given expected key origin =>
    let key := key.getD ""
    let dot := if dotted && key ≠ "" && key.toList.head? ≠ some '[' then "." else ""
    .wrongType given expected (some (segment ++ dot ++ key)) origin
  | f => f

def inMember (key : String) (f : SettingFault) : SettingFault := f.below key true

def inItem (i : Nat) (f : SettingFault) : SettingFault := f.below ("[" ++ toString i ++ "]") false

end SettingFault

end EventUpload
